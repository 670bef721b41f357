import KisLinux.FsManage
import KisLinux.LinkedChain

/-!
# Where the bytes of a file lie

The size formula counts blocks in one division, the loops of `read_file` and
`write_file_unchecked` find a byte by walking. `place` is the closed formula for
the walk. The results hold up to the top of `size_t`, for blocks that no geometry
describes as well: the chain is only asked to lie inside of the mapping.
-/
namespace KisLinux.Fs
open ByteMemory StateRun LinkedChain

/-! ## Places -/

/-- A block of a chain, by its number in the chain, and an offset in it. -/
structure Place where
  index : ℕ
  offset : ℕ
  deriving DecidableEq, Repr

/-- The header of the block at an index. -/
def headerAt (i : ℕ) : ℕ := if i = 0 then sizeofINodeMain else sizeofINode

/-- The data bytes of the first `i` blocks of a chain. -/
def dataBefore (bs : ℕ) : ℕ → ℕ
  | 0 => 0
  | i + 1 => dataBefore bs i + (bs - headerAt i)

/-- Where the logical byte `p` lies. -/
def place (bs p : ℕ) : Place :=
  if p < bs - sizeofINodeMain then ⟨0, sizeofINodeMain + p⟩
  else ⟨(p - (bs - sizeofINodeMain)) / (bs - sizeofINode) + 1,
    sizeofINode + (p - (bs - sizeofINodeMain)) % (bs - sizeofINode)⟩

section Places

variable {bs : ℕ}

@[simp] theorem headerAt_zero : headerAt 0 = sizeofINodeMain := rfl

@[simp] theorem headerAt_succ (i : ℕ) : headerAt (i + 1) = sizeofINode := rfl

theorem headerAt_le (i : ℕ) : sizeofINode ≤ headerAt i ∧ headerAt i ≤ sizeofINodeMain := by
  unfold headerAt
  split <;> decide

theorem dataBefore_succ (bs i : ℕ) :
    dataBefore bs (i + 1) = bs - sizeofINodeMain + i * (bs - sizeofINode) := by
  induction i with
  | zero => simp [dataBefore]
  | succ i ih => rw [dataBefore, ih, headerAt_succ, Nat.succ_mul, Nat.add_assoc]

theorem dataBefore_mono (bs : ℕ) {i j : ℕ} (h : i ≤ j) : dataBefore bs i ≤ dataBefore bs j := by
  induction h with
  | refl => exact le_rfl
  | step _ ih => exact ih.trans (Nat.le_add_right _ _)

/-- The place behind the data of `i` blocks. -/
theorem place_dataBefore {i o : ℕ} (ho : headerAt i + o < bs) :
    place bs (dataBefore bs i + o) = ⟨i, headerAt i + o⟩ := by
  cases i with
  | zero =>
    rw [headerAt_zero] at ho
    rw [place, dataBefore, Nat.zero_add, if_pos (by omega), headerAt_zero]
  | succ i =>
    rw [headerAt_succ] at ho
    have hpos : 0 < bs - sizeofINode := by omega
    have hsub : bs - sizeofINodeMain + i * (bs - sizeofINode) + o - (bs - sizeofINodeMain) =
        o + (bs - sizeofINode) * i := by
      rw [Nat.mul_comm i]
      omega
    rw [place, dataBefore_succ, if_neg (by omega), hsub, Nat.add_mul_div_left _ _ hpos,
      Nat.add_mul_mod_self_left, Nat.div_eq_of_lt (by omega), Nat.mod_eq_of_lt (by omega),
      Nat.zero_add, headerAt_succ]

/-- A place lies behind the header of its block, and the data before it add up to the byte. -/
theorem place_spec (hbs : sizeofINodeMain < bs) (p : ℕ) :
    headerAt (place bs p).index ≤ (place bs p).offset ∧ (place bs p).offset < bs ∧
      p = dataBefore bs (place bs p).index + ((place bs p).offset - headerAt (place bs p).index) := by
  rw [place]
  split_ifs with hp
  · refine ⟨Nat.le_add_right _ _, by dsimp only; omega, ?_⟩
    simp [dataBefore]
  · have hpos : 0 < bs - sizeofINode := by simp only [sizeofINode, sizeofINodeMain] at *; omega
    have hmod := Nat.mod_lt (p - (bs - sizeofINodeMain)) hpos
    have hdiv := Nat.div_add_mod' (p - (bs - sizeofINodeMain)) (bs - sizeofINode)
    refine ⟨Nat.le_add_right _ _, by dsimp only; omega, ?_⟩
    simp only [headerAt_succ, Nat.add_sub_cancel_left, dataBefore_succ]
    omega

theorem place_injective (hbs : sizeofINodeMain < bs) {p q : ℕ} (h : place bs p = place bs q) :
    p = q := by
  rw [(place_spec hbs p).2.2, (place_spec hbs q).2.2, h]

/-- The bytes that fit into `m` blocks lie in these. -/
theorem place_index_lt (hbs : sizeofINodeMain < bs) {p m : ℕ} (hp : p < dataBefore bs m) :
    (place bs p).index < m := by
  by_contra hle
  have hmono := dataBefore_mono bs (Nat.le_of_not_lt hle)
  have hspec := (place_spec hbs p).2.2
  omega

theorem place_index_mono (bs : ℕ) {p q : ℕ} (h : p ≤ q) :
    (place bs p).index ≤ (place bs q).index := by
  rw [place, place]
  split_ifs with hp hq
  · exact le_rfl
  · exact Nat.zero_le _
  · omega
  · exact Nat.succ_le_succ (Nat.div_le_div_right (by omega))

/-- The blocks of a chain are larger than the data in them. -/
theorem dataBefore_le (bs m : ℕ) : dataBefore bs m ≤ m * bs := by
  induction m with
  | zero => exact Nat.zero_le _
  | succ m ih =>
    rw [dataBefore, Nat.succ_mul]
    omega

end Places

/-! ## Chains in a mapping -/

/-- The link of a block among blocks of `bs` bytes. -/
def linkAt (bs : ℕ) (img : Image) (b : ℕ) : ℕ :=
  leNat (slice img.bytes (b * bs + continuationInode) 8)

/-- Different blocks inside of the mapping, linked one behind the other. -/
structure ChainAt (bs : ℕ) (img : Image) (l : List ℕ) : Prop where
  header_lt : sizeofINodeMain < bs
  blockSize_eq : leNat (slice img.bytes blockSizeField 8) = bs
  range : ∀ b ∈ l, 0 < b ∧ b < leNat (slice img.bytes blocksCountField 8)
  inside : ∀ b ∈ l, b * bs + bs ≤ img.mapped
  mapped_lt : img.mapped < wordSize
  linked : Linked (linkAt bs img) l
  nodup : l.Nodup
  fits : l.length * bs < wordSize

/-- The address of the logical byte `p`. -/
def addressAt (bs : ℕ) (l : List ℕ) (p : ℕ) : ℕ :=
  l.getD (place bs p).index 0 * bs + (place bs p).offset

/-- The logical bytes from `p` on. -/
def bytesAt (bs : ℕ) (img : Image) (l : List ℕ) (p len : ℕ) : List UInt8 :=
  (List.range' p len).map fun q => img.bytes (addressAt bs l q)

section Chain

variable {bs : ℕ} {img : Image} {l : List ℕ} {i b c o : ℕ}

theorem addressAt_dataBefore (hb : l[i]? = some b) (ho : headerAt i + o < bs) :
    addressAt bs l (dataBefore bs i + o) = b * bs + (headerAt i + o) := by
  rw [addressAt, place_dataBefore ho, List.getD_eq_getElem?_getD, hb, Option.getD_some]

namespace ChainAt

theorem blockSize_lt (h : ChainAt bs img l) (hb : b ∈ l) : bs < wordSize := by
  have hinside := h.inside b hb
  have hmapped := h.mapped_lt
  omega

/-- Blocks lie behind the numbers of the superblock. -/
theorem block_ge (h : ChainAt bs img l) (hb : b ∈ l) : 30 ≤ b * bs := by
  have hmul := Nat.mul_le_mul (Nat.succ_le_of_lt (h.range b hb).1) (Nat.succ_le_of_lt h.header_lt)
  simpa [sizeofINodeMain] using hmul

theorem blockSize_run (h : ChainAt bs img l) (hb : b ∈ l) : blockSize img = .ok bs img := by
  have hge := h.block_ge hb
  have hinside := h.inside b hb
  rw [blockSize, loadSize_run (by simp only [blockSizeField]; omega), h.blockSize_eq]

theorem blockAddress_run (h : ChainAt bs img l) (hb : b ∈ l) :
    blockAddress b img = .ok (b * bs) img := by
  have hinside := h.inside b hb
  have hmapped := h.mapped_lt
  rw [blockAddress, bind_of_ok (h.blockSize_run hb), pure_run, wmul, Nat.mod_eq_of_lt (by omega)]

theorem getInode_run (h : ChainAt bs img l) (hb : b ∈ l) :
    getInode b img = .ok (some (b * bs)) img := by
  have hge := h.block_ge hb
  have hinside := h.inside b hb
  obtain ⟨hpos, hlt⟩ := h.range b hb
  have hcount : blocksCount img = .ok (leNat (slice img.bytes blocksCountField 8)) img :=
    loadSize_run (by simp only [blocksCountField]; omega)
  rw [getInode, if_neg (by omega), bind_of_ok hcount, if_neg (by omega),
    bind_of_ok (h.blockAddress_run hb), pure_run]

/-- Following the link of a block that is not the last one. -/
theorem advance_run (h : ChainAt bs img l) (hb : l[i]? = some b) (hc : l[i + 1]? = some c) :
    getField (some (b * bs)) continuationInode img = .ok c img ∧
      getNextInode (some (b * bs)) img = .ok (some (c * bs)) img := by
  have hmem := List.mem_of_getElem? hb
  have hinside := h.inside b hmem
  have hlt := h.header_lt
  have hlink : linkAt bs img b = c := by
    obtain ⟨hi, rfl⟩ := List.getElem?_eq_some_iff.mp hc
    obtain ⟨-, rfl⟩ := List.getElem?_eq_some_iff.mp hb
    exact List.isChain_iff_getElem.mp h.linked i hi
  have hfield : getField (some (b * bs)) continuationInode img = .ok c img := by
    rw [getField, bind_of_ok (deref_some _ _),
      loadSize_run (by simp only [continuationInode, sizeofINodeMain] at *; omega)]
    exact congrArg (EStateM.Result.ok · img) hlink
  exact ⟨hfield, by rw [getNextInode, bind_of_ok hfield, h.getInode_run (List.mem_of_getElem? hc)]⟩

/-- Data behind the block at an index lie in a next block. -/
theorem exists_next (l : List ℕ) (i bs : ℕ) (h : dataBefore bs (i + 1) < dataBefore bs l.length) :
    ∃ c, l[i + 1]? = some c := by
  refine ⟨_, List.getElem?_eq_getElem ?_⟩
  by_contra hle
  have hmono := dataBefore_mono bs (Nat.le_of_not_lt hle)
  omega

theorem header_words (h : ChainAt bs img l) (hb : b ∈ l) :
    wsub bs sizeofINodeMain = bs - sizeofINodeMain ∧ wsub bs sizeofINode = bs - sizeofINode := by
  have hlt := h.blockSize_lt hb
  have hheader := h.header_lt
  simp only [wsub, wordSize, sizeofINodeMain, sizeofINode] at *
  omega

/-- The skip loop stops in the block where the offset lies, or at the end of the one before. -/
theorem skipLoop_at (h : ChainAt bs img l) {fuel : ℕ} (hb : l[i]? = some b) (hi : 0 < i)
    (ho : dataBefore bs i + o ≤ dataBefore bs l.length) (hf : o ≤ fuel) :
    ∃ j c o', l[j]? = some c ∧ dataBefore bs j + o' = dataBefore bs i + o ∧ headerAt j + o' ≤ bs ∧
      skipLoop (bs - sizeofINode) fuel ⟨b, some (b * bs), headerAt i, o⟩ img =
        .ok ⟨c, some (c * bs), headerAt j, o'⟩ img := by
  have hheader := h.header_lt
  have hhead : headerAt i = sizeofINode := if_neg hi.ne'
  induction fuel generalizing i b o with
  | zero =>
    obtain rfl : o = 0 := by omega
    refine ⟨i, b, 0, hb, rfl, ?_, ?_⟩
    · rw [hhead]
      simp only [sizeofINode, sizeofINodeMain] at *
      omega
    · rw [skipLoop, if_neg (Nat.not_lt_zero _), pure_run]
  | succ fuel ih =>
    rw [skipLoop]
    by_cases hlt : bs - sizeofINode < o
    · have hnext : dataBefore bs (i + 1) = dataBefore bs i + (bs - sizeofINode) := by
        rw [dataBefore, hhead]
      obtain ⟨c, hc⟩ := exists_next l i bs (by omega)
      obtain ⟨hfield, hinode⟩ := h.advance_run hb hc
      have hpos : 0 < bs - sizeofINode := by
        simp only [sizeofINode, sizeofINodeMain] at *
        omega
      obtain ⟨j, d, o', hd, hsum, hfit, hrun⟩ :=
        ih (o := o - (bs - sizeofINode)) hc (Nat.succ_pos i) (by omega) (by omega) rfl
      refine ⟨j, d, o', hd, by omega, hfit, ?_⟩
      rw [if_pos hlt]
      simp only
      rw [bind_of_ok hfield, bind_of_ok hinode, ← hrun, hhead]
      rfl
    · refine ⟨i, b, o, hb, rfl, ?_, by rw [if_neg hlt, pure_run]⟩
      simp only [hhead, sizeofINode, sizeofINodeMain] at *
      omega

/-- And so does the skipping as a whole. -/
theorem skipBlocks_at (h : ChainAt bs img l) (hb : l[0]? = some b) (ho : o ≤ dataBefore bs l.length) :
    ∃ j c o', l[j]? = some c ∧ dataBefore bs j + o' = o ∧ headerAt j + o' ≤ bs ∧
      skipBlocks b (some (b * bs)) o img = .ok ⟨c, some (c * bs), headerAt j, o'⟩ img := by
  have hheader := h.header_lt
  have hmem := List.mem_of_getElem? hb
  obtain ⟨hfirst, hcommon⟩ := h.header_words hmem
  have hone : dataBefore bs 1 = bs - sizeofINodeMain := by simp [dataBefore]
  rw [skipBlocks, bind_of_ok (h.blockSize_run hmem)]
  simp only [hfirst, hcommon]
  by_cases hlt : bs - sizeofINodeMain < o
  · obtain ⟨c, hc⟩ := exists_next l 0 bs (by rw [Nat.zero_add, hone]; omega)
    obtain ⟨hfield, hinode⟩ := h.advance_run hb hc
    obtain ⟨j, d, o', hd, hsum, hfit, hrun⟩ :=
      h.skipLoop_at (o := o - (bs - sizeofINodeMain)) hc Nat.one_pos
        (by rw [Nat.zero_add, hone]; omega) (Nat.sub_le o (bs - sizeofINodeMain))
    refine ⟨j, d, o', hd, by rw [hsum, Nat.zero_add, hone]; omega, hfit, ?_⟩
    rw [if_pos hlt, bind_of_ok hfield, bind_of_ok hinode, ← hrun]
    rfl
  · refine ⟨0, b, o, hb, by simp [dataBefore], by rw [headerAt_zero]; omega, ?_⟩
    rw [if_neg hlt]
    unfold skipLoop
    rw [if_neg ?_, pure_run, headerAt_zero]
    simp only [sizeofINode, sizeofINodeMain] at *
    omega

end ChainAt

/-- The bytes of one block are served in a row. -/
theorem bytesAt_block (hb : l[i]? = some b) {k : ℕ} (hk : headerAt i + o + k ≤ bs) :
    slice img.bytes (b * bs + o + headerAt i) k = bytesAt bs img l (dataBefore bs i + o) k := by
  refine List.ext_getElem? fun j => ?_
  rw [slice_getElem?, bytesAt, List.getElem?_map]
  split_ifs with hj
  · rw [List.getElem?_range' hj, Option.map_some, Nat.one_mul, Nat.add_assoc (dataBefore bs i),
      addressAt_dataBefore hb (by omega)]
    congr 2
    omega
  · rw [List.getElem?_eq_none (by rw [List.length_range']; omega), Option.map_none]

theorem bytesAt_add (p m n : ℕ) :
    bytesAt bs img l p (m + n) = bytesAt bs img l p m ++ bytesAt bs img l (p + m) n := by
  rw [bytesAt, bytesAt, bytesAt, ← List.map_append, List.range'_append_1]

/-- A part of a row of bytes. -/
theorem bytesAt_within {p k m n : ℕ} (h : m + n ≤ k) :
    ((bytesAt bs img l p k).drop m).take n = bytesAt bs img l (p + m) n := by
  obtain ⟨r, rfl⟩ := Nat.exists_eq_add_of_le h
  have hlen : ∀ q, (bytesAt bs img l q n).length = n := fun q => by simp [bytesAt]
  have hlen' : (bytesAt bs img l p m).length = m := by simp [bytesAt]
  rw [Nat.add_assoc, bytesAt_add, bytesAt_add, List.drop_left' hlen', List.take_left' (hlen _)]

/-- The copy loop of `read_file` takes every byte from its place. -/
theorem ChainAt.readLoop_at (h : ChainAt bs img l) {fuel len : ℕ} (hb : l[i]? = some b)
    (hio : headerAt i + o ≤ bs) (hlen : dataBefore bs i + o + len ≤ dataBefore bs l.length)
    (hf : len < fuel ∨ len ≤ fuel ∧ headerAt i + o < bs) :
    readLoop fuel ⟨b, some (b * bs), headerAt i, o⟩ len img =
      .ok (bytesAt bs img l (dataBefore bs i + o) len) img := by
  induction fuel generalizing i b o len with
  | zero =>
    obtain rfl : len = 0 := by omega
    rw [readLoop, if_pos rfl, pure_run]
    rfl
  | succ fuel ih =>
    by_cases hzero : len = 0
    · rw [readLoop, if_pos hzero, pure_run, hzero]
      rfl
    have hheader := h.header_lt
    have hmem := List.mem_of_getElem? hb
    have hinside := h.inside b hmem
    have hlt := h.blockSize_lt hmem
    have havail : wsub (wsub bs (headerAt i)) o = bs - headerAt i - o := by
      simp only [wsub, wordSize] at *
      omega
    rw [readLoop, if_neg hzero]
    simp only
    rw [bind_of_ok (h.blockSize_run hmem), havail, bind_of_ok (h.blockAddress_run hmem),
      bind_of_ok (load_run (by omega)), bytesAt_block hb (by omega)]
    by_cases hlast : len - min (bs - headerAt i - o) len = 0
    · rw [if_pos hlast, pure_run, Nat.min_eq_right (by omega)]
    · have hmin : min (bs - headerAt i - o) len = bs - headerAt i - o := by omega
      have hnext : dataBefore bs (i + 1) = dataBefore bs i + (bs - headerAt i) := rfl
      have hhead := headerAt_succ i
      obtain ⟨c, hc⟩ := exists_next l i bs (by omega)
      obtain ⟨hfield, hinode⟩ := h.advance_run hb hc
      have hrest :
          readLoop fuel ⟨c, some (c * bs), headerAt (i + 1), 0⟩ (len - (bs - headerAt i - o)) img =
            .ok (bytesAt bs img l (dataBefore bs (i + 1) + 0) (len - (bs - headerAt i - o))) img :=
        ih hc (by simp only [hhead, sizeofINode, sizeofINodeMain] at *; omega) (by omega)
          (.inr ⟨by omega, by simp only [hhead, sizeofINode, sizeofINodeMain] at *; omega⟩)
      rw [if_neg hlast, hmin, bind_of_ok hfield, bind_of_ok hinode, ← hhead, bind_of_ok hrest,
        pure_run]
      congr 1
      rw [show len = bs - headerAt i - o + (len - (bs - headerAt i - o)) by omega, bytesAt_add]
      congr 2 <;> omega

theorem bytesAt_congr {img' : Image} {p n : ℕ} (h : ∀ q, p ≤ q → q < p + n →
    img'.bytes (addressAt bs l q) = img.bytes (addressAt bs l q)) :
    bytesAt bs img' l p n = bytesAt bs img l p n := by
  refine List.map_congr_left fun q hq => ?_
  obtain ⟨hle, hlt⟩ := List.mem_range'_1.mp hq
  exact h q hle hlt

/-- Different bytes have different addresses. -/
theorem ChainAt.addressAt_injective (h : ChainAt bs img l) {p q : ℕ} (hp : p < dataBefore bs l.length)
    (hq : q < dataBefore bs l.length) (heq : addressAt bs l p = addressAt bs l q) : p = q := by
  have hheader := h.header_lt
  have hpos : 0 < bs := Nat.lt_of_le_of_lt (Nat.zero_le _) hheader
  have hip := place_index_lt hheader hp
  have hiq := place_index_lt hheader hq
  obtain ⟨-, hop, -⟩ := place_spec hheader p
  obtain ⟨-, hoq, -⟩ := place_spec hheader q
  rw [addressAt, addressAt, List.getD_eq_getElem?_getD, List.getD_eq_getElem?_getD,
    List.getElem?_eq_getElem hip, List.getElem?_eq_getElem hiq, Option.getD_some,
    Option.getD_some] at heq
  have hblock := congrArg (· / bs) heq
  have hoffset := congrArg (· % bs) heq
  simp only [Nat.mul_add_mod', Nat.mod_eq_of_lt hop, Nat.mod_eq_of_lt hoq] at hoffset
  simp only [Nat.mul_comm _ bs, Nat.mul_add_div hpos, Nat.div_eq_of_lt hop, Nat.div_eq_of_lt hoq,
    Nat.add_zero] at hblock
  have hindex := (h.nodup.getElem_inj_iff).mp hblock
  refine place_injective hheader ?_
  cases hplace : place bs p
  cases hplace' : place bs q
  simp_all

/-- A store behind the header of a block leaves the chain alone. -/
theorem ChainAt.putData (h : ChainAt bs img l) (hb : b ∈ l) {w : Writer} {a : ℕ} {d : List UInt8}
    (ha : b * bs + sizeofINode ≤ a) (hfit : a + d.length ≤ b * bs + bs) :
    ChainAt bs (img.put w a d) l := by
  have hge := h.block_ge hb
  have hheader := h.header_lt
  have hsuper : ∀ x, x + 8 ≤ 30 → slice (img.put w a d).bytes x 8 = slice img.bytes x 8 :=
    fun x hx => slice_blit_of_disjoint _ (Or.inl (by omega))
  refine ⟨hheader, ?_, fun x hx => ?_, h.inside, h.mapped_lt, ?_, h.nodup, h.fits⟩
  · rw [hsuper _ (by simp only [blockSizeField]; omega), h.blockSize_eq]
  · rw [hsuper _ (by simp only [blocksCountField]; omega)]
    exact h.range x hx
  · refine linked_congr h.linked fun x _ => ?_
    have hlink : slice (img.put w a d).bytes (x * bs + continuationInode) 8 =
        slice img.bytes (x * bs + continuationInode) 8 := by
      refine slice_blit_of_disjoint _ ?_
      simp only [continuationInode, sizeofINode, sizeofINodeMain] at *
      rcases Nat.lt_trichotomy x b with hlt | rfl | hgt
      · have hmul := Nat.mul_le_mul_right bs (Nat.succ_le_of_lt hlt)
        rw [Nat.succ_mul] at hmul
        omega
      · omega
      · have hmul := Nat.mul_le_mul_right bs (Nat.succ_le_of_lt hgt)
        rw [Nat.succ_mul] at hmul
        omega
    rw [linkAt, hlink, linkAt]

/-- `img'` is `img` with the bytes `d` written at the logical position `p`. -/
structure WrittenAt (bs : ℕ) (l : List ℕ) (img img' : Image) (p : ℕ) (d : List UInt8) : Prop where
  written : bytesAt bs img' l p d.length = d
  others : ∀ a, (∀ q, p ≤ q → q < p + d.length → a ≠ addressAt bs l q) → img'.bytes a = img.bytes a

/-- A store inside of one block. -/
theorem writtenAt_block (hb : l[i]? = some b) {w : Writer} {d : List UInt8}
    (hd : headerAt i + o + d.length ≤ bs) :
    WrittenAt bs l img (img.put w (b * bs + o + headerAt i) d) (dataBefore bs i + o) d := by
  refine ⟨by rw [← bytesAt_block hb hd, Image.put_bytes, slice_blit_self], fun a ha => ?_⟩
  by_cases hlt : a < b * bs + o + headerAt i
  · exact blit_of_lt _ _ hlt
  by_cases hge : b * bs + o + headerAt i + d.length ≤ a
  · exact blit_of_le _ _ hge
  obtain ⟨k, rfl⟩ := Nat.exists_eq_add_of_le (Nat.le_of_not_lt hlt)
  refine absurd ?_ (ha (dataBefore bs i + (o + k)) (by omega) (by omega))
  rw [addressAt_dataBefore hb (by omega)]
  omega

theorem ChainAt.writtenAt_append (h : ChainAt bs img l) {img₁ img' : Image} {p : ℕ}
    {d d' : List UInt8} (h₁ : WrittenAt bs l img img₁ p d)
    (h₂ : WrittenAt bs l img₁ img' (p + d.length) d')
    (hlen : p + (d ++ d').length ≤ dataBefore bs l.length) :
    WrittenAt bs l img img' p (d ++ d') := by
  rw [List.length_append] at hlen
  refine ⟨?_, fun a ha => ?_⟩
  · have hkept : bytesAt bs img' l p d.length = bytesAt bs img₁ l p d.length := by
      refine bytesAt_congr fun q hq hq' => h₂.others _ fun r hr hr' heq => ?_
      have := h.addressAt_injective (by omega) (by omega) heq
      omega
    rw [List.length_append, bytesAt_add, hkept, h₁.written, h₂.written]
  · rw [List.length_append] at ha
    rw [h₂.others a fun q hq hq' => ha q (by omega) (by omega),
      h₁.others a fun q hq hq' => ha q hq (by omega)]

/-- The copy loop of `write_file_unchecked` puts every byte to its place. -/
theorem ChainAt.writeLoop_at (h : ChainAt bs img l) {fuel : ℕ} {d : List UInt8}
    (hb : l[i]? = some b) (hio : headerAt i + o ≤ bs)
    (hlen : dataBefore bs i + o + d.length ≤ dataBefore bs l.length)
    (hf : d.length < fuel ∨ d.length ≤ fuel ∧ headerAt i + o < bs) :
    ∃ img', writeLoop fuel ⟨b, some (b * bs), headerAt i, o⟩ d img = .ok () img' ∧
      WrittenAt bs l img img' (dataBefore bs i + o) d := by
  induction fuel generalizing img i b o d with
  | zero =>
    obtain rfl : d = [] := List.eq_nil_of_length_eq_zero (by omega)
    exact ⟨img, by rw [writeLoop, if_pos rfl, pure_run], rfl, fun _ _ => rfl⟩
  | succ fuel ih =>
    by_cases hnil : d = []
    · subst hnil
      exact ⟨img, by rw [writeLoop, if_pos rfl, pure_run], rfl, fun _ _ => rfl⟩
    have hheader := h.header_lt
    have hhead := headerAt_le i
    have hmem := List.mem_of_getElem? hb
    have hinside := h.inside b hmem
    have hlt := h.blockSize_lt hmem
    have havail : wsub (wsub bs (headerAt i)) o = bs - headerAt i - o := by
      simp only [wsub, wordSize] at *
      omega
    obtain ⟨n, hn⟩ : ∃ n, min (bs - headerAt i - o) d.length = n := ⟨_, rfl⟩
    have hchunk : (d.take n).length = n := by
      rw [List.length_take]
      omega
    have hput : WrittenAt bs l img (img.put .memcpy (b * bs + o + headerAt i) (d.take n))
        (dataBefore bs i + o) (d.take n) := writtenAt_block hb (by omega)
    have hkept : ChainAt bs (img.put .memcpy (b * bs + o + headerAt i) (d.take n)) l :=
      h.putData hmem (by omega) (by omega)
    rw [writeLoop, if_neg hnil]
    simp only
    rw [bind_of_ok (h.blockSize_run hmem), havail, hn, bind_of_ok (h.blockAddress_run hmem),
      bind_of_ok (store_run (by omega))]
    by_cases hlast : d.drop n = []
    · refine ⟨_, by rw [if_pos hlast, pure_run], ?_⟩
      have hwhole : d.take n = d := List.take_of_length_le (List.drop_eq_nil_iff.mp hlast)
      rwa [hwhole] at hput ⊢
    · have hdrop : (d.drop n).length = d.length - n := List.length_drop
      have hpos : 0 < (d.drop n).length := List.length_pos_iff.mpr hlast
      have hnext : dataBefore bs (i + 1) = dataBefore bs i + (bs - headerAt i) := rfl
      have hsucc := headerAt_succ i
      obtain ⟨c, hc⟩ := exists_next l i bs (by omega)
      obtain ⟨hfield, hinode⟩ := hkept.advance_run hb hc
      obtain ⟨img', hrun, hrest⟩ := ih (o := 0) (d := d.drop n) hkept hc
        (by simp only [hsucc, sizeofINode, sizeofINodeMain] at *; omega) (by omega)
        (.inr ⟨by omega, by simp only [hsucc, sizeofINode, sizeofINodeMain] at *; omega⟩)
      refine ⟨img', by rw [if_neg hlast, bind_of_ok hfield, bind_of_ok hinode, ← hsucc, hrun], ?_⟩
      rw [show dataBefore bs (i + 1) + 0 = dataBefore bs i + o + (d.take n).length by omega] at hrest
      have hboth := h.writtenAt_append hput hrest (by rw [List.take_append_drop]; omega)
      rwa [List.take_append_drop] at hboth

end Chain

/-! ## The size formula -/

section Size

variable {bs : ℕ} {img : Image} {l : List ℕ} {b n : ℕ}

/-- The blocks that a size takes: the block of its last byte and those before it. -/
theorem ChainAt.getBlocksRequired_at (h : ChainAt bs img l) (hb : b ∈ l)
    (hn : n ≤ dataBefore bs l.length) :
    getBlocksRequired n img = .ok (if n = 0 then 1 else 1 + (place bs (n - 1)).index) img := by
  obtain ⟨hfirst, hcommon⟩ := h.header_words hb
  have hheader := h.header_lt
  have hfits := h.fits
  have hle := hn.trans (dataBefore_le bs l.length)
  have hbs := h.blockSize_lt hb
  rw [getBlocksRequired, bind_of_ok (h.blockSize_run hb)]
  simp only [hfirst, hcommon]
  by_cases hsmall : n ≤ bs - sizeofINodeMain
  · rw [if_pos hsmall, pure_run]
    by_cases hzero : n = 0
    · rw [if_pos hzero]
    · rw [if_neg hzero, place, if_pos (by omega), Nat.add_zero]
  · have hpos : 0 < bs - sizeofINode := by
      simp only [sizeofINode, sizeofINodeMain] at *
      omega
    -- the chain has a second block, and its data do not reach the top of `size_t`
    obtain ⟨m, hm⟩ : ∃ m, l.length = m + 1 := ⟨l.length - 1, by
      have := List.length_pos_of_mem hb
      omega⟩
    rw [hm, dataBefore_succ] at hn
    rw [hm] at hfits
    have hcapacity := Nat.mul_le_mul_left (m + 1) (Nat.sub_le bs sizeofINode)
    have hblocks := Nat.mul_le_mul_left (m + 1) (show 1 ≤ bs by omega)
    rw [Nat.succ_mul] at hcapacity
    have hsize : wsub n (bs - sizeofINodeMain) = n - (bs - sizeofINodeMain) := by
      simp only [wsub, wordSize] at *
      omega
    have hround : wsub (wadd (wsub n (bs - sizeofINodeMain)) (bs - sizeofINode)) 1 =
        n - 1 - (bs - sizeofINodeMain) + (bs - sizeofINode) := by
      rw [hsize, wsub_wadd_one hpos (by omega)]
      omega
    have hindex : (n - 1 - (bs - sizeofINodeMain)) / (bs - sizeofINode) < m := by
      rw [Nat.div_lt_iff_lt_mul hpos]
      omega
    rw [if_neg hsmall, if_neg hpos.ne', if_neg (by omega), pure_run, hround,
      Nat.add_div_right _ hpos, place, if_neg (by omega), wadd, Nat.mod_eq_of_lt (by omega)]
    exact congrArg (EStateM.Result.ok · img) (Nat.add_comm _ 1)

/-- The places of `place` are those of the loops, whatever range a call is about; they
are data of the chain, no two bytes share one, and the size formula counts them. -/
theorem places_agree (h : ChainAt bs img (b :: l)) (hn : n ≤ dataBefore bs (b :: l).length) :
    (∀ p < n, (place bs p).index < (b :: l).length ∧
      headerAt (place bs p).index ≤ (place bs p).offset ∧ (place bs p).offset < bs) ∧
    (∀ p < n, ∀ q < n, place bs p = place bs q → p = q) ∧
    (∀ o len, o + len ≤ n →
      (skipBlocks b (some (b * bs)) o >>= fun c => readLoop (len + 1) c len) img =
        .ok (bytesAt bs img (b :: l) o len) img) ∧
    (∀ o d, o + d.length ≤ n → ∃ img',
      (skipBlocks b (some (b * bs)) o >>= fun c => writeLoop (d.length + 1) c d) img = .ok () img' ∧
        WrittenAt bs (b :: l) img img' o d) ∧
    (0 < n → getBlocksRequired n img = .ok (1 + (place bs (n - 1)).index) img) ∧
    ∀ k ≤ n, ∃ x y, getBlocksRequired k img = .ok x img ∧ getBlocksRequired n img = .ok y img ∧
      x ≤ y := by
  have hheader := h.header_lt
  have hmem : b ∈ b :: l := List.mem_cons_self
  refine ⟨fun p hp => ?_, fun p _ q _ => place_injective hheader, fun o len hlen => ?_,
    fun o d hlen => ?_, fun hpos => ?_, fun k hk => ?_⟩
  · obtain ⟨hge, hlt, -⟩ := place_spec hheader p
    exact ⟨place_index_lt hheader (hp.trans_le hn), hge, hlt⟩
  · obtain ⟨j, c, o', hc, hsum, hfit, hskip⟩ := h.skipBlocks_at (o := o) rfl (by omega)
    rw [bind_of_ok hskip, h.readLoop_at hc hfit (by omega) (.inl (Nat.lt_succ_self len)), hsum]
  · obtain ⟨j, c, o', hc, hsum, hfit, hskip⟩ := h.skipBlocks_at (o := o) rfl (by omega)
    obtain ⟨img', hrun, hwritten⟩ :=
      h.writeLoop_at hc hfit (by omega) (.inl (Nat.lt_succ_self d.length))
    exact ⟨img', by rw [bind_of_ok hskip, hrun], hsum ▸ hwritten⟩
  · rw [h.getBlocksRequired_at hmem hn, if_neg hpos.ne']
  · refine ⟨_, _, h.getBlocksRequired_at hmem (hk.trans hn), h.getBlocksRequired_at hmem hn, ?_⟩
    have hmono := place_index_mono bs (Nat.sub_le_sub_right hk 1)
    split_ifs <;> omega

end Size

/-- Blocks of 40 bytes; block 2 is linked to block 1. -/
def backwardImage : Image where
  bytes a := (leBytes 8 40 ++ leBytes 8 4 ++ List.replicate 64 0 ++ leBytes 8 1).getD a 0
  mapped := 160
  stores := []

theorem backwardImage_chain : ChainAt 40 backwardImage [2, 1] where
  header_lt := by decide
  blockSize_eq := by decide
  range := by decide
  inside := by decide
  mapped_lt := by decide
  linked := List.isChain_cons_cons.mpr ⟨by decide, List.IsChain.singleton _⟩
  nodup := by decide
  fits := by decide

theorem places_agree_backward :
    (skipBlocks 2 (some 80) 5 >>= fun c => readLoop 11 c 10) backwardImage =
        .ok (bytesAt 40 backwardImage [2, 1] 5 10) backwardImage ∧
      getBlocksRequired 20 backwardImage = .ok 2 backwardImage := by
  obtain ⟨-, -, hread, -, hsize, -⟩ := places_agree backwardImage_chain (n := 20) (by decide)
  exact ⟨hread 5 10 (by decide), hsize (by decide)⟩

end KisLinux.Fs
