import KisLinux.FsAllocation
import KisLinux.FsPlaces
import Mathlib.Data.Finset.Card
import Mathlib.Order.Interval.Finset.Nat

/-!
# File contents along a chain

`payload` concatenates the data areas of a list of blocks: it is the bytes at
their places, in a row. Skipping blocks splits that list, and the copy loops then
read or overwrite the payload of what is left. An offset on a block edge is served
from the block before the edge, by a copy of zero bytes; the loops carry one spare
round for it.
-/
namespace KisLinux.Fs
open ByteMemory StateRun LinkedChain

/-- Blocks linked one behind the other, all different and all data blocks. -/
structure ChainOn (g : Geometry) (img : Image) (l : List ℕ) : Prop where
  linked : Linked (linkOf g img) l
  range : ∀ b ∈ l, g.root ≤ b ∧ b < g.blocksCount
  nodup : l.Nodup

/-- The data areas of the blocks `l`, the first one behind a header of `io` bytes. -/
def payload (g : Geometry) (img : Image) : ℕ → List ℕ → List UInt8
  | _, [] => []
  | io, b :: rest => blockSlice g img b io (g.blockSize - io) ++ payload g img sizeofINode rest

/-- The header size behind the blocks `pre` of a file. -/
def headerAfter (io : ℕ) (pre : List ℕ) : ℕ := if pre = [] then io else sizeofINode

theorem ChainOn.tail {g : Geometry} {img : Image} {b : ℕ} {l : List ℕ} (h : ChainOn g img (b :: l)) :
    ChainOn g img l where
  linked := h.linked.tail
  range := fun x hx => h.range x (List.mem_cons_of_mem _ hx)
  nodup := (List.nodup_cons.mp h.nodup).2

theorem ChainOn.suffix {g : Geometry} {img : Image} {pre l : List ℕ}
    (h : ChainOn g img (pre ++ l)) : ChainOn g img l where
  linked := (linked_append.mp h.linked).2.1
  range := fun x hx => h.range x (List.mem_append_right _ hx)
  nodup := (List.nodup_append.mp h.nodup).2.1

/-- Different data blocks are no more than the volume has. -/
theorem ChainOn.length_le {g : Geometry} {img : Image} {l : List ℕ} (hc : ChainOn g img l) :
    l.length ≤ g.blocksCount - g.root := by
  rw [← List.toFinset_card_of_nodup hc.nodup, ← Nat.card_Ico]
  apply Finset.card_le_card
  intro b hb
  rw [List.mem_toFinset] at hb
  exact Finset.mem_Ico.mpr (hc.range b hb)

theorem payload_length (g : Geometry) (img : Image) (io b : ℕ) (l : List ℕ) :
    (payload g img io (b :: l)).length = g.blockSize - io + l.length * g.commonBlockSize := by
  induction l generalizing io b with
  | nil => simp [payload]
  | cons c l ih =>
    rw [payload, List.length_append, ih, blockSlice_length, List.length_cons, Nat.succ_mul]
    simp only [Geometry.commonBlockSize]
    omega

/-- The payload of `k` blocks of a file has the length the size formula counts with. -/
theorem payload_length_eq_capacity (g : Geometry) (img : Image) {l : List ℕ} (hl : l ≠ []) :
    (payload g img sizeofINodeMain l).length = g.capacity l.length := by
  obtain ⟨b, l, rfl⟩ := List.exists_cons_of_ne_nil hl
  rw [payload_length, Geometry.capacity, List.length_cons, Nat.add_sub_cancel,
    Geometry.firstBlockSize]

theorem payload_append (g : Geometry) (img : Image) (io : ℕ) (pre l : List ℕ) :
    payload g img io (pre ++ l) =
      payload g img io pre ++ payload g img (headerAfter io pre) l := by
  induction pre generalizing io with
  | nil => simp [payload, headerAfter]
  | cons b pre ih =>
    rw [List.cons_append, payload, ih, payload, List.append_assoc]
    congr 2
    unfold headerAfter
    split <;> simp

theorem payload_congr {g : Geometry} {img img' : Image} {io : ℕ} {l : List ℕ}
    (hio : sizeofINode ≤ io) (hio' : io ≤ g.blockSize)
    (h : ∀ b ∈ l, ∀ o n, sizeofINode ≤ o → o + n ≤ g.blockSize →
      blockSlice g img' b o n = blockSlice g img b o n) :
    payload g img' io l = payload g img io l := by
  induction l generalizing io with
  | nil => rfl
  | cons b l ih =>
    have hh := g.header_lt
    simp only [sizeofINodeMain] at hh
    rw [payload, payload, h b (by simp) io _ hio (by omega),
      ih le_rfl (by simp only [sizeofINode]; omega) fun x hx => h x (List.mem_cons_of_mem _ hx)]

section Loops

variable {g : Geometry} {img : Image}

/-- On a volume a chain is one of the mapping. -/
theorem ChainOn.chainAt {l : List ℕ} (h : OnVolume g img) (hc : ChainOn g img l) :
    ChainAt g.blockSize img l where
  header_lt := g.header_lt
  blockSize_eq := (superblock_words h).1
  range b hb := by
    rw [(superblock_words h).2]
    exact ⟨Nat.lt_of_lt_of_le g.root_pos (hc.range b hb).1, (hc.range b hb).2⟩
  inside b hb := by
    rw [h.mapped_eq]
    exact g.block_range (o := 0) (hc.range b hb).2 (Nat.zero_add _).le
  mapped_lt := by
    rw [h.mapped_eq]
    exact g.mapped_lt
  linked := hc.linked
  nodup := hc.nodup
  fits := Nat.lt_of_le_of_lt
    (Nat.mul_le_mul_right _ (hc.length_le.trans (Nat.sub_le _ _))) g.mapped_lt

/-- Following the link of a block that is not the last one. -/
theorem advance_run (h : OnVolume g img) {b c : ℕ} {l : List ℕ} (hc : ChainOn g img (b :: c :: l)) :
    getField (some (b * g.blockSize)) continuationInode img = .ok c img ∧
      getNextInode (some (b * g.blockSize)) img = .ok (some (c * g.blockSize)) img :=
  (hc.chainAt h).advance_run (i := 0) rfl rfl

theorem payload_length_eq_dataBefore (g : Geometry) (img : Image) (l : List ℕ) :
    (payload g img sizeofINodeMain l).length = dataBefore g.blockSize l.length := by
  cases l with
  | nil => rfl
  | cons b l => exact (payload_length g img _ b l).trans (dataBefore_succ _ _).symm

theorem headerAfter_take {l : List ℕ} {j c : ℕ} (hj : l[j]? = some c) :
    headerAfter sizeofINodeMain (l.take j) = headerAt j := by
  have hne : l ≠ [] := by
    rintro rfl
    cases hj
  simp [headerAfter, headerAt, hne]

/-- The payload is the bytes at their places. -/
theorem payload_eq_bytesAt (l : List ℕ) :
    payload g img sizeofINodeMain l = bytesAt g.blockSize img l 0 (dataBefore g.blockSize l.length) := by
  have hfront : ∀ m ≤ l.length, payload g img sizeofINodeMain (l.take m) =
      bytesAt g.blockSize img l 0 (dataBefore g.blockSize m) := by
    intro m hm
    induction m with
    | zero => rfl
    | succ m ih =>
      have hb : l[m]? = some l[m] := List.getElem?_eq_getElem hm
      have hhead := (headerAt_le m).2.trans g.header_lt.le
      have hblock : slice img.bytes (l[m] * g.blockSize + 0 + headerAt m) (g.blockSize - headerAt m) =
          bytesAt g.blockSize img l (dataBefore g.blockSize m + 0) (g.blockSize - headerAt m) :=
        bytesAt_block hb (by omega)
      rw [List.take_succ_eq_append_getElem hm, payload_append, ih (by omega), headerAfter_take hb,
        dataBefore, bytesAt_add, payload, payload, List.append_nil, blockSlice, Nat.zero_add]
      exact congrArg _ hblock
  have hall := hfront l.length le_rfl
  rwa [List.take_length] at hall

/-- Skipping splits the chain at the block that serves the offset. -/
theorem skipBlocks_run (h : OnVolume g img) {b o : ℕ} {l : List ℕ} (hc : ChainOn g img (b :: l))
    (ho : o ≤ (payload g img sizeofINodeMain (b :: l)).length) :
    ∃ pre c rest o', b :: l = pre ++ c :: rest ∧
      o = (payload g img sizeofINodeMain pre).length + o' ∧
      headerAfter sizeofINodeMain pre + o' ≤ g.blockSize ∧
      skipBlocks b (some (b * g.blockSize)) o img =
        .ok ⟨c, some (c * g.blockSize), headerAfter sizeofINodeMain pre, o'⟩ img := by
  rw [payload_length_eq_dataBefore] at ho
  obtain ⟨j, c, o', hj, hsum, hfit, hrun⟩ := (hc.chainAt h).skipBlocks_at rfl ho
  obtain ⟨hlt, rfl⟩ := List.getElem?_eq_some_iff.mp hj
  refine ⟨(b :: l).take j, (b :: l)[j], (b :: l).drop (j + 1), o', ?_, ?_, ?_, ?_⟩
  · rw [← List.drop_eq_getElem_cons hlt, List.take_append_drop]
  · rw [payload_length_eq_dataBefore, List.length_take, Nat.min_eq_left hlt.le, hsum]
  · rwa [headerAfter_take hj]
  · rwa [headerAfter_take hj]

/-- Skipping and then copying, `read_file` returns the payload from the offset on. -/
theorem readRange_run (h : OnVolume g img) {b o len : ℕ} {l : List ℕ} (hc : ChainOn g img (b :: l))
    (hlen : o + len ≤ (payload g img sizeofINodeMain (b :: l)).length) :
    (skipBlocks b (some (b * g.blockSize)) o >>= fun c => readLoop (len + 1) c len) img =
      .ok (((payload g img sizeofINodeMain (b :: l)).drop o).take len) img := by
  rw [payload_length_eq_dataBefore] at hlen
  have hat := hc.chainAt h
  obtain ⟨j, c, o', hj, hsum, hfit, hrun⟩ := hat.skipBlocks_at (o := o) rfl (by omega)
  rw [bind_of_ok hrun, hat.readLoop_at hj hfit (by omega) (.inl (Nat.lt_succ_self len)), hsum,
    payload_eq_bytesAt, bytesAt_within hlen, Nat.zero_add]

/-- What is left of a block behind the header and the offset. -/
theorem available_eq {io o : ℕ} (hio : io + o ≤ g.blockSize) :
    wsub (wsub g.blockSize io) o = g.blockSize - io - o := by
  have hlt := g.blockSize_lt
  simp only [wsub, wordSize] at *
  omega

/-- The image after copying `d` over the payload of the blocks from offset `o` on. -/
def writeImage (g : Geometry) : Image → ℕ → ℕ → List ℕ → List UInt8 → Image
  | img, _, _, [], _ => img
  | img, io, o, b :: rest, d =>
    let n := min (g.blockSize - io - o) d.length
    if d.drop n = [] then img.putBlock g .memcpy b (io + o) (d.take n)
    else writeImage g (img.putBlock g .memcpy b (io + o) (d.take n)) sizeofINode 0 rest (d.drop n)

theorem OnVolume.writeImage (h : OnVolume g img) {io o : ℕ} {l : List ℕ} {d : List UInt8}
    (hl : ∀ b ∈ l, g.root ≤ b) : OnVolume g (writeImage g img io o l d) := by
  induction l generalizing img io o d with
  | nil => exact h
  | cons b l ih =>
    have hput := h.putBlock (w := .memcpy) (o := io + o)
      (d := d.take (min (g.blockSize - io - o) d.length)) (hl b (by simp))
    rw [Fs.writeImage]
    split
    · exact hput
    · exact ih hput fun x hx => hl x (List.mem_cons_of_mem _ hx)

theorem marked_writeImage {io o x : ℕ} {l : List ℕ} {d : List UInt8}
    (hl : ∀ b ∈ l, g.root ≤ b) (hx : x < g.blocksCount) :
    marked (writeImage g img io o l d) x = marked img x := by
  induction l generalizing img io o d with
  | nil => rfl
  | cons b l ih =>
    rw [Fs.writeImage]
    split
    · exact marked_putBlock (hl b (by simp)) hx
    · rw [ih fun y hy => hl y (List.mem_cons_of_mem _ hy), marked_putBlock (hl b (by simp)) hx]

/-- Copying leaves other blocks and the headers of its own blocks alone. -/
theorem blockSlice_writeImage {io o x o' n : ℕ} {l : List ℕ} {d : List UInt8}
    (hio : io + o ≤ g.blockSize) (ho' : o' + n ≤ g.blockSize)
    (hx : x ∉ l ∨ o' + n ≤ sizeofINode ∧ sizeofINode ≤ io ∨
      l.head? = some x ∧ x ∉ l.tail ∧ o' + n ≤ io) :
    blockSlice g (writeImage g img io o l d) x o' n = blockSlice g img x o' n := by
  induction l generalizing img io o d with
  | nil => rfl
  | cons b l ih =>
    have hh := g.header_lt
    simp only [sizeofINodeMain] at hh
    have hfit : io + o + (d.take (min (g.blockSize - io - o) d.length)).length ≤ g.blockSize := by
      rw [List.length_take]
      omega
    have hput : blockSlice g
        (img.putBlock g .memcpy b (io + o) (d.take (min (g.blockSize - io - o) d.length))) x o' n =
        blockSlice g img x o' n := by
      by_cases hxb : x = b
      · subst hxb
        refine blockSlice_putBlock_of_disjoint (Or.inl ?_)
        rcases hx with hx | ⟨hx, hx8⟩ | ⟨-, -, hx⟩
        · exact absurd (List.mem_cons_self ..) hx
        · omega
        · omega
      · exact blockSlice_putBlock_of_ne hxb hfit ho'
    rw [Fs.writeImage]
    split
    · exact hput
    · rw [ih (by simp only [sizeofINode]; omega), hput]
      rcases hx with hx | ⟨hx, -⟩ | ⟨-, hx, -⟩
      · exact Or.inl fun hm => hx (List.mem_cons_of_mem _ hm)
      · exact Or.inr (Or.inl ⟨hx, le_rfl⟩)
      · exact Or.inl hx

/-- Copying overwrites the payload. -/
theorem payload_writeImage {io o : ℕ} {l : List ℕ} {d : List UInt8} (hl : l.Nodup)
    (hio : sizeofINode ≤ io) (ho : io + o ≤ g.blockSize)
    (hd : o + d.length ≤ (payload g img io l).length) :
    payload g (writeImage g img io o l d) io l = overwrite (payload g img io l) o d := by
  induction l generalizing img io o d with
  | nil =>
    have hle : o + d.length ≤ 0 := hd
    have hd0 : d = [] := List.eq_nil_of_length_eq_zero (by omega)
    simp [payload, hd0]
  | cons b l ih =>
    have hh := g.header_lt
    simp only [sizeofINodeMain] at hh
    obtain ⟨hb, hl'⟩ := List.nodup_cons.mp hl
    generalize hn : min (g.blockSize - io - o) d.length = n
    have hfit : o + (d.take n).length ≤ g.blockSize - io := by
      rw [List.length_take]
      omega
    have hwithin : blockSlice g (img.putBlock g .memcpy b (io + o) (d.take n)) b io
        (g.blockSize - io) = overwrite (blockSlice g img b io (g.blockSize - io)) o (d.take n) :=
      blockSlice_putBlock_within o hfit
    have hrest : payload g (img.putBlock g .memcpy b (io + o) (d.take n)) sizeofINode l =
        payload g img sizeofINode l := by
      refine payload_congr le_rfl (by simp only [sizeofINode]; omega) fun x hx o' n' _ hle => ?_
      exact blockSlice_putBlock_of_ne (fun hxb => hb (hxb ▸ hx)) (by omega) hle
    rw [Fs.writeImage]
    simp only [hn]
    rw [payload, List.length_append, blockSlice_length] at hd
    split
    · next hdrop =>
      have hall : d.take n = d := by
        have hle : d.length ≤ n := List.drop_eq_nil_iff.mp hdrop
        exact List.take_of_length_le hle
      rw [payload, hwithin, hrest, payload, hall, overwrite_front _ _ _ _ (by
        rw [blockSlice_length, ← hall]; exact hfit)]
    · next hdrop =>
      have hfull : o + (d.take n).length = g.blockSize - io := by
        have : ¬ d.length ≤ n := fun hle => hdrop (List.drop_eq_nil_iff.mpr hle)
        rw [List.length_take]
        omega
      have hd' : 0 + (d.drop n).length ≤
          (payload g (img.putBlock g .memcpy b (io + o) (d.take n)) sizeofINode l).length := by
        rw [hrest, List.length_drop]
        rw [List.length_take] at hfull
        omega
      have hstep := ih hl' le_rfl (by simp only [sizeofINode]; omega) hd'
      have hhead : blockSlice g (Fs.writeImage g (img.putBlock g .memcpy b (io + o) (d.take n))
          sizeofINode 0 l (d.drop n)) b io (g.blockSize - io) =
          overwrite (blockSlice g img b io (g.blockSize - io)) o (d.take n) := by
        rw [blockSlice_writeImage (by simp only [sizeofINode]; omega) (by omega) (Or.inl hb),
          hwithin]
      rw [payload, hhead, hstep, hrest, payload]
      conv_rhs => rw [← List.take_append_drop n d]
      rw [overwrite_split _ _ _ _ _ (by rw [blockSlice_length]; exact hfull)]

/-- The links of a chain survive copying behind the headers. -/
theorem ChainOn.putBlock {b o : ℕ} {m : List ℕ} {d : List UInt8} (hc : ChainOn g img m)
    (h8 : sizeofINode ≤ o) (hfit : o + d.length ≤ g.blockSize) :
    ChainOn g (img.putBlock g .memcpy b o d) m where
  linked := by
    refine linked_congr hc.linked fun x _ => ?_
    have hfield : continuationInode + 8 ≤ sizeofINode := by decide
    rw [linkOf, linkOf, fieldOf, fieldOf]
    by_cases hx : x = b
    · rw [hx, blockSlice_putBlock_of_disjoint (Or.inl (by omega))]
    · rw [blockSlice_putBlock_of_ne hx hfit (by omega)]
  range := hc.range
  nodup := hc.nodup

/-- One round of the copy loop of `write_file_unchecked`. -/
theorem writeLoop_round (h : OnVolume g img) {b io o n fuel : ℕ} {d : List UInt8}
    (hb : b < g.blocksCount) (hio : io + o ≤ g.blockSize) (hd : d ≠ [])
    (hn : min (g.blockSize - io - o) d.length = n) :
    writeLoop (fuel + 1) ⟨b, some (b * g.blockSize), io, o⟩ d img =
      (if d.drop n = [] then pure () else do
        let next ← getField (some (b * g.blockSize)) continuationInode
        let nextInode ← getNextInode (some (b * g.blockSize))
        writeLoop fuel ⟨next, nextInode, sizeofINode, 0⟩ (d.drop n) : FsM Unit)
        (img.putBlock g .memcpy b (io + o) (d.take n)) := by
  have hr := g.block_range (o := o + io) (n := n) hb (by omega)
  have hput : img.put .memcpy (b * g.blockSize + o + io) (d.take n) =
      img.putBlock g .memcpy b (io + o) (d.take n) := by
    rw [Image.putBlock, Nat.add_assoc, Nat.add_comm o io]
  rw [writeLoop, if_neg hd]
  simp only
  rw [bind_of_ok (blockSize_run h), available_eq hio, hn, bind_of_ok (blockAddress_run h hb),
    bind_of_ok (store_run (by rw [h.mapped_eq, List.length_take]; omega)), hput]

/-- The copy loop of `write_file_unchecked` stays inside the chain when the data fit. -/
theorem writeLoop_run (h : OnVolume g img) {b io o fuel : ℕ} {l : List ℕ} {d : List UInt8}
    (hc : ChainOn g img (b :: l)) (h8 : sizeofINode ≤ io) (hio : io + o ≤ g.blockSize)
    (hd : d ≠ []) (hlen : o + d.length ≤ (payload g img io (b :: l)).length)
    (hf : d.length < fuel ∨ d.length ≤ fuel ∧ io + o < g.blockSize) :
    writeLoop fuel ⟨b, some (b * g.blockSize), io, o⟩ d img =
      .ok () (writeImage g img io o (b :: l) d) := by
  induction l generalizing img b io o d fuel with
  | nil =>
    have hpos : 0 < d.length := List.length_pos_iff.mpr hd
    obtain ⟨fuel, rfl⟩ : ∃ k, fuel = k + 1 := ⟨fuel - 1, by omega⟩
    rw [payload_length, List.length_nil, Nat.zero_mul, Nat.add_zero] at hlen
    have hcopy : min (g.blockSize - io - o) d.length = d.length := by omega
    rw [writeLoop_round h (hc.range b (by simp)).2 hio hd hcopy, if_pos List.drop_length, pure_run,
      Fs.writeImage]
    simp only [hcopy, List.drop_length, if_true]
  | cons c l ih =>
    have hpos : 0 < d.length := List.length_pos_iff.mpr hd
    obtain ⟨fuel, rfl⟩ : ∃ k, fuel = k + 1 := ⟨fuel - 1, by omega⟩
    have hh := g.header_lt
    simp only [sizeofINodeMain] at hh
    have hb := hc.range b (by simp)
    obtain ⟨n, hn⟩ : ∃ n, min (g.blockSize - io - o) d.length = n := ⟨_, rfl⟩
    rw [writeLoop_round h hb.2 hio hd hn, Fs.writeImage]
    simp only [hn]
    by_cases hlast : d.drop n = []
    · rw [if_pos hlast, if_pos hlast, pure_run]
    · have hv := h.putBlock (w := .memcpy) (o := io + o) (d := d.take n) hb.1
      have hchain : ChainOn g (img.putBlock g .memcpy b (io + o) (d.take n)) (b :: c :: l) :=
        hc.putBlock (by omega) (by rw [List.length_take]; omega)
      obtain ⟨hnext, hinode⟩ := advance_run hv hchain
      have hlt : n < d.length := by
        by_contra hle
        exact hlast (List.drop_eq_nil_iff.mpr (by omega))
      have hlen' : 0 + (d.drop n).length ≤ (payload g
          (img.putBlock g .memcpy b (io + o) (d.take n)) sizeofINode (c :: l)).length := by
        rw [payload_length] at hlen ⊢
        rw [List.length_drop, List.length_cons, Nat.succ_mul] at *
        have := g.commonBlockSize_add
        simp only [sizeofINode] at *
        omega
      have hf' : (d.drop n).length ≤ fuel ∧ sizeofINode + 0 < g.blockSize :=
        ⟨by rw [List.length_drop]; omega, by simp only [sizeofINode]; omega⟩
      have hrest := ih hv hchain.tail le_rfl (by simp only [sizeofINode]; omega) hlast hlen'
        (Or.inr hf')
      rw [if_neg hlast, if_neg hlast, bind_of_ok hnext, bind_of_ok hinode, hrest]

end Loops

end KisLinux.Fs
