import KisLinux.FsVolume

/-!
# Block allocation

`freeBlocks` lists the unmarked blocks of a volume in increasing order. The
bit-level search of `get_next_free_block_index` returns its head, and every
allocation takes the head off. The last byte of the table may hold bits past
the last block; the search returns one of them only when no block is left, and
marking it then reports an error.
-/
namespace KisLinux.Fs
open ByteMemory StateRun LinkedChain

def freeBlocks (g : Geometry) (img : Image) : List ℕ :=
  (List.range g.blocksCount).filter fun b => !marked img b

@[simp] theorem mem_freeBlocks {g : Geometry} {img : Image} {b : ℕ} :
    b ∈ freeBlocks g img ↔ b < g.blocksCount ∧ marked img b = false := by
  simp [freeBlocks]

theorem freeBlocks_sorted (g : Geometry) (img : Image) :
    (freeBlocks g img).Pairwise (· < ·) := List.Pairwise.filter _ List.pairwise_lt_range

theorem freeBlocks_nodup (g : Geometry) (img : Image) : (freeBlocks g img).Nodup :=
  (freeBlocks_sorted g img).imp Nat.ne_of_lt

/-- Where the metadata blocks are marked, free blocks are data blocks. -/
theorem freeBlocks_ge_root {g : Geometry} {img : Image} {b : ℕ}
    (hmeta : ∀ x < g.root, marked img x = true) (hb : b ∈ freeBlocks g img) : g.root ≤ b := by
  by_contra hlt
  have hfree := (mem_freeBlocks.mp hb).2
  rw [hmeta b (by omega)] at hfree
  exact absurd hfree (by simp)

/-- When only the metadata blocks are marked, the first free block is the root. -/
theorem freeBlocks_eq_root_cons {g : Geometry} {img : Image}
    (hmarked : ∀ x < g.blocksCount, marked img x = true ↔ x < g.root) :
    ∃ rest, freeBlocks g img = g.root :: rest := by
  have hroot := g.root_lt
  have hmem : g.root ∈ freeBlocks g img :=
    mem_freeBlocks.mpr ⟨hroot, by simpa using (hmarked g.root hroot).not.mpr (Nat.lt_irrefl _)⟩
  cases hfree : freeBlocks g img with
  | nil =>
    rw [hfree] at hmem
    cases hmem
  | cons b rest =>
    have hge : g.root ≤ b := freeBlocks_ge_root (fun x hx => (hmarked x (hx.trans hroot)).mpr hx)
      (hfree ▸ List.mem_cons_self)
    rw [hfree] at hmem
    rcases List.mem_cons.mp hmem with rfl | hrest
    · exact ⟨rest, rfl⟩
    · have hlt := (List.pairwise_cons.mp (hfree ▸ freeBlocks_sorted g img)).1 g.root hrest
      omega

theorem freeBlocks_congr {g : Geometry} {img img' : Image}
    (h : ∀ b < g.blocksCount, marked img' b = marked img b) :
    freeBlocks g img' = freeBlocks g img :=
  List.filter_congr fun b hb => by rw [h b (List.mem_range.mp hb)]

/-- Marking the first free block takes it off the list. -/
theorem freeBlocks_mark {g : Geometry} {img : Image} {b : ℕ} {rest : List ℕ}
    (h : freeBlocks g img = b :: rest) : freeBlocks g (img.mark b true) = rest := by
  have hn : (b :: rest).Nodup := h ▸ freeBlocks_nodup g img
  have hfilter : freeBlocks g (img.mark b true) = (freeBlocks g img).filter (· ≠ b) := by
    rw [freeBlocks, freeBlocks, List.filter_filter]
    apply List.filter_congr
    intro x _
    rw [marked_mark]
    by_cases hx : x = b <;> simp [hx]
  have hb : b ∉ rest := (List.nodup_cons.mp hn).1
  rw [hfilter, h, List.filter_cons_of_neg (by simp), List.filter_eq_self]
  intro x hx
  have : x ≠ b := fun hxb => hb (hxb ▸ hx)
  simpa using this

/-- What is reported when no block is free: the search finds no bit, or one behind the
bit of the last block. -/
def FsError.NoRoom (e : FsError) : Prop := e = .noSpace ∨ e = .markBlock

theorem scanByte_full {cur : UInt8} {n k : ℕ}
    (h : ∀ j, k ≤ j → j < k + n → cur.toNat.testBit j = true) : scanByte cur n k = none := by
  induction n generalizing k with
  | zero => rfl
  | succ n ih =>
    rw [scanByte, if_pos (h k le_rfl (by omega))]
    exact ih fun j hj hj' => h j (by omega) (by omega)

theorem scanByte_first {cur : UInt8} {n k j : ℕ} (hk : k ≤ j) (hj : j < k + n)
    (hfree : cur.toNat.testBit j = false)
    (hmin : ∀ i, k ≤ i → i < j → cur.toNat.testBit i = true) : scanByte cur n k = some j := by
  induction n generalizing k with
  | zero => omega
  | succ n ih =>
    by_cases hkj : k = j
    · subst hkj
      rw [scanByte, if_neg (by simp [hfree])]
    · rw [scanByte, if_pos (hmin k le_rfl (by omega))]
      exact ih (by omega) (by omega) fun i hi hi' => hmin i (by omega) hi'

section Search

variable {g : Geometry} {img : Image} (h : OnVolume g img)
include h

theorem tableByte_run {i : ℕ} (hi : i < (g.blocksCount + 7) / 8) :
    loadByte (lookupTable + i) img = .ok (img.bytes (lookupTable + i)) img := by
  have h1 := g.metadata_le
  have h2 := g.block_range (o := 0) (n := 0) g.root_lt (Nat.zero_le _)
  apply loadByte_run
  rw [h.mapped_eq]
  simp only [lookupTable]
  omega

theorem scanTable_full {n i : ℕ} (hi : i + n ≤ (g.blocksCount + 7) / 8)
    (hall : ∀ x, 8 * i ≤ x → x < 8 * (i + n) → marked img x = true) :
    scanTable n i img = .error (.die .noSpace) img := by
  induction n generalizing i with
  | zero => rfl
  | succ n ih =>
    have hbyte : scanByte (img.bytes (lookupTable + i)) 8 0 = none := by
      apply scanByte_full
      intro j _ hj
      have hm := hall (8 * i + j) (by omega) (by omega)
      rwa [marked, show (8 * i + j) / 8 = i by omega, show (8 * i + j) % 8 = j by omega] at hm
    rw [scanTable, bind_of_ok (tableByte_run h (by omega)), hbyte]
    exact ih (by omega) fun x hx hx' => hall x (by omega) (by omega)

/-- The search returns the lowest unmarked bit of the table. -/
theorem scanTable_first {n i b : ℕ} (hi : i + n ≤ (g.blocksCount + 7) / 8) (hb : 8 * i ≤ b)
    (hb' : b < 8 * (i + n)) (hfree : marked img b = false)
    (hmin : ∀ x, 8 * i ≤ x → x < b → marked img x = true) :
    scanTable n i img = .ok b img := by
  induction n generalizing i with
  | zero => omega
  | succ n ih =>
    rw [scanTable, bind_of_ok (tableByte_run h (by omega))]
    by_cases hbi : b / 8 = i
    · have hbyte : scanByte (img.bytes (lookupTable + i)) 8 0 = some (b % 8) := by
        apply scanByte_first (Nat.zero_le _) (by omega)
        · rw [← hbi]
          exact hfree
        · intro j _ hj
          have hm := hmin (8 * i + j) (by omega) (by omega)
          rwa [marked, show (8 * i + j) / 8 = i by omega, show (8 * i + j) % 8 = j by omega] at hm
      rw [hbyte]
      simp only [pure_run]
      rw [show i * 8 + b % 8 = b by omega]
    · have hbyte : scanByte (img.bytes (lookupTable + i)) 8 0 = none := by
        apply scanByte_full
        intro j _ hj
        have hm := hmin (8 * i + j) (by omega) (by omega)
        rwa [marked, show (8 * i + j) / 8 = i by omega, show (8 * i + j) % 8 = j by omega] at hm
      rw [hbyte]
      exact ih (by omega) (by omega) (by omega) fun x hx hx' => hmin x (by omega) hx'

theorem getNextFreeBlockIndex_eq :
    getNextFreeBlockIndex img = scanTable ((g.blocksCount + 7) / 8) 0 img := by
  have hlt : g.blocksCount + 7 < wordSize := by
    have h1 := g.metadata_le
    have h2 := g.block_range (o := 0) (n := 0) g.root_lt (Nat.zero_le _)
    have h3 := g.mapped_lt
    have h4 : g.blocksCount * 2 ≤ g.blocksCount * g.blockSize :=
      Nat.mul_le_mul_left _ (by have := g.header_lt; simp only [sizeofINodeMain] at this; omega)
    simp only [sizeofSuperblock, wordSize] at *
    omega
  rw [getNextFreeBlockIndex, bind_of_ok (blocksCount_run h), wadd, Nat.mod_eq_of_lt hlt]

theorem getNextFreeBlockIndex_run {b : ℕ} {rest : List ℕ} (hf : freeBlocks g img = b :: rest) :
    getNextFreeBlockIndex img = .ok b img := by
  have hmem : b ∈ freeBlocks g img := by simp [hf]
  obtain ⟨hb, hfree⟩ := mem_freeBlocks.mp hmem
  rw [getNextFreeBlockIndex_eq h]
  refine scanTable_first h (by omega) (by omega) (by omega) hfree fun x _ hx => ?_
  by_contra hm
  have hxm : x ∈ b :: rest := hf ▸ mem_freeBlocks.mpr ⟨by omega, by simpa using hm⟩
  have hs := hf ▸ freeBlocks_sorted g img
  rcases List.mem_cons.mp hxm with rfl | hxr
  · omega
  · have := (List.pairwise_cons.mp hs).1 x hxr
    omega

/-- Without a free block the search either reports it or returns a bit past the
last block. -/
theorem getNextFreeBlockIndex_full (hf : freeBlocks g img = []) :
    getNextFreeBlockIndex img = .error (.die .noSpace) img ∨
      ∃ b, g.blocksCount ≤ b ∧ getNextFreeBlockIndex img = .ok b img := by
  rw [getNextFreeBlockIndex_eq h]
  have hall : ∀ x < g.blocksCount, marked img x = true := by
    intro x hx
    by_contra hm
    have : x ∈ freeBlocks g img := mem_freeBlocks.mpr ⟨hx, by simpa using hm⟩
    simp [hf] at this
  by_cases hex : ∃ b, b < 8 * ((g.blocksCount + 7) / 8) ∧ marked img b = false
  · right
    have hfind := Nat.find_spec hex
    have hmin : ∀ x, x < Nat.find hex → marked img x = true := by
      intro x hx
      have hnot := Nat.find_min hex hx
      by_contra hm
      exact hnot ⟨by omega, by simpa using hm⟩
    refine ⟨Nat.find hex, ?_, scanTable_first h (by omega) (Nat.zero_le _) (by omega) hfind.2
      fun x _ hx => hmin x hx⟩
    by_contra hlt
    rw [hall _ (by omega)] at hfind
    exact absurd hfind.2 (by simp)
  · left
    refine scanTable_full h (by omega) fun x _ hx => ?_
    by_contra hm
    exact hex ⟨x, by omega, by simpa using hm⟩

/-- Allocating from a full volume is reported as what it is, and changes nothing. -/
theorem allocate_noRoom {α : Type} (hf : freeBlocks g img = []) (k : ℕ → FsM α) :
    ∃ e, e.NoRoom ∧ (do
      let b ← getNextFreeBlockIndex
      markBlockInLookupTable b true
      k b : FsM α) img = .error (.die e) img := by
  rcases getNextFreeBlockIndex_full h hf with hr | ⟨b, hb, hr⟩
  · exact ⟨.noSpace, .inl rfl, bind_of_error hr⟩
  · exact ⟨.markBlock, .inr rfl, by rw [bind_of_ok hr, bind_of_error (mark_past h _ hb)]⟩

end Search

/-- The image after one round of the extension loop: `x` is marked and linked
behind `b`. -/
def linkImage (g : Geometry) (img : Image) (b x : ℕ) : Image :=
  (img.mark x true).putBlock g .field b continuationInode (leBytes 8 x)

/-- The image after linking the blocks `l` behind `b`. -/
def extendImage (g : Geometry) (img : Image) (b : ℕ) : List ℕ → Image
  | [] => img
  | x :: l => extendImage g (linkImage g img b x) x l

section Extend

variable {g : Geometry} {img : Image} {b : ℕ} {l : List ℕ}

theorem OnVolume.extendImage (h : OnVolume g img) (hb : g.root ≤ b) (hl : ∀ x ∈ l, g.root ≤ x) :
    OnVolume g (extendImage g img b l) := by
  induction l generalizing img b with
  | nil => exact h
  | cons x l ih =>
    exact ih (h.mark.putBlock hb) (hl x (by simp)) fun y hy => hl y (List.mem_cons_of_mem _ hy)

theorem marked_extendImage {x : ℕ} (hb : g.root ≤ b) (hl : ∀ x ∈ l, g.root ≤ x)
    (hx : x / 8 < (g.blocksCount + 7) / 8) :
    marked (extendImage g img b l) x = (marked img x || decide (x ∈ l)) := by
  induction l generalizing img b with
  | nil => simp [Fs.extendImage]
  | cons y l ih =>
    rw [Fs.extendImage, ih (hl y (by simp)) fun z hz => hl z (List.mem_cons_of_mem _ hz),
      linkImage, marked_putBlock_of_table hb hx, marked_mark]
    by_cases hxy : x = y <;> simp [hxy]

/-- Outside the table only the links of `b` and of the new blocks but the last are written. -/
theorem bytes_extendImage {a : ℕ} (hl : ∀ x ∈ l, x < g.blocksCount)
    (ha : a < lookupTable ∨ lookupTable + (g.blocksCount + 7) / 8 ≤ a)
    (hlinks : ∀ x ∈ (b :: l).dropLast,
      a < x * g.blockSize ∨ x * g.blockSize + sizeofINode ≤ a) :
    (extendImage g img b l).bytes a = img.bytes a := by
  induction l generalizing img b with
  | nil => rfl
  | cons y l ih =>
    have hy := hl y (by simp)
    have hb := hlinks b (by simp)
    rw [Fs.extendImage, ih (fun z hz => hl z (List.mem_cons_of_mem _ hz)) fun x hx =>
      hlinks x (by rw [List.dropLast_cons_cons]; exact List.mem_cons_of_mem _ hx), linkImage,
      bytes_putBlock (by simpa [continuationInode, sizeofINode] using hb), bytes_mark (by omega)]

/-- Only the links of `b` and of the new blocks but the last are written. -/
theorem blockSlice_extendImage {x o n : ℕ} (hl : ∀ x ∈ l, x < g.blocksCount) (hx : g.root ≤ x)
    (ho : o + n ≤ g.blockSize) (hfree : sizeofINode ≤ o ∨ x ∉ (b :: l).dropLast) :
    blockSlice g (extendImage g img b l) x o n = blockSlice g img x o n := by
  induction l generalizing img b with
  | nil => rfl
  | cons y l ih =>
    have hh := g.header_lt
    simp only [sizeofINodeMain] at hh
    rw [Fs.extendImage, linkImage, ih (fun z hz => hl z (List.mem_cons_of_mem _ hz))]
    · have hmark : blockSlice g (img.mark y true) x o n = blockSlice g img x o n :=
        blockSlice_mark (hl y (by simp)) hx
      by_cases hxb : x = b
      · subst hxb
        have ho8 : sizeofINode ≤ o := by
          rcases hfree with ho8 | hmem
          · exact ho8
          · exact absurd (by simp) hmem
        rw [blockSlice_putBlock_of_disjoint (Or.inr (by
          simp only [leBytes_length, continuationInode]; exact ho8)), hmark]
      · rw [blockSlice_putBlock_of_ne hxb (by simp only [leBytes_length, continuationInode]; omega)
          ho, hmark]
    · rcases hfree with ho8 | hmem
      · exact Or.inl ho8
      · refine Or.inr fun hmem' => hmem ?_
        rw [List.dropLast_cons_cons]
        exact List.mem_cons_of_mem _ hmem'

theorem fieldOf_putBlock_self {w : Writer} {v : ℕ} (hv : v < wordSize) (o : ℕ) :
    fieldOf g (img.putBlock g w b o (leBytes 8 v)) b o = v := by
  have hself : blockSlice g (img.putBlock g w b o (leBytes 8 v)) b o (leBytes 8 v).length =
      leBytes 8 v := blockSlice_putBlock_self
  rw [leBytes_length] at hself
  rw [fieldOf, hself, leNat_leBytes hv]

/-- The old last block and the new ones are linked one behind the other. -/
theorem linked_extendImage (hn : (b :: l).Nodup) (hb : g.root ≤ b)
    (hl : ∀ x ∈ l, g.root ≤ x ∧ x < g.blocksCount) :
    Linked (linkOf g (extendImage g img b l)) (b :: l) := by
  induction l generalizing img b with
  | nil => exact List.IsChain.singleton _
  | cons x l ih =>
    have hn' := List.nodup_cons.mp hn
    have hx := hl x (by simp)
    have hl' : ∀ y ∈ l, g.root ≤ y ∧ y < g.blocksCount := fun y hy =>
      hl y (List.mem_cons_of_mem _ hy)
    refine List.isChain_cons_cons.mpr ⟨?_, ih hn'.2 hx.1 hl'⟩
    have hh := g.header_lt
    have hlt := g.blocksCount_lt
    simp only [sizeofINodeMain] at hh
    have hb' : b ∉ (x :: l).dropLast := fun hm => hn'.1 ((List.dropLast_sublist _).subset hm)
    rw [Fs.extendImage, linkOf, fieldOf, blockSlice_extendImage (fun y hy => (hl' y hy).2) hb
      (by simp only [continuationInode]; omega) (Or.inr hb')]
    exact fieldOf_putBlock_self (by omega) _

/-- One round: the lowest free block is marked and linked behind `b`. -/
theorem extendLoop_step {n x : ℕ} {rest : List ℕ} (h : OnVolume g img) (hb : g.root ≤ b)
    (hb' : b < g.blocksCount) (hmeta : ∀ y < g.root, marked img y = true)
    (hf : freeBlocks g img = x :: rest) :
    extendLoop (n + 1) b img = extendLoop n x (linkImage g img b x) ∧
      OnVolume g (linkImage g img b x) ∧ g.root ≤ x ∧ x < g.blocksCount ∧
      (∀ y < g.root, marked (linkImage g img b x) y = true) ∧
      freeBlocks g (linkImage g img b x) = rest := by
  have hmem : x ∈ freeBlocks g img := by simp [hf]
  have hx := mem_freeBlocks.mp hmem
  have hxr := freeBlocks_ge_root hmeta hmem
  have hh := g.header_lt
  have hroot := g.root_pos
  simp only [sizeofINodeMain] at hh
  have hv := h.mark (b := x) (v := true)
  refine ⟨?_, hv.putBlock hb, hxr, hx.1, ?_, ?_⟩
  · rw [extendLoop, bind_of_ok (getNextFreeBlockIndex_run h hf), bind_of_ok (mark_run h _ hx.1),
      bind_of_ok (getInode_run hv (by omega) hb'),
      bind_of_ok (setField_run hv _ hb' (by simp only [continuationInode]; omega))]
    rfl
  · intro y hy
    rw [linkImage, marked_putBlock hb (by have := g.root_lt; omega), marked_mark,
      if_neg (by omega)]
    exact hmeta y hy
  · rw [linkImage, freeBlocks_congr fun y hy => marked_putBlock hb hy, freeBlocks_mark hf]

/-- The extension loop takes the lowest free blocks, in order. -/
theorem extendLoop_run {n : ℕ} (h : OnVolume g img) (hb : g.root ≤ b) (hb' : b < g.blocksCount)
    (hmeta : ∀ x < g.root, marked img x = true) (hn : n ≤ (freeBlocks g img).length) :
    extendLoop n b img =
      .ok ((b :: (freeBlocks g img).take n).getLast (by simp))
        (extendImage g img b ((freeBlocks g img).take n)) := by
  induction n generalizing img b with
  | zero => rfl
  | succ n ih =>
    obtain ⟨x, rest, hf⟩ := List.exists_cons_of_length_pos (Nat.lt_of_lt_of_le n.succ_pos hn)
    obtain ⟨hstep, hv, hxr, hx, hmeta', hfree⟩ := extendLoop_step (n := n) h hb hb' hmeta hf
    rw [hstep, ih hv hxr hx hmeta' (by rw [hfree]; simpa [hf] using hn)]
    simp only [hfree, hf, List.take_succ_cons, Fs.extendImage]
    rfl

/-- With too few free blocks the loop takes all of them, and reports that there are no more. -/
theorem extendLoop_noRoom {n : ℕ} (h : OnVolume g img) (hb : g.root ≤ b) (hb' : b < g.blocksCount)
    (hmeta : ∀ x < g.root, marked img x = true) (hn : (freeBlocks g img).length < n) :
    ∃ e, e.NoRoom ∧
      extendLoop n b img = .error (.die e) (extendImage g img b (freeBlocks g img)) := by
  induction n generalizing img b with
  | zero => omega
  | succ n ih =>
    cases hf : freeBlocks g img with
    | nil =>
      obtain ⟨e, hroom, he⟩ := allocate_noRoom h hf fun nextBlock => (do
        let currentInode ← getInode b
        setField currentInode continuationInode nextBlock
        extendLoop n nextBlock : FsM ℕ)
      exact ⟨e, hroom, he⟩
    | cons x rest =>
      obtain ⟨hstep, hv, hxr, hx, hmeta', hfree⟩ := extendLoop_step (n := n) h hb hb' hmeta hf
      obtain ⟨e, hroom, he⟩ := ih hv hxr hx hmeta' (by rw [hfree]; simp [hf] at hn; omega)
      rw [hfree] at he
      exact ⟨e, hroom, hstep.trans he⟩

end Extend

end KisLinux.Fs
