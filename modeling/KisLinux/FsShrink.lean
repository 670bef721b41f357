import KisLinux.FsPurge

/-!
# Shrinking a node

`truncate_file` walks to the last block that the new size needs, frees what is
behind it and makes it `last_inode`. The link of that block is left as it is, so
the kept part of the chain still leads into the freed part.
-/
namespace KisLinux.Fs
open ByteMemory StateRun LinkedChain

/-- The node `n` after it gave up all but the first `k` blocks of its chain. -/
structure Shrunk (g : Geometry) (img img' : Image) (n newSize k : ℕ) : Prop where
  onVolume : OnVolume g img'
  marks : ∀ b < g.blocksCount,
    marked img' b = true ↔ marked img b = true ∧ b ∉ (blocksOf g img n).drop k
  slices : ∀ b o m, g.root ≤ b → o + m ≤ g.blockSize →
    (b ≠ n ∨ o + m ≤ sizeField ∨ sizeField + 8 ≤ o ∧ o + m ≤ lastInodeField ∨
      lastInodeField + 8 ≤ o) → blockSlice g img' b o m = blockSlice g img b o m
  size : sizeOfNode g img' n = newSize
  last : ((blocksOf g img n).take k).getLast? = some (lastOf g img' n)

section Shrink

variable {g : Geometry} {img : Image} {live : Finset ℕ} {n newSize k fuel : ℕ}

/-- The walk to the cut point. -/
theorem shrinkLoop_run (h : OnVolume g img) {b j : ℕ} {l : List ℕ} (hc : ChainOn g img (b :: l))
    (hj : j ≤ l.length) :
    ∃ pre c rest, b :: l = pre ++ c :: rest ∧ pre.length = j ∧
      shrinkLoop j b (some (b * g.blockSize)) img = .ok (c, some (c * g.blockSize)) img := by
  induction j generalizing b l with
  | zero => exact ⟨[], b, l, rfl, rfl, rfl⟩
  | succ j ih =>
    obtain ⟨c, l, rfl⟩ := List.exists_cons_of_length_pos (Nat.lt_of_lt_of_le j.succ_pos hj)
    obtain ⟨hnext, hinode⟩ := advance_run h hc
    obtain ⟨pre, d, rest, hl, hlen, hrun⟩ := ih hc.tail (Nat.le_of_succ_le_succ hj)
    refine ⟨b :: pre, d, rest, by rw [hl, List.cons_append], by simp [hlen], ?_⟩
    rw [shrinkLoop, bind_of_ok hnext, bind_of_ok hinode, hrun]

/-- The node keeps its chain: only the size is written. -/
theorem shrunk_resized (h : Owned g img live) (hn : n ∈ live) (hs : newSize < wordSize)
    (hk : k = g.blocksRequired (sizeOfNode g img n)) :
    Shrunk g img (img.putBlock g .field n sizeField (leBytes 8 newSize)) n newSize k := by
  have hh := g.header_lt
  simp only [sizeofINodeMain] at hh
  have hr := h.mem_range hn
  have hlen := blocksOf_length g img n
  refine ⟨h.onVolume.putBlock hr.1, fun b hb => ?_, fun b o m _ hom hcase => ?_,
    fieldOf_putBlock_self hs _, ?_⟩
  · rw [marked_putBlock hr.1 hb, List.drop_of_length_le (by omega)]
    simp
  · refine blockSlice_putField (by simp only [sizeField]; omega) hom ?_
    simp only [sizeField, lastInodeField] at *
    omega
  · rw [List.take_of_length_le (by omega), h.last n hn, lastOf, lastOf,
      fieldOf_putField (by simp only [sizeField]; omega)
        (by simp only [lastInodeField]; omega)
        (Or.inr (Or.inr (by simp only [sizeField, lastInodeField]; omega)))]

/-- The cut: what is behind the block `c` is freed, and `c` becomes `last_inode`. -/
theorem shrunk_cut {pre rest : List ℕ} {c : ℕ} (h : Owned g img live) (hn : n ∈ live)
    (hs : newSize < wordSize) (hsplit : blocksOf g img n = pre ++ c :: rest) (hk : pre.length + 1 = k) :
    Shrunk g img ((unmarkAll (img.putBlock g .field n sizeField (leBytes 8 newSize)) rest).putBlock g
      .field n lastInodeField (leBytes 8 c)) n newSize k := by
  have hh := g.header_lt
  simp only [sizeofINodeMain] at hh
  have hr := h.mem_range hn
  have hrange := (h.chains n hn).range
  rw [hsplit] at hrange
  have hv := h.onVolume.putBlock (w := .field) (o := sizeField) (d := leBytes 8 newSize) hr.1
  have hbelow : ∀ b ∈ rest, b < g.blocksCount := fun b hb => (hrange b (by simp [hb])).2
  have hfreed := Freed.unmarkAll hv hbelow
  have hlt := g.blocksCount_lt
  have hdrop : (pre ++ c :: rest).drop k = rest := by
    rw [← hk, ← List.drop_drop, List.drop_left]
    rfl
  have htake : (pre ++ c :: rest).take k = pre ++ [c] := by
    rw [← hk, List.take_length_add_append]
    rfl
  refine ⟨hfreed.onVolume.putBlock hr.1, fun b hb => ?_, fun b o m hb hom hcase => ?_, ?_, ?_⟩
  · rw [marked_putBlock hr.1 hb, hfreed.marks b hb, marked_putBlock hr.1 hb, hsplit, hdrop]
  · rw [blockSlice_putField (by simp only [lastInodeField]; omega) hom
        (by simp only [sizeField, lastInodeField] at *; omega), hfreed.agree b hb o m hom,
      blockSlice_putField (by simp only [sizeField]; omega) hom
        (by simp only [sizeField, lastInodeField] at *; omega)]
  · rw [sizeOfNode, fieldOf_putField (by simp only [lastInodeField]; omega)
      (by simp only [sizeField]; omega)
      (Or.inr (Or.inl (by simp only [sizeField, lastInodeField]; omega)))]
    exact ((hfreed.agree n hr.1).size_eq).trans (fieldOf_putBlock_self hs _)
  · have hc := (hrange c (by simp)).2
    rw [hsplit, htake, List.getLast?_concat]
    exact congrArg some (fieldOf_putBlock_self (by omega) _).symm

/-- `truncate_file` to a size that needs at most the blocks the node has. -/
theorem truncateFile_shrink_run (h : Owned g img live) (hn : n ∈ live) (hend : Ended g img n)
    (hnew : getBlocksRequired newSize img = .ok k img) (hpos : 0 < k)
    (hle : k ≤ g.blocksRequired (sizeOfNode g img n)) (hs : newSize < wordSize)
    (hf : g.blocksCount ≤ fuel) :
    ∃ img', truncateFile fuel n newSize img = .ok () img' ∧ Shrunk g img img' n newSize k := by
  have hh := g.header_lt
  simp only [sizeofINodeMain] at hh
  have hr := h.mem_range hn
  have hlen := blocksOf_length_lt h hn
  have hcount := blocksOf_length g img n
  have hv := h.onVolume.putBlock (w := .field) (o := sizeField) (d := leBytes 8 newSize) hr.1
  rcases Nat.lt_or_eq_of_le hle with hlt | heq
  · obtain ⟨tail, htail⟩ := blocksOf_cons g img n
    have hc := h.chains n hn
    have hlink : ∀ (b : ℕ), linkOf g (img.putBlock g .field n sizeField (leBytes 8 newSize)) b =
        linkOf g img b := fun b => fieldOf_putField
      (by simp only [sizeField]; omega) (by simp only [continuationInode]; omega)
      (Or.inr (Or.inl (by simp only [continuationInode, sizeField]; omega)))
    have hchain : ChainOn g (img.putBlock g .field n sizeField (leBytes 8 newSize)) (n :: tail) := by
      rw [htail] at hc
      exact ⟨linked_congr hc.linked fun x _ => hlink x, hc.range, hc.nodup⟩
    have hcount' : tail.length + 1 = g.blocksRequired (sizeOfNode g img n) := by
      rw [← hcount, htail, List.length_cons]
    obtain ⟨pre, c, rest, hsplit, hpre, hwalk⟩ := shrinkLoop_run hv hchain
      (show k - 1 ≤ tail.length by omega)
    have hrest := congrArg List.length hsplit
    rw [List.length_append, List.length_cons, List.length_cons, hcount'] at hrest
    obtain ⟨d, rest, rfl⟩ := List.exists_cons_of_length_pos (show 0 < rest.length by omega)
    rw [hsplit] at hchain
    obtain ⟨hnext, -⟩ := advance_run hv hchain.suffix
    have hlast := h.last n hn
    rw [htail, hsplit, List.getLast?_append_of_ne_nil _ (by simp), List.getLast?_cons_cons] at hlast
    have hshort : rest.length < fuel := by
      simp only [List.length_cons] at hrest
      omega
    have hpurge := purgeBlocks_run hv hchain.suffix.tail (fun x hx => by
      rw [hlast, Option.mem_some] at hx
      rw [← hx, hlink]
      exact hend) hshort
    refine ⟨_, ?_, shrunk_cut h hn hs (htail.trans hsplit) (by omega)⟩
    have hfreed := Freed.unmarkAll hv fun b hb => (hchain.suffix.tail.range b hb).2
    rw [truncateFile, bind_of_ok (h.inode_run hn), bind_of_ok (h.size_run hn),
      bind_of_ok (oldBlocks_run h hn), bind_of_ok hnew,
      bind_of_ok (setField_run h.onVolume _ hr.2 (by simp only [sizeField]; omega)),
      if_neg (by omega), if_pos hlt, bind_of_ok hwalk]
    simp only
    rw [bind_of_ok hnext, bind_of_ok hpurge,
      setField_run hfreed.onVolume _ hr.2 (by simp only [lastInodeField]; omega)]
  · refine ⟨_, ?_, shrunk_resized h hn hs heq⟩
    rw [truncateFile, bind_of_ok (h.inode_run hn), bind_of_ok (h.size_run hn),
      bind_of_ok (oldBlocks_run h hn), bind_of_ok hnew,
      bind_of_ok (setField_run h.onVolume _ hr.2 (by simp only [sizeField]; omega)),
      if_neg (by omega), if_neg (by omega), pure_run]

end Shrink

namespace Shrunk

variable {g : Geometry} {img img' : Image} {live : Finset ℕ} {n newSize k : ℕ}

/-- No link of a data block is written. -/
theorem link_eq (hs : Shrunk g img img' n newSize k) {b : ℕ} (hb : g.root ≤ b) :
    linkOf g img' b = linkOf g img b := by
  have hh := g.header_lt
  simp only [sizeofINodeMain] at hh
  rw [linkOf, fieldOf, hs.slices b _ _ hb (by simp only [continuationInode]; omega)
    (Or.inr (Or.inl (by simp only [continuationInode, sizeField]; omega)))]
  rfl

theorem blocksOf_eq (hs : Shrunk g img img' n newSize k) (h : Owned g img live) (hn : n ∈ live)
    (hk : g.blocksRequired newSize = k) (hle : k ≤ g.blocksRequired (sizeOfNode g img n)) :
    blocksOf g img' n = (blocksOf g img n).take k := by
  have htake := chain_take (linkOf g img) n (g.blocksRequired (sizeOfNode g img n)) k
  rw [Nat.min_eq_left hle] at htake
  rw [blocksOf, hs.size, hk, blocksOf, htake]
  refine chain_congr fun x hx => hs.link_eq ?_
  rw [← htake] at hx
  exact ((h.chains n hn).range x (List.mem_of_mem_take ((List.dropLast_sublist _).subset hx))).1

theorem nodeStep (hs : Shrunk g img img' n newSize k) (h : Owned g img live) (hn : n ∈ live)
    (hk : g.blocksRequired newSize = k) (hle : k ≤ g.blocksRequired (sizeOfNode g img n)) :
    NodeStep g img img' n := by
  have hh := g.header_lt
  simp only [sizeofINodeMain] at hh
  have hr := h.mem_range hn
  have hblocks := hs.blocksOf_eq h hn hk hle
  have hnd := (h.chains n hn).nodup
  have hsub : ∀ b ∈ (blocksOf g img n).take k, b ∈ blocksOf g img n := fun b => List.mem_of_mem_take
  have hself := self_mem_blocksOf g img' n
  rw [hblocks] at hself
  refine ⟨hs.onVolume, ?_, ?_, ?_, ?_, ?_, ?_, ?_⟩
  · rw [flagsOf_eq, hs.slices n _ _ hr.1 (by simp only [flagsField]; omega)
      (Or.inr (Or.inr (Or.inl (by simp only [flagsField, sizeField, lastInodeField]; omega)))),
      flagsOf_eq]
  · rw [hblocks]
    exact fun b hb => (h.chains n hn).range b (hsub b hb)
  · rw [hblocks]
    exact hnd.sublist (List.take_sublist _ _)
  · rw [hblocks, hs.last]
  · rw [hblocks]
    exact fun b hb hold => absurd (hsub b hb) hold
  · intro b hb
    have hused := h.used n hn b
    rw [hs.marks b hb, hblocks]
    rw [← List.take_append_drop k (blocksOf g img n)] at hnd hused
    rw [show b ∈ blocksOf g img n ↔ b ∈ (blocksOf g img n).take k ∨ b ∈ (blocksOf g img n).drop k by
      rw [← List.mem_append, List.take_append_drop]]
    rw [List.mem_append] at hused
    by_cases hfront : b ∈ (blocksOf g img n).take k
    · have hback : b ∉ (blocksOf g img n).drop k := fun hm =>
        (List.nodup_append.mp hnd).2.2 b hfront b hm rfl
      simp [hfront, hback, hused (Or.inl hfront)]
    · simp [hfront]
  · rw [hblocks]
    intro b hb hnot o m hom
    have hne : b ≠ n := by
      rintro rfl
      exact hnot hself
    exact hs.slices b o m hb hom (Or.inl hne)

/-- The data areas are not written. -/
theorem payload_eq (hs : Shrunk g img img' n newSize k) {l : List ℕ} (hl : ∀ b ∈ n :: l, g.root ≤ b)
    (hn : n ∉ l) : payload g img' sizeofINodeMain (n :: l) = payload g img sizeofINodeMain (n :: l) := by
  have hh := g.header_lt
  have hhead := hs.slices n sizeofINodeMain (g.blockSize - sizeofINodeMain) (hl n (by simp))
    (Nat.add_sub_cancel' hh.le).le
    (Or.inr (Or.inr (Or.inr (by simp only [lastInodeField, sizeofINodeMain]; omega))))
  rw [payload, payload, hhead, payload_congr le_rfl
    (by simp only [sizeofINode, sizeofINodeMain] at *; omega) fun b hb o m _ hom => ?_]
  exact hs.slices b o m (hl b (List.mem_cons_of_mem _ hb)) hom (Or.inl fun hbn => hn (hbn ▸ hb))

/-- What is left of the bytes is their front part. -/
theorem content_eq (hs : Shrunk g img img' n newSize k) (h : Owned g img live) (hn : n ∈ live)
    (hk : g.blocksRequired newSize = k) (hle : newSize ≤ sizeOfNode g img n) :
    content g img' n = (content g img n).take newSize := by
  have hmono := g.blocksRequired_mono hle
  have hstep := hs.nodeStep h hn hk (hk ▸ hmono)
  have hblocks := hs.blocksOf_eq h hn hk (hk ▸ hmono)
  have hsize := size_le_payload g img' n
  obtain ⟨rest, hrest⟩ := blocksOf_cons g img' n
  have hrange := hstep.range
  have hnd := hstep.nodup
  rw [hrest] at hrange hnd
  have hpay := hs.payload_eq (fun b hb => (hrange b hb).1) (List.nodup_cons.mp hnd).1
  rw [← hrest] at hpay
  rw [hs.size, hpay, hblocks] at hsize
  have hsplit := payload_append g img sizeofINodeMain ((blocksOf g img n).take k)
    ((blocksOf g img n).drop k)
  rw [List.take_append_drop] at hsplit
  rw [content, hs.size, hpay, hblocks, content, List.take_take, Nat.min_eq_left hle, hsplit,
    List.take_append_of_le_length hsize]

end Shrunk

/-- The node after its size was set to zero. -/
structure Emptied (g : Geometry) (img img' : Image) (n : ℕ) : Prop where
  step : NodeStep g img img' n
  blocks : blocksOf g img' n = [n]
  content : content g img' n = []
  links : ∀ b, g.root ≤ b → linkOf g img' b = linkOf g img b

section Empty

variable {g : Geometry} {img : Image} {live : Finset ℕ} {n : ℕ}

/-- `truncate_file` to zero keeps the head and frees the rest of the chain. -/
theorem truncateFile_zero_run (h : Owned g img live) (hn : n ∈ live) (hend : Ended g img n)
    {fuel : ℕ} (hf : g.blocksCount ≤ fuel) :
    ∃ img', truncateFile fuel n 0 img = .ok () img' ∧ Emptied g img img' n := by
  have hnew := getBlocksRequired_run h.onVolume (show 0 + 21 ≤ wordSize by simp [wordSize])
  rw [g.blocksRequired_zero] at hnew
  have hle := Nat.succ_le_of_lt (g.blocksRequired_pos (sizeOfNode g img n))
  obtain ⟨img', hrun, hs⟩ := truncateFile_shrink_run h hn hend hnew Nat.one_pos hle
    (by simp [wordSize]) hf
  have hblocks := hs.blocksOf_eq h hn g.blocksRequired_zero hle
  obtain ⟨tail, htail⟩ := blocksOf_cons g img n
  refine ⟨img', hrun, hs.nodeStep h hn g.blocksRequired_zero hle, ?_, ?_, fun b => hs.link_eq⟩
  · rw [hblocks, htail]
    rfl
  · rw [hs.content_eq h hn g.blocksRequired_zero (Nat.zero_le _), List.take_zero]

end Empty

end KisLinux.Fs
