import KisLinux.FsOwnership

/-!
# Extending a chain

`truncate_file` extends a node by linking free blocks behind the block that
`last_inode` names. For that the blocks of the node and the metadata blocks have
to be marked, and `last_inode` has to be right; every other bit of the table, and
every byte of a free block, may be anything.
-/
namespace KisLinux.Fs
open ByteMemory StateRun LinkedChain

/-- The image after `truncate_file` grew the node `n` by `k` blocks. -/
def growImage (g : Geometry) (img : Image) (n newSize k : ℕ) : Image :=
  let resized := img.putBlock g .field n sizeField (leBytes 8 newSize)
  if k = 0 then resized
  else
    let new := (freeBlocks g img).take k
    (extendImage g resized (lastOf g img n) new).putBlock g .field n lastInodeField
      (leBytes 8 ((lastOf g img n :: new).getLast (by simp)))

/-- The metadata blocks and the `old` blocks of the node's chain are marked, and
`last_inode` is the last of these. -/
structure Extendable (g : Geometry) (img : Image) (n old : ℕ) : Prop where
  onVolume : OnVolume g img
  metadata : ∀ b < g.root, marked img b = true
  own : ∀ b ∈ chain (linkOf g img) n old, g.root ≤ b ∧ b < g.blocksCount ∧ marked img b = true
  last : (chain (linkOf g img) n old).getLast? = some (lastOf g img n)

theorem Owned.extendable {g : Geometry} {img : Image} {live : Finset ℕ} {n : ℕ}
    (h : Owned g img live) (hn : n ∈ live) :
    Extendable g img n (g.blocksRequired (sizeOfNode g img n)) where
  onVolume := h.onVolume
  metadata := h.metadata
  own := fun b hb => ⟨((h.chains n hn).range b hb).1, ((h.chains n hn).range b hb).2,
    h.used n hn b hb⟩
  last := h.last n hn

namespace Extendable

variable {g : Geometry} {img : Image} {n old newSize k : ℕ} (h : Extendable g img n old)
include h

theorem old_pos : 0 < old := by
  rcases Nat.eq_zero_or_pos old with rfl | hpos
  · have hlast := h.last
    cases hlast
  · exact hpos

theorem head_range : g.root ≤ n ∧ n < g.blocksCount := by
  have hmem := h.own n (List.mem_of_mem_head? (head?_chain (linkOf g img) n h.old_pos))
  exact ⟨hmem.1, hmem.2.1⟩

theorem last_range :
    g.root ≤ lastOf g img n ∧ lastOf g img n < g.blocksCount ∧ marked img (lastOf g img n) = true :=
  h.own _ (List.mem_of_getLast? h.last)

/-- The blocks that are taken are data blocks outside every chain. -/
theorem taken {b : ℕ} (hb : b ∈ (freeBlocks g img).take k) :
    g.root ≤ b ∧ b < g.blocksCount ∧ marked img b = false := by
  have hmem := List.mem_of_mem_take hb
  have hfree := mem_freeBlocks.mp hmem
  exact ⟨freeBlocks_ge_root h.metadata hmem, hfree.1, hfree.2⟩

theorem links_nodup : (lastOf g img n :: (freeBlocks g img).take k).Nodup := by
  refine List.nodup_cons.mpr ⟨fun hmem => ?_, (freeBlocks_nodup g img).sublist (List.take_sublist _ _)⟩
  have hfree := (h.taken hmem).2.2
  rw [h.last_range.2.2] at hfree
  exact absurd hfree (by simp)

theorem onVolume_growImage : OnVolume g (growImage g img n newSize k) := by
  have hn := h.head_range.1
  have hput := h.onVolume.putBlock (w := .field) (o := sizeField) (d := leBytes 8 newSize) hn
  rw [growImage]
  split
  · exact hput
  · exact (hput.extendImage h.last_range.1 fun x hx => (h.taken hx).1).putBlock hn

/-- Growing sets the bits of the new blocks, and no other bit of the table changes. -/
theorem marked_growImage {b : ℕ} (hb : b / 8 < (g.blocksCount + 7) / 8) :
    marked (growImage g img n newSize k) b =
      (marked img b || decide (b ∈ (freeBlocks g img).take k)) := by
  have hn := h.head_range.1
  rw [growImage]
  split
  · next hk => simp [hk, marked_putBlock_of_table hn hb]
  · rw [marked_putBlock_of_table hn hb,
      marked_extendImage h.last_range.1 (fun x hx => (h.taken hx).1) hb,
      marked_putBlock_of_table hn hb]

/-- Growing writes two header fields of the node and the links of the blocks
that get a successor. -/
theorem blockSlice_growImage {b o m : ℕ} (hb : g.root ≤ b) (ho : o + m ≤ g.blockSize)
    (hfield : b ≠ n ∨ o + m ≤ sizeField ∨ sizeField + 8 ≤ o ∧ o + m ≤ lastInodeField ∨
      lastInodeField + 8 ≤ o)
    (hlink : sizeofINode ≤ o ∨ b ∉ (lastOf g img n :: (freeBlocks g img).take k).dropLast) :
    blockSlice g (growImage g img n newSize k) b o m = blockSlice g img b o m := by
  have hh := g.header_lt
  simp only [sizeofINodeMain] at hh
  have hput : ∀ (img' : Image) (f v : ℕ), f = sizeField ∨ f = lastInodeField →
      blockSlice g (img'.putBlock g .field n f (leBytes 8 v)) b o m = blockSlice g img' b o m := by
    intro img' f v hf
    simp only [sizeField, lastInodeField] at hf hfield
    exact blockSlice_putField (by omega) ho (by omega)
  rw [growImage]
  split
  · exact hput _ _ _ (Or.inl rfl)
  · rw [hput _ _ _ (Or.inr rfl), blockSlice_extendImage (fun x hx => (h.taken hx).2.1) hb ho hlink,
      hput _ _ _ (Or.inl rfl)]

/-- The same, byte by byte and outside the data blocks as well. -/
theorem bytes_growImage {a : ℕ}
    (ha : a < lookupTable ∨ lookupTable + (g.blocksCount + 7) / 8 ≤ a)
    (hsize : a < n * g.blockSize + sizeField ∨ n * g.blockSize + sizeField + 8 ≤ a)
    (hlast : a < n * g.blockSize + lastInodeField ∨ n * g.blockSize + lastInodeField + 8 ≤ a)
    (hlinks : ∀ b ∈ (lastOf g img n :: (freeBlocks g img).take k).dropLast,
      a < b * g.blockSize ∨ b * g.blockSize + sizeofINode ≤ a) :
    (growImage g img n newSize k).bytes a = img.bytes a := by
  have hresized : (img.putBlock g .field n sizeField (leBytes 8 newSize)).bytes a = img.bytes a :=
    bytes_putBlock (by rwa [leBytes_length])
  rw [growImage]
  split
  · exact hresized
  · rw [bytes_putBlock (by rwa [leBytes_length]),
      bytes_extendImage (fun x hx => (h.taken hx).2.1) ha hlinks, hresized]

theorem sizeOfNode_growImage (hs : newSize < wordSize) :
    sizeOfNode g (growImage g img n newSize k) n = newSize := by
  have hh := g.header_lt
  simp only [sizeofINodeMain] at hh
  rw [growImage]
  split
  · exact fieldOf_putBlock_self hs _
  · rw [sizeOfNode, fieldOf, blockSlice_putBlock_of_disjoint (Or.inl (by
      simp only [sizeField, lastInodeField]; omega)),
      blockSlice_extendImage (fun x hx => (h.taken hx).2.1) h.head_range.1
        (by simp only [sizeField]; omega) (Or.inl (by simp only [sizeofINode, sizeField]; omega))]
    exact fieldOf_putBlock_self hs _

theorem lastOf_growImage :
    lastOf g (growImage g img n newSize k) n =
      (lastOf g img n :: (freeBlocks g img).take k).getLast (by simp) := by
  rw [growImage]
  split
  · next hk =>
    simp only [hk, List.take_zero, List.getLast_singleton]
    rw [lastOf, fieldOf, blockSlice_putBlock_of_disjoint (Or.inr (by
      simp only [leBytes_length, sizeField, lastInodeField]; omega))]
    rfl
  · refine fieldOf_putBlock_self ?_ _
    have hlt := g.blocksCount_lt
    have hmem : (lastOf g img n :: (freeBlocks g img).take k).getLast (by simp) ∈
        lastOf g img n :: (freeBlocks g img).take k := List.getLast_mem _
    rcases List.mem_cons.mp hmem with heq | hmem
    · rw [heq]
      exact fieldOf_lt g img n lastInodeField
    · have := (h.taken hmem).2.1
      omega

/-- The new blocks are linked one behind the other, and all behind the old last one. -/
theorem linked_new_growImage (newSize k : ℕ) :
    Linked (linkOf g (growImage g img n newSize k))
      (lastOf g img n :: (freeBlocks g img).take k) := by
  have hh := g.header_lt
  simp only [sizeofINodeMain] at hh
  rw [growImage]
  split
  · next hk =>
    simp only [hk, List.take_zero]
    exact List.IsChain.singleton _
  · have hl : Linked (linkOf g (extendImage g (img.putBlock g .field n sizeField
        (leBytes 8 newSize)) (lastOf g img n) ((freeBlocks g img).take k)))
        (lastOf g img n :: (freeBlocks g img).take k) :=
      linked_extendImage h.links_nodup h.last_range.1 fun x hx =>
        ⟨(h.taken hx).1, (h.taken hx).2.1⟩
    exact linked_congr hl fun x _ => fieldOf_putField (by simp only [lastInodeField]; omega)
      (by simp only [continuationInode]; omega)
      (Or.inr (Or.inl (by simp only [continuationInode, lastInodeField]; omega)))

theorem inode_run : getInode n img = .ok (some (n * g.blockSize)) img := by
  have hroot := g.root_pos
  have hn := h.head_range
  exact getInode_run h.onVolume (by omega) hn.2

theorem size_run :
    getField (some (n * g.blockSize)) sizeField img = .ok (sizeOfNode g img n) img := by
  have hh := g.header_lt
  simp only [sizeofINodeMain] at hh
  exact getField_run h.onVolume h.head_range.2 (by simp only [sizeField]; omega)

/-- `truncate_file` up to the point where it starts to extend. -/
theorem truncateFile_eq (fuel : ℕ)
    (hold : getBlocksRequired (sizeOfNode g img n) img = .ok old img)
    (hnew : getBlocksRequired newSize img = .ok (old + k) img) (hk : 0 < k) :
    truncateFile fuel n newSize img =
      (extendLoop k (lastOf g img n) >>= fun last =>
        setField (some (n * g.blockSize)) lastInodeField last)
        (img.putBlock g .field n sizeField (leBytes 8 newSize)) := by
  have hh := g.header_lt
  simp only [sizeofINodeMain] at hh
  have hn := h.head_range
  have hv := h.onVolume.putBlock (w := .field) (o := sizeField) (d := leBytes 8 newSize) hn.1
  have hlast : fieldOf g (img.putBlock g .field n sizeField (leBytes 8 newSize)) n lastInodeField =
      lastOf g img n := by
    rw [fieldOf, blockSlice_putBlock_of_disjoint (Or.inr (by
      simp only [leBytes_length, sizeField, lastInodeField]; omega))]
    rfl
  have hlastrun := getField_run hv (o := lastInodeField) hn.2
    (by simp only [lastInodeField]; omega)
  rw [hlast] at hlastrun
  rw [truncateFile, bind_of_ok h.inode_run, bind_of_ok h.size_run, bind_of_ok hold, bind_of_ok hnew,
    bind_of_ok (setField_run h.onVolume _ hn.2 (by simp only [sizeField]; omega)),
    if_pos (by omega), bind_of_ok hlastrun, Nat.add_sub_cancel_left]

theorem resized (newSize : ℕ) :
    OnVolume g (img.putBlock g .field n sizeField (leBytes 8 newSize)) ∧
      (∀ x < g.root, marked (img.putBlock g .field n sizeField (leBytes 8 newSize)) x = true) ∧
      freeBlocks g (img.putBlock g .field n sizeField (leBytes 8 newSize)) = freeBlocks g img := by
  have hn := h.head_range
  refine ⟨h.onVolume.putBlock hn.1, fun x hx => ?_, freeBlocks_congr fun _ hb => marked_putBlock hn.1 hb⟩
  have hroot := g.root_lt
  rw [marked_putBlock hn.1 (by omega), h.metadata x hx]

theorem truncateFile_run (fuel : ℕ)
    (hold : getBlocksRequired (sizeOfNode g img n) img = .ok old img)
    (hnew : getBlocksRequired newSize img = .ok (old + k) img) (hk : 0 < k)
    (hfree : k ≤ (freeBlocks g img).length) :
    truncateFile fuel n newSize img = .ok () (growImage g img n newSize k) := by
  have hh := g.header_lt
  simp only [sizeofINodeMain] at hh
  have hn := h.head_range
  have hlast := h.last_range
  obtain ⟨hv, hmeta, hsame⟩ := h.resized newSize
  have hloop := extendLoop_run (n := k) hv hlast.1 hlast.2.1 hmeta (by rwa [hsame])
  have hv' := hv.extendImage hlast.1 fun x hx => (h.taken (k := k) hx).1
  rw [h.truncateFile_eq fuel hold hnew hk, bind_of_ok hloop]
  simp only [hsame]
  rw [setField_run hv' _ hn.2 (by simp only [lastInodeField]; omega), growImage,
    if_neg (by omega)]

/-- With too few free blocks all of them are linked before the want of room is reported. -/
theorem truncateFile_noRoom (fuel : ℕ)
    (hold : getBlocksRequired (sizeOfNode g img n) img = .ok old img)
    (hnew : getBlocksRequired newSize img = .ok (old + k) img) (hk : 0 < k)
    (hfree : (freeBlocks g img).length < k) :
    ∃ e, e.NoRoom ∧ truncateFile fuel n newSize img = .error (.die e)
      (extendImage g (img.putBlock g .field n sizeField (leBytes 8 newSize)) (lastOf g img n)
        (freeBlocks g img)) := by
  have hlast := h.last_range
  obtain ⟨hv, hmeta, hsame⟩ := h.resized newSize
  obtain ⟨e, hroom, hloop⟩ := extendLoop_noRoom (n := k) hv hlast.1 hlast.2.1 hmeta (by rwa [hsame])
  rw [hsame] at hloop
  exact ⟨e, hroom, by rw [h.truncateFile_eq fuel hold hnew hk, bind_of_error hloop]⟩

/-- With too few free blocks all of them are linked before the error report. -/
theorem truncateFile_full (fuel : ℕ)
    (hold : getBlocksRequired (sizeOfNode g img n) img = .ok old img)
    (hnew : getBlocksRequired newSize img = .ok (old + k) img) (hk : 0 < k)
    (hfree : (freeBlocks g img).length < k) :
    ∃ e, truncateFile fuel n newSize img = .error (.die e)
      (extendImage g (img.putBlock g .field n sizeField (leBytes 8 newSize)) (lastOf g img n)
        (freeBlocks g img)) :=
  (h.truncateFile_noRoom fuel hold hnew hk hfree).imp fun _ he => he.2

end Extendable

end KisLinux.Fs
