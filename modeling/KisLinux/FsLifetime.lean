import KisLinux.FsShrink

/-!
# Creating nodes

`init_new_file` takes the lowest free block and writes the header of an empty
node into it, its zero link included. No other block is touched.
-/
namespace KisLinux.Fs
open ByteMemory StateRun LinkedChain

/-- The volume after `init_new_file` turned the free block `b` into an empty node. -/
structure Created (g : Geometry) (img img' : Image) (b : ℕ) (flags : UInt8) : Prop where
  onVolume : OnVolume g img'
  range : g.root ≤ b ∧ b < g.blocksCount
  free : marked img b = false
  marks : ∀ x < g.blocksCount, marked img' x = true ↔ x = b ∨ marked img x = true
  others : ∀ x, g.root ≤ x → x ≠ b → AgreeOn g img img' x
  size : sizeOfNode g img' b = 0
  link : linkOf g img' b = 0
  last : lastOf g img' b = b
  flags : flagsOf g img' b = flags

/-- The header that `init_new_file` writes into the block `b`, store by store. -/
def headerImage (g : Geometry) (img : Image) (b : ℕ) (flags : UInt8) : Image :=
  ((((img.putBlock g .field b sizeField (leBytes 8 0)).putBlock g .field b continuationInode
    (leBytes 8 0)).putBlock g .field b linksCount (leBytes 4 0)).putBlock g .field b lastInodeField
      (leBytes 8 b)).putBlock g .field b flagsField [flags]

section Create

variable {g : Geometry} {img : Image} {live : Finset ℕ} {b : ℕ} {flags : UInt8}

theorem headerImage_run (h : OnVolume g img) (hb : b < g.blocksCount) :
    (do
      let block ← blockAddress b
      storeSize (block + sizeField) 0
      storeSize (block + continuationInode) 0
      store .field (block + linksCount) (leBytes 4 0)
      storeSize (block + lastInodeField) b
      store .field (block + flagsField) [flags]
      pure b : FsM ℕ) img = .ok b (headerImage g img b flags) := by
  have hh := g.header_lt
  simp only [sizeofINodeMain] at hh
  have hr := g.block_range (o := 0) (n := 29) hb (by omega)
  have hmapped := h.mapped_eq
  rw [bind_of_ok (blockAddress_run h hb),
    bind_of_ok (storeSize_run _ (by simp only [sizeField]; omega)),
    bind_of_ok (storeSize_run _ (by simp only [continuationInode, Image.put_mapped]; omega)),
    bind_of_ok (store_run (by simp only [linksCount, Image.put_mapped, leBytes_length]; omega)),
    bind_of_ok (storeSize_run _ (by simp only [lastInodeField, Image.put_mapped]; omega)),
    bind_of_ok (store_run (by
      simp only [flagsField, Image.put_mapped, List.length_singleton]; omega)), pure_run]
  rfl

/-- The header of a data block leaves all bits of the table alone but its own. -/
theorem marked_headerImage {x : ℕ} (hbr : g.root ≤ b) (hx : x / 8 < (g.blocksCount + 7) / 8) :
    marked (headerImage g (img.mark b true) b flags) x = true ↔ x = b ∨ marked img x = true := by
  simp only [headerImage, marked_putBlock_of_table hbr hx, marked_mark]
  by_cases hxb : x = b <;> simp [hxb]

theorem created_headerImage (h : OnVolume g img) (hb : b < g.blocksCount) (hbr : g.root ≤ b)
    (hfree : marked img b = false) :
    Created g img (headerImage g (img.mark b true) b flags) b flags := by
  have hh := g.header_lt
  simp only [sizeofINodeMain] at hh
  refine ⟨?_, ⟨hbr, hb⟩, hfree, ?_, ?_, ?_, ?_, ?_, ?_⟩
  · exact ((((h.mark.putBlock hbr).putBlock hbr).putBlock hbr).putBlock hbr).putBlock hbr
  · exact fun x hx => marked_headerImage hbr (by omega)
  · intro x hx hne o m hom
    rw [headerImage, blockSlice_putBlock_of_ne hne (by simp [flagsField]; omega) hom,
      blockSlice_putBlock_of_ne hne (by simp [lastInodeField]; omega) hom,
      blockSlice_putBlock_of_ne hne (by simp [linksCount]; omega) hom,
      blockSlice_putBlock_of_ne hne (by simp [continuationInode]; omega) hom,
      blockSlice_putBlock_of_ne hne (by simp [sizeField]; omega) hom, blockSlice_mark hb hx]
  · rw [sizeOfNode, fieldOf, headerImage,
      blockSlice_putBlock_of_disjoint (Or.inl (by simp [flagsField, sizeField])),
      blockSlice_putBlock_of_disjoint (Or.inl (by simp [lastInodeField, sizeField])),
      blockSlice_putBlock_of_disjoint (Or.inl (by simp [linksCount, sizeField])),
      blockSlice_putBlock_of_disjoint (Or.inr (by simp [continuationInode, sizeField]))]
    exact fieldOf_putBlock_self (by simp [wordSize]) _
  · rw [linkOf, fieldOf, headerImage,
      blockSlice_putBlock_of_disjoint (Or.inl (by simp [flagsField, continuationInode])),
      blockSlice_putBlock_of_disjoint (Or.inl (by simp [lastInodeField, continuationInode])),
      blockSlice_putBlock_of_disjoint (Or.inl (by simp [linksCount, continuationInode]))]
    exact fieldOf_putBlock_self (by simp [wordSize]) _
  · rw [lastOf, fieldOf, headerImage,
      blockSlice_putBlock_of_disjoint (Or.inr (by simp [flagsField, lastInodeField]))]
    refine fieldOf_putBlock_self ?_ _
    have := g.blocksCount_lt
    omega
  · have hself : ∀ i : Image, blockSlice g (i.putBlock g .field b flagsField [flags]) b flagsField
        [flags].length = [flags] := fun i => blockSlice_putBlock_self
    rw [List.length_singleton] at hself
    rw [flagsOf_eq, headerImage, hself]
    rfl

theorem initNewFile_eq {rest : List ℕ} (h : OnVolume g img) (flags : UInt8)
    (hf : freeBlocks g img = b :: rest) :
    initNewFile flags img = .ok b (headerImage g (img.mark b true) b flags) := by
  have hb := (mem_freeBlocks.mp (hf ▸ List.mem_cons_self)).1
  rw [initNewFile, bind_of_ok (getNextFreeBlockIndex_run h hf), bind_of_ok (mark_run h _ hb),
    headerImage_run h.mark hb]

/-- `init_new_file` turns the lowest free block into a node. -/
theorem initNewFile_run {rest : List ℕ} (h : Owned g img live) (flags : UInt8)
    (hf : freeBlocks g img = b :: rest) :
    ∃ img', initNewFile flags img = .ok b img' ∧ Created g img img' b flags := by
  have hmem : b ∈ freeBlocks g img := by simp [hf]
  have hb := mem_freeBlocks.mp hmem
  exact ⟨_, initNewFile_eq h.onVolume flags hf,
    created_headerImage h.onVolume hb.1 (h.free_ge_root hmem) hb.2⟩

/-- On a full volume `init_new_file` says so and changes nothing. -/
theorem initNewFile_noRoom (h : Owned g img live) (flags : UInt8) (hf : freeBlocks g img = []) :
    ∃ e, e.NoRoom ∧ initNewFile flags img = .error (.die e) img := by
  obtain ⟨e, hroom, he⟩ := allocate_noRoom h.onVolume hf fun blockIndex => (do
    let block ← blockAddress blockIndex
    storeSize (block + sizeField) 0
    storeSize (block + continuationInode) 0
    store .field (block + linksCount) (leBytes 4 0)
    storeSize (block + lastInodeField) blockIndex
    store .field (block + flagsField) [flags]
    pure blockIndex : FsM ℕ)
  exact ⟨e, hroom, he⟩

/-- On a full volume `init_new_file` reports it and changes nothing. -/
theorem initNewFile_full (h : Owned g img live) (flags : UInt8) (hf : freeBlocks g img = []) :
    ∃ e, initNewFile flags img = .error (.die e) img :=
  (initNewFile_noRoom h flags hf).imp fun _ he => he.2

end Create

namespace Created

variable {g : Geometry} {img img' : Image} {live : Finset ℕ} {b : ℕ} {flags : UInt8}

theorem blocksOf_eq (h : Created g img img' b flags) : blocksOf g img' b = [b] := by
  rw [blocksOf, h.size, g.blocksRequired_zero]
  rfl

theorem content_eq (h : Created g img img' b flags) : content g img' b = [] :=
  List.eq_nil_of_length_eq_zero (by rw [content_length, h.size])

theorem ended (h : Created g img img' b flags) : Ended g img' b := by
  rw [Ended, h.last]
  exact h.link

/-- The first free block is the one that a new node gets. -/
theorem freeBlocks_eq {rest : List ℕ} (h : Created g img img' b flags)
    (hf : freeBlocks g img = b :: rest) : freeBlocks g img' = rest := by
  rw [← freeBlocks_mark hf]
  refine freeBlocks_congr fun x hx => Bool.eq_iff_iff.mpr ?_
  rw [h.marks x hx, marked_mark]
  split
  · next heq => exact iff_of_true (Or.inl heq) rfl
  · next hne => exact or_iff_right hne

theorem notMem (h : Created g img img' b flags) (ho : Owned g img live) : b ∉ live := fun hb =>
  ho.notMem_of_free hb h.free (self_mem_blocksOf g img b)

theorem kept (h : Created g img img' b flags) (ho : Owned g img live) {m : ℕ} (hm : m ∈ live) :
    Kept g img img' m := fun x hx => h.others x ((ho.chains m hm).range x hx).1 fun hxb =>
  ho.notMem_of_free hm h.free (hxb ▸ hx)

theorem owned (h : Created g img img' b flags) (ho : Owned g img live) :
    Owned g img' (insert b live) := by
  have hroot := g.root_lt
  have hkept : Owned g img' live := ho.kept (Finset.Subset.refl live) h.onVolume
    (fun x hx => (h.marks x (by omega)).mpr (Or.inr (ho.metadata x hx)))
    (fun m hm => h.kept ho hm)
    (fun m hm x hx => (h.marks x ((ho.chains m hm).range x hx).2).mpr
      (Or.inr (ho.used m hm x hx)))
  refine hkept.insert ?_ ?_ ?_ ?_
  · rw [h.blocksOf_eq]
    exact ⟨List.IsChain.singleton _, by simpa using h.range, List.nodup_singleton b⟩
  · rw [h.blocksOf_eq]
    intro x hx
    rw [List.mem_singleton] at hx
    exact (h.marks x (hx ▸ h.range.2)).mpr (Or.inl hx)
  · intro m hm _
    rw [h.blocksOf_eq, (h.kept ho hm).blocksOf_eq, List.singleton_disjoint]
    exact ho.notMem_of_free hm h.free
  · rw [h.blocksOf_eq, h.last]
    rfl

end Created

end KisLinux.Fs
