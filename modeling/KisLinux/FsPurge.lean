import KisLinux.FsFileAccess

/-!
# Freeing blocks

A node is freed by walking its chain up to a zero link, so the walk is only
right on a chain that is `Ended`. Freeing clears bits of the lookup table and
writes nothing else: a freed block keeps its bytes, its link among them.
-/
namespace KisLinux.Fs
open ByteMemory StateRun LinkedChain

/-- The last block of the node's chain links to nothing. -/
def Ended (g : Geometry) (img : Image) (n : ℕ) : Prop := linkOf g img (lastOf g img n) = 0

instance (g : Geometry) (img : Image) (n : ℕ) : Decidable (Ended g img n) :=
  inferInstanceAs (Decidable (linkOf g img (lastOf g img n) = 0))

theorem Kept.ended {g : Geometry} {img img' : Image} {live : Finset ℕ} {n : ℕ}
    (hk : Kept g img img' n) (h : Owned g img live) (hn : n ∈ live) (hend : Ended g img n) :
    Ended g img' n := by
  rw [Ended, hk.self.last_eq, (hk _ (lastOf_mem h hn)).link_eq]
  exact hend

/-- The image after clearing the bits of the blocks `bs` one by one. -/
def unmarkAll (img : Image) (bs : List ℕ) : Image := bs.foldl (fun img b => img.mark b false) img

@[simp] theorem unmarkAll_nil (img : Image) : unmarkAll img [] = img := rfl

@[simp] theorem unmarkAll_cons (img : Image) (b : ℕ) (bs : List ℕ) :
    unmarkAll img (b :: bs) = unmarkAll (img.mark b false) bs := rfl

theorem unmarkAll_append (img : Image) (bs cs : List ℕ) :
    unmarkAll img (bs ++ cs) = unmarkAll (unmarkAll img bs) cs := List.foldl_append

theorem marked_unmarkAll (img : Image) (bs : List ℕ) (x : ℕ) :
    marked (unmarkAll img bs) x = (marked img x && !decide (x ∈ bs)) := by
  induction bs generalizing img with
  | nil => simp
  | cons b bs ih =>
    rw [unmarkAll_cons, ih, marked_mark]
    by_cases hx : x = b <;> simp [hx]

/-- Freeing writes nothing outside the lookup table. -/
theorem bytes_unmarkAll {g : Geometry} {img : Image} {bs : List ℕ} (hbs : ∀ b ∈ bs, b < g.blocksCount)
    {a : ℕ} (ha : a < lookupTable ∨ lookupTable + (g.blocksCount + 7) / 8 ≤ a) :
    (unmarkAll img bs).bytes a = img.bytes a := by
  induction bs generalizing img with
  | nil => rfl
  | cons b bs ih =>
    have hb := hbs b (by simp)
    rw [unmarkAll_cons, ih fun x hx => hbs x (List.mem_cons_of_mem _ hx), bytes_mark (by omega)]

/-- Clearing the bits of the blocks `bs`. -/
structure Freed (g : Geometry) (img img' : Image) (bs : List ℕ) : Prop where
  onVolume : OnVolume g img'
  marks : ∀ b < g.blocksCount, marked img' b = true ↔ marked img b = true ∧ b ∉ bs
  agree : ∀ b, g.root ≤ b → AgreeOn g img img' b

namespace Freed

variable {g : Geometry} {img img' img'' : Image} {bs cs : List ℕ}

theorem refl (h : OnVolume g img) : Freed g img img [] where
  onVolume := h
  marks := fun b _ => by simp
  agree := fun b _ => AgreeOn.refl g img b

theorem trans (h : Freed g img img' bs) (h' : Freed g img' img'' cs) :
    Freed g img img'' (bs ++ cs) where
  onVolume := h'.onVolume
  marks := by
    intro b hb
    rw [h'.marks b hb, h.marks b hb, List.mem_append, not_or, and_assoc]
  agree := fun b hb => (h.agree b hb).trans (h'.agree b hb)

theorem mark (h : OnVolume g img) {b : ℕ} (hb : b < g.blocksCount) :
    Freed g img (img.mark b false) [b] where
  onVolume := h.mark
  marks := by
    intro x _
    rw [marked_mark]
    by_cases hx : x = b <;> simp [hx]
  agree := fun _ hx _ _ _ => blockSlice_mark hb hx

/-- Chains of data blocks are not changed by freeing. -/
theorem chainOn (h : Freed g img img' bs) {l : List ℕ} (hc : ChainOn g img l) : ChainOn g img' l where
  linked := linked_congr hc.linked fun x hx =>
    (h.agree x (hc.range x ((List.dropLast_sublist _).subset hx)).1).link_eq
  range := hc.range
  nodup := hc.nodup

theorem kept (h : Freed g img img' bs) {n : ℕ} (hc : ChainOn g img (blocksOf g img n)) :
    Kept g img img' n := fun b hb => h.agree b (hc.range b hb).1

theorem unmarkAll (h : OnVolume g img) (hbs : ∀ b ∈ bs, b < g.blocksCount) :
    Freed g img (unmarkAll img bs) bs := by
  induction bs generalizing img with
  | nil => exact Freed.refl h
  | cons b bs ih =>
    exact (Freed.mark h (hbs b (by simp))).trans
      (ih h.mark fun x hx => hbs x (List.mem_cons_of_mem _ hx))

end Freed

section Purge

variable {g : Geometry} {img : Image} {live : Finset ℕ} {n : ℕ}

/-- The walk of `purge_blocks` frees a chain that ends in a zero link. -/
theorem purgeWalk_run {b fuel : ℕ} {l : List ℕ} (h : OnVolume g img)
    (hc : ChainOn g img (b :: l)) (hend : ∀ x ∈ (b :: l).getLast?, linkOf g img x = 0)
    (hf : l.length < fuel) :
    purgeWalk fuel b (some (b * g.blockSize)) img = .ok () (unmarkAll img (b :: l)) := by
  induction l generalizing b fuel img with
  | nil =>
    obtain ⟨fuel, rfl⟩ : ∃ k, fuel = k + 1 := ⟨fuel - 1, by omega⟩
    have hb := hc.range b (by simp)
    have hfreed := Freed.mark h hb.2
    have hlink : linkOf g (img.mark b false) b = 0 := by
      rw [(hfreed.agree b hb.1).link_eq]
      exact hend b (by simp)
    have hh := g.header_lt
    simp only [sizeofINodeMain] at hh
    rw [purgeWalk, bind_of_ok (mark_run h _ hb.2),
      bind_of_ok (getField_run hfreed.onVolume hb.2 (by simp only [continuationInode]; omega)),
      bind_of_ok (show getNextInode (some (b * g.blockSize)) (img.mark b false) = _ by
        rw [getNextInode_run hfreed.onVolume hb.2, hlink, getInode_zero])]
    cases fuel <;> rfl
  | cons c l ih =>
    obtain ⟨fuel, rfl⟩ : ∃ k, fuel = k + 1 := ⟨fuel - 1, by omega⟩
    have hb := hc.range b (by simp)
    have hfreed := Freed.mark h hb.2
    have hc' := hfreed.chainOn hc
    obtain ⟨hnext, hinode⟩ := advance_run hfreed.onVolume hc'
    have hend' : ∀ x ∈ (c :: l).getLast?, linkOf g (img.mark b false) x = 0 := by
      intro x hx
      have hmem : x ∈ c :: l := List.mem_of_getLast? hx
      rw [(hfreed.agree x (hc'.tail.range x hmem).1).link_eq]
      exact hend x (by rwa [List.getLast?_cons_cons])
    have hf' : l.length < fuel := by
      simp only [List.length_cons] at hf
      omega
    rw [purgeWalk, bind_of_ok (mark_run h _ hb.2), bind_of_ok hnext, bind_of_ok hinode,
      ih hfreed.onVolume hc'.tail hend' hf', unmarkAll_cons img b]

theorem purgeBlocks_run {b fuel : ℕ} {l : List ℕ} (h : OnVolume g img)
    (hc : ChainOn g img (b :: l)) (hend : ∀ x ∈ (b :: l).getLast?, linkOf g img x = 0)
    (hf : l.length < fuel) : purgeBlocks fuel b img = .ok () (unmarkAll img (b :: l)) := by
  have hroot := g.root_pos
  have hb := hc.range b (by simp)
  rw [purgeBlocks, bind_of_ok (getInode_run h (by omega) hb.2), purgeWalk_run h hc hend hf]

/-- The chain of a live node never has more blocks than the volume. -/
theorem blocksOf_length_lt (h : Owned g img live) (hn : n ∈ live) :
    (blocksOf g img n).length < g.blocksCount := by
  have hcard := (h.chains n hn).length_le
  have hroot := g.root_pos
  have hlt := g.root_lt
  omega

/-- Freeing all blocks of a node. -/
theorem purgeBlocks_node (h : Owned g img live) (hn : n ∈ live) (hend : Ended g img n) {fuel : ℕ}
    (hf : g.blocksCount ≤ fuel) :
    purgeBlocks fuel n img = .ok () (unmarkAll img (blocksOf g img n)) := by
  have hlen := blocksOf_length_lt h hn
  have hc := h.chains n hn
  have hlast := h.last n hn
  obtain ⟨rest, hrest⟩ := blocksOf_cons g img n
  rw [hrest] at hc hlast hlen ⊢
  refine purgeBlocks_run h.onVolume hc (fun x hx => ?_) (by simp only [List.length_cons] at hlen; omega)
  rw [hlast, Option.mem_some] at hx
  exact hx ▸ hend

end Purge

end KisLinux.Fs
