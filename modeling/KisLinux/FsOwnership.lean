import KisLinux.FsContent

/-!
# Ownership of blocks

`Owned g img live` is the invariant behind every operation: each live node owns
the first `get_blocks_required(size)` blocks of its chain, these are marked data
blocks, no two nodes share one, and `last_inode` is the last of them. What the
last block links to, and which other blocks are marked, is left open.
-/
namespace KisLinux.Fs
open ByteMemory StateRun LinkedChain

/-- The blocks that hold the bytes of the node `n`. -/
def blocksOf (g : Geometry) (img : Image) (n : ℕ) : List ℕ :=
  chain (linkOf g img) n (g.blocksRequired (sizeOfNode g img n))

/-- The bytes of the node `n`. -/
def content (g : Geometry) (img : Image) (n : ℕ) : List UInt8 :=
  (payload g img sizeofINodeMain (blocksOf g img n)).take (sizeOfNode g img n)

structure Owned (g : Geometry) (img : Image) (live : Finset ℕ) : Prop where
  onVolume : OnVolume g img
  metadata : ∀ b < g.root, marked img b = true
  chains : ∀ n ∈ live, ChainOn g img (blocksOf g img n)
  used : ∀ n ∈ live, ∀ b ∈ blocksOf g img n, marked img b = true
  disjoint : ∀ n ∈ live, ∀ m ∈ live, n ≠ m →
    List.Disjoint (blocksOf g img n) (blocksOf g img m)
  last : ∀ n ∈ live, (blocksOf g img n).getLast? = some (lastOf g img n)

/-- The bytes of one block are the same in both images. -/
def AgreeOn (g : Geometry) (img img' : Image) (b : ℕ) : Prop :=
  ∀ o n, o + n ≤ g.blockSize → blockSlice g img' b o n = blockSlice g img b o n

/-- The bytes of all blocks of the node `n` are the same in both images. -/
def Kept (g : Geometry) (img img' : Image) (n : ℕ) : Prop :=
  ∀ b ∈ blocksOf g img n, AgreeOn g img img' b

section Views

variable {g : Geometry} {img img' : Image} {n : ℕ}

theorem blocksOf_length (g : Geometry) (img : Image) (n : ℕ) :
    (blocksOf g img n).length = g.blocksRequired (sizeOfNode g img n) := chain_length _ _ _

theorem blocksOf_ne_nil (g : Geometry) (img : Image) (n : ℕ) : blocksOf g img n ≠ [] := by
  have h := g.blocksRequired_pos (sizeOfNode g img n)
  rw [← blocksOf_length] at h
  exact List.length_pos_iff.mp h

theorem blocksOf_cons (g : Geometry) (img : Image) (n : ℕ) :
    ∃ rest, blocksOf g img n = n :: rest := by
  have hh := head?_chain (linkOf g img) n (g.blocksRequired_pos (sizeOfNode g img n))
  cases hb : blocksOf g img n with
  | nil => exact absurd hb (blocksOf_ne_nil g img n)
  | cons c rest =>
    rw [blocksOf] at hb
    rw [hb] at hh
    obtain rfl : c = n := by simpa using hh
    exact ⟨rest, rfl⟩

theorem self_mem_blocksOf (g : Geometry) (img : Image) (n : ℕ) : n ∈ blocksOf g img n := by
  obtain ⟨rest, hr⟩ := blocksOf_cons g img n
  simp [hr]

theorem size_le_payload (g : Geometry) (img : Image) (n : ℕ) :
    sizeOfNode g img n ≤ (payload g img sizeofINodeMain (blocksOf g img n)).length := by
  rw [payload_length_eq_capacity g img (blocksOf_ne_nil g img n), blocksOf_length]
  exact g.size_le_capacity _

@[simp] theorem content_length (g : Geometry) (img : Image) (n : ℕ) :
    (content g img n).length = sizeOfNode g img n := by
  rw [content, List.length_take, Nat.min_eq_left (size_le_payload g img n)]

theorem AgreeOn.refl (g : Geometry) (img : Image) (b : ℕ) : AgreeOn g img img b := fun _ _ _ => rfl

theorem AgreeOn.trans {img'' : Image} {b : ℕ} (h : AgreeOn g img img' b)
    (h' : AgreeOn g img' img'' b) : AgreeOn g img img'' b := fun o k hk =>
  (h' o k hk).trans (h o k hk)

theorem AgreeOn.fieldOf_eq {b o : ℕ} (h : AgreeOn g img img' b) (ho : o + 8 ≤ g.blockSize) :
    fieldOf g img' b o = fieldOf g img b o := by
  rw [fieldOf, h o 8 ho, fieldOf]

theorem AgreeOn.link_eq {b : ℕ} (h : AgreeOn g img img' b) : linkOf g img' b = linkOf g img b := by
  have hh := g.header_lt
  simp only [sizeofINodeMain] at hh
  exact h.fieldOf_eq (by simp only [continuationInode]; omega)

theorem AgreeOn.size_eq {b : ℕ} (h : AgreeOn g img img' b) :
    sizeOfNode g img' b = sizeOfNode g img b := by
  have hh := g.header_lt
  simp only [sizeofINodeMain] at hh
  exact h.fieldOf_eq (by simp only [sizeField]; omega)

theorem AgreeOn.last_eq {b : ℕ} (h : AgreeOn g img img' b) : lastOf g img' b = lastOf g img b := by
  have hh := g.header_lt
  simp only [sizeofINodeMain] at hh
  exact h.fieldOf_eq (by simp only [lastInodeField]; omega)

theorem AgreeOn.flags_eq {b : ℕ} (h : AgreeOn g img img' b) :
    flagsOf g img' b = flagsOf g img b := by
  have hh := g.header_lt
  simp only [sizeofINodeMain] at hh
  rw [flagsOf_eq, h _ _ (by simp only [flagsField]; omega), flagsOf_eq]

theorem Kept.self (h : Kept g img img' n) : AgreeOn g img img' n :=
  h n (self_mem_blocksOf g img n)

theorem Kept.blocksOf_eq (h : Kept g img img' n) : blocksOf g img' n = blocksOf g img n := by
  have hlinks : ∀ x ∈ (blocksOf g img n).dropLast, linkOf g img' x = linkOf g img x := fun x hx =>
    (h x ((List.dropLast_sublist _).subset hx)).link_eq
  rw [blocksOf, h.self.size_eq]
  exact chain_congr hlinks

theorem Kept.chainOn (h : Kept g img img' n) (hc : ChainOn g img (blocksOf g img n)) :
    ChainOn g img' (blocksOf g img' n) where
  linked := chain_linked _ _ _
  range := by rw [h.blocksOf_eq]; exact hc.range
  nodup := by rw [h.blocksOf_eq]; exact hc.nodup

theorem Kept.content_eq (h : Kept g img img' n) : content g img' n = content g img n := by
  have hpay : payload g img' sizeofINodeMain (blocksOf g img n) =
      payload g img sizeofINodeMain (blocksOf g img n) :=
    payload_congr (by simp only [sizeofINode, sizeofINodeMain]; omega) g.header_lt.le
      fun b hb o k _ hk => h b hb o k hk
  rw [content, h.blocksOf_eq, h.self.size_eq, hpay, content]

theorem Kept.trans {img'' : Image} (h : Kept g img img' n) (h' : Kept g img' img'' n) :
    Kept g img img'' n := fun b hb => (h b hb).trans (h' b (by rw [h.blocksOf_eq]; exact hb))

end Views

namespace Owned

variable {g : Geometry} {img img' : Image} {live : Finset ℕ} {n : ℕ}

theorem mem_range (h : Owned g img live) (hn : n ∈ live) : g.root ≤ n ∧ n < g.blocksCount :=
  (h.chains n hn).range n (self_mem_blocksOf g img n)

/-- A chain of different data blocks is short enough for its size to be far from
the top of `size_t`. -/
theorem size_bound (h : Owned g img live) (hn : n ∈ live) :
    sizeOfNode g img n + sizeofINodeMain + g.blockSize ≤ g.blocksCount * g.blockSize := by
  have hc := h.chains n hn
  have hcard := hc.length_le
  have hpos := List.length_pos_iff.mpr (blocksOf_ne_nil g img n)
  have hsize := size_le_payload g img n
  rw [payload_length_eq_capacity g img (blocksOf_ne_nil g img n), Geometry.capacity] at hsize
  obtain ⟨k, hk⟩ : ∃ k, (blocksOf g img n).length = k + 1 := ⟨_, (Nat.sub_add_cancel hpos).symm⟩
  rw [hk, Nat.add_sub_cancel] at hsize
  rw [hk] at hcard
  have hroot := g.root_pos
  have hfb := g.firstBlockSize_eq
  have hcb := g.commonBlockSize_add
  have hmul : (k + 2) * g.blockSize ≤ g.blocksCount * g.blockSize :=
    Nat.mul_le_mul_right _ (by have := g.root_lt; omega)
  have hk' : k * g.commonBlockSize ≤ k * g.blockSize :=
    Nat.mul_le_mul_left _ (by omega)
  rw [Nat.add_mul] at hmul
  omega

/-- The invariant for the nodes that an operation left alone. -/
theorem kept (h : Owned g img live) {live' : Finset ℕ} (hsub : live' ⊆ live)
    (hv : OnVolume g img') (hmeta : ∀ b < g.root, marked img' b = true)
    (hkept : ∀ m ∈ live', Kept g img img' m)
    (hmarks : ∀ m ∈ live', ∀ b ∈ blocksOf g img m, marked img' b = true) :
    Owned g img' live' where
  onVolume := hv
  metadata := hmeta
  chains := fun m hm => (hkept m hm).chainOn (h.chains m (hsub hm))
  used := by
    intro m hm b hb
    rw [(hkept m hm).blocksOf_eq] at hb
    exact hmarks m hm b hb
  disjoint := by
    intro m hm k hk hne
    rw [(hkept m hm).blocksOf_eq, (hkept k hk).blocksOf_eq]
    exact h.disjoint m (hsub hm) k (hsub hk) hne
  last := by
    intro m hm
    rw [(hkept m hm).blocksOf_eq, (hkept m hm).self.last_eq]
    exact h.last m (hsub hm)

/-- The invariant with one more node. -/
theorem insert (h : Owned g img live) (hc : ChainOn g img (blocksOf g img n))
    (hused : ∀ b ∈ blocksOf g img n, marked img b = true)
    (hdisj : ∀ m ∈ live, m ≠ n → List.Disjoint (blocksOf g img n) (blocksOf g img m))
    (hlast : (blocksOf g img n).getLast? = some (lastOf g img n)) :
    Owned g img (insert n live) where
  onVolume := h.onVolume
  metadata := h.metadata
  chains := by
    intro m hm
    rcases Finset.mem_insert.mp hm with rfl | hm
    · exact hc
    · exact h.chains m hm
  used := by
    intro m hm
    rcases Finset.mem_insert.mp hm with rfl | hm
    · exact hused
    · exact h.used m hm
  disjoint := by
    intro m hm k hk hne
    rcases Finset.mem_insert.mp hm with hmn | hm <;> rcases Finset.mem_insert.mp hk with hkn | hk
    · exact absurd (hmn.trans hkn.symm) hne
    · exact hmn ▸ hdisj k hk fun hkn => hne (hmn.trans hkn.symm)
    · exact hkn ▸ (hdisj m hm fun hmn => hne (hmn.trans hkn.symm)).symm
    · exact h.disjoint m hm k hk hne
  last := by
    intro m hm
    rcases Finset.mem_insert.mp hm with rfl | hm
    · exact hlast
    · exact h.last m hm

/-- Two nodes that share a block are the same node. -/
theorem eq_of_mem (h : Owned g img live) {m b : ℕ} (hn : n ∈ live) (hm : m ∈ live)
    (hb : b ∈ blocksOf g img n) (hb' : b ∈ blocksOf g img m) : n = m := by
  by_contra hne
  exact h.disjoint n hn m hm hne hb hb'

/-- A free block belongs to no node. -/
theorem notMem_of_free (h : Owned g img live) {b : ℕ} (hn : n ∈ live) (hb : marked img b = false) :
    b ∉ blocksOf g img n := by
  intro hm
  rw [h.used n hn b hm] at hb
  exact absurd hb (by simp)

theorem free_ge_root (h : Owned g img live) {b : ℕ} (hb : b ∈ freeBlocks g img) : g.root ≤ b :=
  freeBlocks_ge_root h.metadata hb

theorem inode_run (h : Owned g img live) (hn : n ∈ live) :
    getInode n img = .ok (some (n * g.blockSize)) img := by
  have hr := h.mem_range hn
  have hroot := g.root_pos
  exact getInode_run h.onVolume (by omega) hr.2

theorem size_run (h : Owned g img live) (hn : n ∈ live) :
    getField (some (n * g.blockSize)) sizeField img = .ok (sizeOfNode g img n) img := by
  have hh := g.header_lt
  simp only [sizeofINodeMain] at hh
  exact getField_run h.onVolume (h.mem_range hn).2 (by simp only [sizeField]; omega)

theorem flags_run (h : Owned g img live) (hn : n ∈ live) :
    getFlags (some (n * g.blockSize)) img = .ok (flagsOf g img n) img :=
  getFlags_run h.onVolume (h.mem_range hn).2

end Owned

end KisLinux.Fs
