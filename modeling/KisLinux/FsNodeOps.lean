import KisLinux.FsExtension

/-!
# Operations on one node

`NodeStep` is what an operation on the chain of one node does to the volume: it
may give up blocks of that chain and take free ones, and it writes nowhere else.
Such steps compose and keep the ownership invariant; growing, writing and
truncating a node are steps of this kind.
-/
namespace KisLinux.Fs
open ByteMemory StateRun LinkedChain

structure NodeStep (g : Geometry) (img img' : Image) (n : ℕ) : Prop where
  onVolume : OnVolume g img'
  flags : flagsOf g img' n = flagsOf g img n
  range : ∀ b ∈ blocksOf g img' n, g.root ≤ b ∧ b < g.blocksCount
  nodup : (blocksOf g img' n).Nodup
  last : (blocksOf g img' n).getLast? = some (lastOf g img' n)
  fresh : ∀ b ∈ blocksOf g img' n, b ∉ blocksOf g img n → marked img b = false
  marks : ∀ b < g.blocksCount, marked img' b = true ↔
    b ∈ blocksOf g img' n ∨ marked img b = true ∧ b ∉ blocksOf g img n
  others : ∀ b, g.root ≤ b → b ∉ blocksOf g img' n → AgreeOn g img img' b

namespace NodeStep

variable {g : Geometry} {img img' img'' : Image} {live : Finset ℕ} {n : ℕ}

theorem refl (h : Owned g img live) (hn : n ∈ live) : NodeStep g img img n where
  onVolume := h.onVolume
  flags := rfl
  range := (h.chains n hn).range
  nodup := (h.chains n hn).nodup
  last := h.last n hn
  fresh := fun _ hb hb' => absurd hb hb'
  marks := by
    intro b _
    constructor
    · intro hb
      by_cases hmem : b ∈ blocksOf g img n
      · exact Or.inl hmem
      · exact Or.inr ⟨hb, hmem⟩
    · rintro (hb | ⟨hb, -⟩)
      · exact h.used n hn b hb
      · exact hb
  others := fun b _ _ => AgreeOn.refl g img b

/-- Steps compose when the second one gives up nothing. -/
theorem trans (h : NodeStep g img img' n) (h' : NodeStep g img' img'' n)
    (hsub : blocksOf g img' n ⊆ blocksOf g img'' n) : NodeStep g img img'' n where
  onVolume := h'.onVolume
  flags := h'.flags.trans h.flags
  range := h'.range
  nodup := h'.nodup
  last := h'.last
  fresh := by
    intro b hb hold
    by_cases hmid : b ∈ blocksOf g img' n
    · exact h.fresh b hmid hold
    · have hfree := h'.fresh b hb hmid
      by_contra hm
      have hmarked := (h.marks b (h'.range b hb).2).mpr (Or.inr ⟨by simpa using hm, hold⟩)
      rw [hfree] at hmarked
      exact absurd hmarked (by simp)
  marks := by
    intro b hb
    rw [h'.marks b hb, h.marks b hb]
    by_cases hnew : b ∈ blocksOf g img'' n
    · simp [hnew]
    · have hmid : b ∉ blocksOf g img' n := fun hm => hnew (hsub hm)
      simp [hnew, hmid]
  others := by
    intro b hb hnew
    have hmid : b ∉ blocksOf g img' n := fun hm => hnew (hsub hm)
    exact (h.others b hb hmid).trans (h'.others b hb hnew)

/-- The blocks of another live node are not touched. -/
theorem notMem (h : NodeStep g img img' n) (ho : Owned g img live) (hn : n ∈ live) {m b : ℕ}
    (hm : m ∈ live) (hne : m ≠ n) (hb : b ∈ blocksOf g img m) : b ∉ blocksOf g img' n := by
  intro hb'
  by_cases hold : b ∈ blocksOf g img n
  · exact hne (ho.eq_of_mem hm hn hb hold)
  · have := h.fresh b hb' hold
    rw [ho.used m hm b hb] at this
    exact absurd this (by simp)

theorem kept (h : NodeStep g img img' n) (ho : Owned g img live) (hn : n ∈ live) {m : ℕ}
    (hm : m ∈ live) (hne : m ≠ n) : Kept g img img' m := fun b hb =>
  h.others b ((ho.chains m hm).range b hb).1 (h.notMem ho hn hm hne hb)

/-- A step on one node keeps the flags of all. -/
theorem live_flags (h : NodeStep g img img' n) (ho : Owned g img live) (hn : n ∈ live) {m : ℕ}
    (hm : m ∈ live) : flagsOf g img' m = flagsOf g img m := by
  by_cases hmn : m = n
  · rw [hmn, h.flags]
  · exact (h.kept ho hn hm hmn).self.flags_eq

theorem chainOn (h : NodeStep g img img' n) : ChainOn g img' (blocksOf g img' n) where
  linked := chain_linked _ _ _
  range := h.range
  nodup := h.nodup

theorem owned (h : NodeStep g img img' n) (ho : Owned g img live) (hn : n ∈ live) :
    Owned g img' live := by
  have hsub : live.erase n ⊆ live := Finset.erase_subset n live
  have hother : ∀ m ∈ live.erase n, m ∈ live ∧ m ≠ n := fun m hm =>
    ⟨hsub hm, Finset.ne_of_mem_erase hm⟩
  have hrest : Owned g img' (live.erase n) := by
    refine ho.kept hsub h.onVolume ?_ (fun m hm => h.kept ho hn (hother m hm).1 (hother m hm).2) ?_
    · intro b hb
      have hroot := g.root_lt
      have hold : b ∉ blocksOf g img n := fun hm => by
        have := ((ho.chains n hn).range b hm).1
        omega
      exact (h.marks b (by omega)).mpr (Or.inr ⟨ho.metadata b hb, hold⟩)
    · intro m hm b hb
      obtain ⟨hm, hne⟩ := hother m hm
      have hold : b ∉ blocksOf g img n := fun hb' => hne (ho.eq_of_mem hm hn hb hb')
      exact (h.marks b ((ho.chains m hm).range b hb).2).mpr (Or.inr ⟨ho.used m hm b hb, hold⟩)
  have hins := hrest.insert h.chainOn
    (fun b hb => (h.marks b (h.range b hb).2).mpr (Or.inl hb))
    (fun m hm _ b hb hb' => by
      obtain ⟨hm, hne⟩ := hother m hm
      rw [(h.kept ho hn hm hne).blocksOf_eq] at hb'
      exact h.notMem ho hn hm hne hb' hb)
    h.last
  rwa [Finset.insert_erase hn] at hins

end NodeStep

/-- What growing the node `n` does: the lowest free blocks are linked behind its
chain, and nothing but links and the two header fields is written. In
particular the block that becomes the last one keeps the link it had. -/
structure Grown (g : Geometry) (img img' : Image) (n newSize k : ℕ) : Prop where
  onVolume : OnVolume g img'
  marks : ∀ b < g.blocksCount,
    marked img' b = (marked img b || decide (b ∈ (freeBlocks g img).take k))
  size : sizeOfNode g img' n = newSize
  linked : Linked (linkOf g img') (blocksOf g img n ++ (freeBlocks g img).take k)
  last : (blocksOf g img n ++ (freeBlocks g img).take k).getLast? = some (lastOf g img' n)
  lastLink : linkOf g img' (lastOf g img' n) = linkOf g img (lastOf g img' n)
  others : ∀ b, g.root ≤ b → b ∉ blocksOf g img n ++ (freeBlocks g img).take k →
    AgreeOn g img img' b
  data : ∀ b o m, g.root ≤ b → (b ≠ n ∧ sizeofINode ≤ o ∨ sizeofINodeMain ≤ o) →
    o + m ≤ g.blockSize → blockSlice g img' b o m = blockSlice g img b o m
  flags : flagsOf g img' n = flagsOf g img n

section Grow

variable {g : Geometry} {img : Image} {live : Finset ℕ} {n newSize k : ℕ}

/-- The blocks that are taken are data blocks outside every chain. -/
theorem taken_free (h : Owned g img live) {b : ℕ} (hb : b ∈ (freeBlocks g img).take k) :
    g.root ≤ b ∧ b < g.blocksCount ∧ marked img b = false := by
  have hmem := List.mem_of_mem_take hb
  exact ⟨h.free_ge_root hmem, (mem_freeBlocks.mp hmem).1, (mem_freeBlocks.mp hmem).2⟩

theorem grown_nodup (h : Owned g img live) (hn : n ∈ live) :
    (blocksOf g img n ++ (freeBlocks g img).take k).Nodup := by
  refine List.nodup_append.mpr ⟨(h.chains n hn).nodup,
    (freeBlocks_nodup g img).sublist (List.take_sublist _ _), fun b hb c hc hbc => ?_⟩
  subst hbc
  exact h.notMem_of_free hn (taken_free h hc).2.2 hb

theorem lastOf_mem (h : Owned g img live) (hn : n ∈ live) : lastOf g img n ∈ blocksOf g img n :=
  List.mem_of_getLast? (h.last n hn)

theorem linked_growImage (h : Owned g img live) (hn : n ∈ live) :
    Linked (linkOf g (growImage g img n newSize k))
      (blocksOf g img n ++ (freeBlocks g img).take k) := by
  have hh := g.header_lt
  simp only [sizeofINodeMain] at hh
  obtain ⟨front, hfront⟩ := List.getLast?_eq_some_iff.mp (h.last n hn)
  have hnodup := grown_nodup (k := k) h hn
  have hchain := h.chains n hn
  rw [hfront] at hchain hnodup ⊢
  have hrange := hchain.range
  -- the links inside the old chain are kept
  have hkeep : Linked (linkOf g (growImage g img n newSize k)) (front ++ [lastOf g img n]) := by
    refine linked_congr hchain.linked fun x hx => ?_
    rw [List.dropLast_concat] at hx
    have hnot : x ∉ lastOf g img n :: (freeBlocks g img).take k := by
      rw [List.append_assoc, List.singleton_append] at hnodup
      exact fun hm => (List.nodup_append.mp hnodup).2.2 x hx x hm rfl
    rw [linkOf, fieldOf, (h.extendable hn).blockSlice_growImage (hrange x (by simp [hx])).1
      (by simp only [continuationInode]; omega)
      (Or.inr (Or.inl (by simp only [continuationInode, sizeField]; omega)))
      (Or.inr fun hm => hnot ((List.dropLast_sublist _).subset hm))]
    rfl
  have hnew := (h.extendable hn).linked_new_growImage newSize k
  refine linked_append.mpr ⟨hkeep, hnew.tail, ?_⟩
  intro x hx y hy
  rw [List.getLast?_concat, Option.mem_some] at hx
  subst hx
  cases htake : (freeBlocks g img).take k with
  | nil => simp [htake] at hy
  | cons z l =>
    rw [htake] at hnew hy
    obtain rfl : z = y := by simpa using hy
    exact hnew.next_eq

theorem grown_growImage (h : Owned g img live) (hn : n ∈ live) (hs : newSize < wordSize) :
    Grown g img (growImage g img n newSize k) n newSize k := by
  have hh := g.header_lt
  simp only [sizeofINodeMain] at hh
  have hlastmem := lastOf_mem h hn
  have hlast : (blocksOf g img n ++ (freeBlocks g img).take k).getLast? =
      some (lastOf g (growImage g img n newSize k) n) := by
    obtain ⟨front, hfront⟩ := List.getLast?_eq_some_iff.mp (h.last n hn)
    rw [hfront, (h.extendable hn).lastOf_growImage, List.append_assoc, List.singleton_append,
      List.getLast?_append_of_ne_nil _ (by simp), List.getLast?_eq_some_getLast (by simp)]
  have hlastrange : g.root ≤ lastOf g (growImage g img n newSize k) n := by
    rcases List.mem_append.mp (List.mem_of_getLast? hlast) with hm | hm
    · exact ((h.chains n hn).range _ hm).1
    · exact (taken_free h hm).1
  have he := h.extendable hn
  refine ⟨he.onVolume_growImage, fun b hb => he.marked_growImage (by omega),
    he.sizeOfNode_growImage hs, linked_growImage h hn, hlast, ?_, ?_, ?_, ?_⟩
  · have hnotin : lastOf g (growImage g img n newSize k) n ∉
        (lastOf g img n :: (freeBlocks g img).take k).dropLast := by
      intro hm
      refine ne_getLast_of_mem_dropLast he.links_nodup hm ?_ rfl
      rw [he.lastOf_growImage, List.getLast?_eq_some_getLast]
    rw [linkOf, fieldOf, he.blockSlice_growImage hlastrange (by simp only [continuationInode]; omega)
      (Or.inr (Or.inl (by simp only [continuationInode, sizeField]; omega))) (Or.inr hnotin)]
    rfl
  · intro b hb hnot o m hom
    rw [List.mem_append, not_or] at hnot
    refine he.blockSlice_growImage hb hom (Or.inl ?_) (Or.inr fun hm => ?_)
    · rintro rfl
      exact hnot.1 (self_mem_blocksOf g img b)
    · rcases List.mem_cons.mp ((List.dropLast_sublist _).subset hm) with heq | hmem
      · exact hnot.1 (heq ▸ hlastmem)
      · exact hnot.2 hmem
  · intro b o m hb hcase hom
    simp only [sizeofINode, sizeofINodeMain] at hcase
    refine he.blockSlice_growImage hb hom ?_ (Or.inl (by simp only [sizeofINode]; omega))
    rcases hcase with ⟨hne, -⟩ | ho
    · exact Or.inl hne
    · exact Or.inr (Or.inr (Or.inr (by simp only [lastInodeField]; omega)))
  · rw [flagsOf_eq, he.blockSlice_growImage (h.mem_range hn).1 (by simp only [flagsField]; omega)
      (Or.inr (Or.inr (Or.inl (by simp only [flagsField, sizeField, lastInodeField]; omega))))
      (Or.inl (by simp only [sizeofINode, flagsField]; omega)), flagsOf_eq]

/-- The number of blocks that a new size adds. -/
def extraBlocks (g : Geometry) (img : Image) (n newSize : ℕ) : ℕ :=
  g.blocksRequired newSize - g.blocksRequired (sizeOfNode g img n)

theorem oldBlocks_run (h : Owned g img live) (hn : n ∈ live) :
    getBlocksRequired (sizeOfNode g img n) img =
      .ok (g.blocksRequired (sizeOfNode g img n)) img := by
  have hb := h.size_bound hn
  have hlt := g.mapped_lt
  simp only [sizeofINodeMain] at hb
  exact getBlocksRequired_run h.onVolume (show sizeOfNode g img n + 21 ≤ wordSize by omega)

/-- Growing takes place when enough blocks are free. -/
theorem truncateFile_grow_run (h : Owned g img live) (hn : n ∈ live) (fuel : ℕ)
    (hs : newSize + 21 ≤ wordSize) (hle : sizeOfNode g img n ≤ newSize)
    (hfree : extraBlocks g img n newSize ≤ (freeBlocks g img).length) :
    truncateFile fuel n newSize img =
      .ok () (growImage g img n newSize (extraBlocks g img n newSize)) := by
  have hmono := g.blocksRequired_mono hle
  have hnew := getBlocksRequired_run h.onVolume hs
  by_cases hlt : g.blocksRequired (sizeOfNode g img n) < g.blocksRequired newSize
  · have hsum : g.blocksRequired (sizeOfNode g img n) + extraBlocks g img n newSize =
        g.blocksRequired newSize := Nat.add_sub_cancel' hmono
    rw [← hsum] at hnew
    exact (h.extendable hn).truncateFile_run fuel (oldBlocks_run h hn) hnew
      (Nat.sub_pos_of_lt hlt) hfree
  · have hh := g.header_lt
    simp only [sizeofINodeMain] at hh
    have hk : extraBlocks g img n newSize = 0 := by simp only [extraBlocks]; omega
    rw [truncateFile, bind_of_ok (h.inode_run hn), bind_of_ok (h.size_run hn),
      bind_of_ok (oldBlocks_run h hn), bind_of_ok hnew,
      bind_of_ok (setField_run h.onVolume _ (h.mem_range hn).2 (by simp only [sizeField]; omega)),
      if_neg hlt, if_neg (by omega), pure_run, growImage, if_pos hk]

/-- What a node that ran out of blocks while it grew leaves behind. -/
structure Exhausted (g : Geometry) (img' : Image) (n newSize : ℕ) : Prop where
  size : sizeOfNode g img' n = newSize
  full : ∀ b < g.blocksCount, marked img' b = true

theorem exhausted_extendImage (h : Owned g img live) (hn : n ∈ live) (hs : newSize < wordSize) :
    Exhausted g (extendImage g (img.putBlock g .field n sizeField (leBytes 8 newSize))
      (lastOf g img n) (freeBlocks g img)) n newSize where
  size := by
    have hh := g.header_lt
    simp only [sizeofINodeMain] at hh
    rw [sizeOfNode, fieldOf, blockSlice_extendImage (fun x hx => (mem_freeBlocks.mp hx).1)
      (h.mem_range hn).1 (by simp only [sizeField]; omega)
      (Or.inl (by simp only [sizeofINode, sizeField]; omega))]
    exact fieldOf_putBlock_self hs _
  full := by
    intro b hb
    rw [marked_extendImage ((h.chains n hn).range _ (lastOf_mem h hn)).1
      (fun x hx => h.free_ge_root hx) (by omega), marked_putBlock (h.mem_range hn).1 hb]
    cases hm : marked img b with
    | true => rfl
    | false => simp [mem_freeBlocks, hb, hm]

/-- With too few free blocks growing ends in the report of it. -/
theorem truncateFile_grow_noRoom (h : Owned g img live) (hn : n ∈ live) (fuel : ℕ)
    (hs : newSize + 21 ≤ wordSize)
    (hfree : (freeBlocks g img).length < extraBlocks g img n newSize) :
    ∃ e img', e.NoRoom ∧ truncateFile fuel n newSize img = .error (.die e) img' ∧
      Exhausted g img' n newSize := by
  have hnew := getBlocksRequired_run h.onVolume hs
  have hsum : g.blocksRequired (sizeOfNode g img n) + extraBlocks g img n newSize =
      g.blocksRequired newSize := by
    simp only [extraBlocks] at *
    omega
  rw [← hsum] at hnew
  obtain ⟨e, hroom, hrun⟩ := (h.extendable hn).truncateFile_noRoom fuel (oldBlocks_run h hn) hnew
    (by omega) hfree
  exact ⟨e, _, hroom, hrun, exhausted_extendImage h hn (by omega)⟩

/-- With too few free blocks growing ends in an error report. -/
theorem truncateFile_grow_full (h : Owned g img live) (hn : n ∈ live) (fuel : ℕ)
    (hs : newSize + 21 ≤ wordSize)
    (hfree : (freeBlocks g img).length < extraBlocks g img n newSize) :
    ∃ e img', truncateFile fuel n newSize img = .error (.die e) img' ∧
      Exhausted g img' n newSize := by
  obtain ⟨e, img', -, hrun, hfull⟩ := truncateFile_grow_noRoom h hn fuel hs hfree
  exact ⟨e, img', hrun, hfull⟩

end Grow

namespace Grown

variable {g : Geometry} {img img' : Image} {live : Finset ℕ} {n newSize : ℕ}

/-- The chain of a grown node is the old one followed by the new blocks. -/
theorem blocksOf_eq (hg : Grown g img img' n newSize (extraBlocks g img n newSize))
    (hle : sizeOfNode g img n ≤ newSize)
    (hfree : extraBlocks g img n newSize ≤ (freeBlocks g img).length) :
    blocksOf g img' n = blocksOf g img n ++ (freeBlocks g img).take (extraBlocks g img n newSize) := by
  obtain ⟨rest, hrest⟩ := blocksOf_cons g img n
  have hmono := g.blocksRequired_mono hle
  refine chain_eq hg.linked (by simp [hrest]) ?_
  rw [List.length_append, blocksOf_length, List.length_take, hg.size]
  simp only [extraBlocks] at *
  omega

theorem nodeStep (hg : Grown g img img' n newSize (extraBlocks g img n newSize))
    (h : Owned g img live) (hn : n ∈ live) (hle : sizeOfNode g img n ≤ newSize)
    (hfree : extraBlocks g img n newSize ≤ (freeBlocks g img).length) : NodeStep g img img' n where
  onVolume := hg.onVolume
  flags := hg.flags
  range := by
    rw [hg.blocksOf_eq hle hfree]
    intro b hb
    rcases List.mem_append.mp hb with hb | hb
    · exact (h.chains n hn).range b hb
    · exact ⟨(taken_free h hb).1, (taken_free h hb).2.1⟩
  nodup := by
    rw [hg.blocksOf_eq hle hfree]
    exact grown_nodup h hn
  last := by
    rw [hg.blocksOf_eq hle hfree]
    exact hg.last
  fresh := by
    rw [hg.blocksOf_eq hle hfree]
    intro b hb hold
    exact (taken_free h ((List.mem_append.mp hb).resolve_left hold)).2.2
  marks := by
    intro b hb
    rw [hg.marks b hb, hg.blocksOf_eq hle hfree, Bool.or_eq_true, decide_eq_true_eq,
      List.mem_append]
    by_cases hold : b ∈ blocksOf g img n
    · simp [hold, h.used n hn b hold]
    · simp only [hold, false_or, not_false_eq_true, and_true]
      exact Or.comm
  others := by
    rw [hg.blocksOf_eq hle hfree]
    exact hg.others

/-- Growing changes no data byte of the chain. -/
theorem payload_eq (hg : Grown g img img' n newSize (extraBlocks g img n newSize))
    (h : Owned g img live) (hn : n ∈ live) (hle : sizeOfNode g img n ≤ newSize)
    (hfree : extraBlocks g img n newSize ≤ (freeBlocks g img).length) :
    payload g img' sizeofINodeMain (blocksOf g img' n) =
      payload g img sizeofINodeMain (blocksOf g img' n) := by
  have hh := g.header_lt
  have hstep := hg.nodeStep h hn hle hfree
  obtain ⟨rest, hrest⟩ := blocksOf_cons g img' n
  have hnd := hstep.nodup
  have hrange := hstep.range
  rw [hrest] at hnd hrange ⊢
  have hhead : blockSlice g img' n sizeofINodeMain (g.blockSize - sizeofINodeMain) =
      blockSlice g img n sizeofINodeMain (g.blockSize - sizeofINodeMain) :=
    hg.data n sizeofINodeMain _ (hrange n (by simp)).1 (Or.inr le_rfl)
      (Nat.add_sub_cancel' hh.le).le
  have htail : payload g img' sizeofINode rest = payload g img sizeofINode rest := by
    refine payload_congr le_rfl (by simp only [sizeofINode, sizeofINodeMain] at *; omega) ?_
    intro b hb o m ho hom
    refine hg.data b o m (hrange b (List.mem_cons_of_mem _ hb)).1 (Or.inl ⟨?_, ho⟩) hom
    rintro rfl
    exact (List.nodup_cons.mp hnd).1 hb
  rw [payload, payload, hhead, htail]

end Grown

end KisLinux.Fs
