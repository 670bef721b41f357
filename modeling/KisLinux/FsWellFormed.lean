import KisLinux.FsDirectoryUpdate
import KisLinux.FsFuel
import Mathlib.Logic.Relation

/-!
# Well-formed volumes over whole runs

`WellFormed` ties chains, sizes, last blocks and the lookup table together, with
every chain ending in a zero link. The calls below keep all of it but the zero
link: growing links old blocks to a new one and never clears the link of the new
one, and shrinking leaves the kept block linked to a freed one. `Call.EndsZero`
is the condition under which the block that becomes last holds a zero.
-/
namespace KisLinux.Fs
open ByteMemory StateRun LinkedChain

structure WellFormed (g : Geometry) (img : Image) (live : Finset ℕ) : Prop where
  volume : OnVolume g img
  /-- The first `get_blocks_required(size)` blocks met from a live head are different
  data blocks, linked one behind the other. -/
  chains : ∀ n ∈ live, ChainOn g img (blocksOf g img n)
  ends : ∀ n ∈ live, ∀ b ∈ (blocksOf g img n).getLast?, linkOf g img b = 0
  last : ∀ n ∈ live, (blocksOf g img n).getLast? = some (lastOf g img n)
  disjoint : ∀ n ∈ live, ∀ m ∈ live, n ≠ m →
    List.Disjoint (blocksOf g img n) (blocksOf g img m)
  table : ∀ b < g.blocksCount, marked img b = true ↔
    b < g.root ∨ ∃ n ∈ live, b ∈ blocksOf g img n

namespace WellFormed

variable {g : Geometry} {img img' : Image} {live : Finset ℕ} {n : ℕ}

theorem owned (h : WellFormed g img live) : Owned g img live where
  onVolume := h.volume
  metadata := fun b hb => (h.table b (hb.trans g.root_lt)).mpr (Or.inl hb)
  chains := h.chains
  used := fun n hn b hb =>
    (h.table b ((h.chains n hn).range b hb).2).mpr (Or.inr ⟨n, hn, hb⟩)
  disjoint := h.disjoint
  last := h.last

theorem ended (h : WellFormed g img live) (hn : n ∈ live) : Ended g img n :=
  h.ends n hn _ (h.last n hn)

theorem of_owned (h : Owned g img live) (hend : ∀ n ∈ live, Ended g img n)
    (htable : ∀ b < g.blocksCount, marked img b = true →
      b < g.root ∨ ∃ n ∈ live, b ∈ blocksOf g img n) : WellFormed g img live where
  volume := h.onVolume
  chains := h.chains
  ends := by
    intro n hn b hb
    rw [h.last n hn, Option.mem_some] at hb
    exact hb ▸ hend n hn
  last := h.last
  disjoint := h.disjoint
  table := by
    refine fun b hb => ⟨htable b hb, ?_⟩
    rintro (hroot | ⟨n, hn, hmem⟩)
    · exact h.metadata b hroot
    · exact h.used n hn b hmem

theorem formatted {file : Memory} (h : Formatted g img file) : WellFormed g img {g.root} := by
  refine of_owned h.owned (by simpa using h.ended) fun b hb hm => ?_
  rcases Nat.lt_or_eq_of_le ((h.exact b hb).mp hm) with hlt | rfl
  · exact Or.inl hlt
  · exact Or.inr ⟨g.root, by simp, self_mem_blocksOf g img g.root⟩

/-- A step on one node keeps everything, provided its chain ends in a zero link. -/
theorem nodeStep (h : WellFormed g img live) (hn : n ∈ live) (hs : NodeStep g img img' n)
    (hend : linkOf g img' (lastOf g img' n) = 0) : WellFormed g img' live := by
  have ho := hs.owned h.owned hn
  have hkept : ∀ m ∈ live, m ≠ n → Kept g img img' m := fun m hm hne => hs.kept h.owned hn hm hne
  refine of_owned ho (fun m hm => ?_) (fun b hb hmark => ?_)
  · by_cases hmn : m = n
    · rw [hmn]
      exact hend
    · exact (hkept m hm hmn).ended h.owned hm (h.ended hm)
  · rcases (hs.marks b hb).mp hmark with hnew | ⟨hold, hnot⟩
    · exact Or.inr ⟨n, hn, hnew⟩
    · rcases (h.table b hb).mp hold with hroot | ⟨m, hm, hmem⟩
      · exact Or.inl hroot
      · have hmn : m ≠ n := by
          rintro rfl
          exact hnot hmem
        exact Or.inr ⟨m, hm, by rwa [(hkept m hm hmn).blocksOf_eq]⟩

theorem nodeStep_iff (h : WellFormed g img live) (hn : n ∈ live) (hs : NodeStep g img img' n)
    (hlast : linkOf g img' (lastOf g img' n) = linkOf g img (lastOf g img' n)) :
    WellFormed g img' live ↔ ∀ b ∈ (blocksOf g img' n).getLast?, linkOf g img b = 0 := by
  rw [hs.last]
  simp only [Option.mem_some, forall_eq', ← hlast]
  exact ⟨fun h' => h'.ended hn, h.nodeStep hn hs⟩

theorem created {b : ℕ} {flags : UInt8} (h : WellFormed g img live)
    (hc : Created g img img' b flags) : WellFormed g img' (insert b live) := by
  refine of_owned (hc.owned h.owned) (fun m hm => ?_) (fun x hx hmark => ?_)
  · rcases Finset.mem_insert.mp hm with rfl | hm
    · exact hc.ended
    · exact (hc.kept h.owned hm).ended h.owned hm (h.ended hm)
  · rcases (hc.marks x hx).mp hmark with rfl | hold
    · exact Or.inr ⟨x, Finset.mem_insert_self _ _, self_mem_blocksOf g img' x⟩
    · rcases (h.table x hx).mp hold with hroot | ⟨m, hm, hmem⟩
      · exact Or.inl hroot
      · exact Or.inr ⟨m, Finset.mem_insert_of_mem hm, by rwa [(hc.kept h.owned hm).blocksOf_eq]⟩

theorem freed (h : WellFormed g img live) (hn : n ∈ live)
    (hf : Freed g img img' (blocksOf g img n)) : WellFormed g img' (live.erase n) := by
  have hsub : live.erase n ⊆ live := Finset.erase_subset n live
  have hkept : ∀ m ∈ live, Kept g img img' m := fun m hm => hf.kept (h.chains m hm)
  have ho : Owned g img' (live.erase n) := by
    refine h.owned.kept hsub hf.onVolume (fun b hb => ?_) (fun m hm => hkept m (hsub hm))
      (fun m hm b hb => ?_)
    · have hroot := g.root_lt
      refine (hf.marks b (by omega)).mpr ⟨h.owned.metadata b hb, fun hm => ?_⟩
      have := ((h.chains n hn).range b hm).1
      omega
    · refine (hf.marks b ((h.chains m (hsub hm)).range b hb).2).mpr
        ⟨h.owned.used m (hsub hm) b hb, fun hb' => ?_⟩
      exact Finset.ne_of_mem_erase hm (h.owned.eq_of_mem (hsub hm) hn hb hb')
  refine of_owned ho (fun m hm => ?_) (fun b hb hmark => ?_)
  · exact (hkept m (hsub hm)).ended h.owned (hsub hm) (h.ended (hsub hm))
  · obtain ⟨hold, hnot⟩ := (hf.marks b hb).mp hmark
    rcases (h.table b hb).mp hold with hroot | ⟨m, hm, hmem⟩
    · exact Or.inl hroot
    · have hmn : m ≠ n := by
        rintro rfl
        exact hnot hmem
      exact Or.inr ⟨m, Finset.mem_erase.mpr ⟨hmn, hm⟩, by rwa [(hkept m hm).blocksOf_eq]⟩

end WellFormed

/-! ## What a successful call did -/

section Calls

variable {g : Geometry} {img img' : Image} {live : Finset ℕ} {n o e fuel : ℕ} {d : List UInt8}

theorem initNewFile_ok {b : ℕ} {flags : UInt8} (h : Owned g img live)
    (hrun : initNewFile flags img = .ok b img') : Created g img img' b flags := by
  cases hf : freeBlocks g img with
  | nil =>
    obtain ⟨e, he⟩ := initNewFile_full h flags hf
    rw [he] at hrun
    cases hrun
  | cons c rest =>
    obtain ⟨img₁, hrun₁, hc⟩ := initNewFile_run h flags hf
    rw [hrun₁] at hrun
    obtain ⟨rfl, rfl⟩ := EStateM.Result.ok.inj hrun
    exact hc

theorem writeFileUnchecked_ok (h : Owned g img live) (hn : n ∈ live) (hd : d ≠ [])
    (hfit : d.length + img.mapped ≤ wordSize)
    (hrun : writeFileUnchecked fuel n o d img = .ok () img') :
    o ≤ sizeOfNode g img n ∧ Written g img img' n o d := by
  by_cases ho : o ≤ sizeOfNode g img n
  · by_cases hroom : extraBlocks g img n (max (sizeOfNode g img n) (o + d.length)) ≤
        (freeBlocks g img).length
    · obtain ⟨img₁, hrun₁, hw⟩ := writeFileUnchecked_run h hn fuel hd ho hfit hroom
      rw [hrun₁] at hrun
      obtain ⟨-, rfl⟩ := EStateM.Result.ok.inj hrun
      exact ⟨ho, hw⟩
    · obtain ⟨e, img₁, hrun₁, -⟩ := writeFileUnchecked_full h hn fuel hd ho hfit (by omega)
      rw [hrun₁] at hrun
      cases hrun
  · rw [writeFileUnchecked_past h hn fuel hd (by omega)] at hrun
    cases hrun

theorem writeFile_ok (h : Owned g img live) (hn : n ∈ live)
    (hfit : d.length + img.mapped ≤ wordSize) (hrun : writeFile fuel n o d img = .ok () img') :
    d = [] ∧ img' = img ∨ d ≠ [] ∧ o ≤ sizeOfNode g img n ∧ Written g img img' n o d := by
  rw [writeFile, bind_of_ok (h.inode_run hn), bind_of_ok (h.flags_run hn)] at hrun
  split at hrun
  · cases hrun
  · by_cases hd : d = []
    · subst hd
      rw [writeFileUnchecked_nil] at hrun
      obtain ⟨-, rfl⟩ := EStateM.Result.ok.inj hrun
      exact Or.inl ⟨rfl, rfl⟩
    · exact Or.inr ⟨hd, writeFileUnchecked_ok h hn hd hfit hrun⟩

theorem appendDirectory_ok {item : DirectoryItem} (h : Owned g img live) (hn : n ∈ live)
    (hfits : item.Fits) (hrun : appendDirectory fuel n item img = .ok () img') :
    Written g img img' n (sizeOfNode g img n) item.encode := by
  by_cases hflags : flagsOf g img n &&& flgDirectory = 0
  · rw [appendDirectory_not h hn fuel item hflags] at hrun
    cases hrun
  · rw [appendDirectory_eq h hn fuel item hflags] at hrun
    exact (writeFileUnchecked_ok h hn (encode_ne_nil item) (item_fits_word h hfits) hrun).2

theorem removeFromDirectory_ok {name : List UInt8} (h : Owned g img live) (hn : n ∈ live)
    (hend : Ended g img n) (hrun : removeFromDirectory fuel n name img = .ok e img') :
    IsDirectory g img n ∧ e < (itemsOf g img n).length ∧ Removed g img img' n e := by
  by_cases hd : IsDirectory g img n
  · have hbig := removeFromDirectory_mono (Nat.le_max_left fuel g.blocksCount) n name _ _ _ hrun
    have hread := readDirectory_run h hn hd
    have hsearch := hbig
    rw [removeFromDirectory, bind_of_ok hread] at hsearch
    obtain ⟨e', s, hfind, hsearch⟩ := bind_eq_ok.mp hsearch
    obtain ⟨-, hlt, rfl⟩ := findItem_ok hfind
    obtain ⟨img₁, hrun₁, hr⟩ := removeFromDirectory_run h hn hd hend
      (Nat.le_max_right fuel g.blocksCount) hfind
    rw [hrun₁] at hbig
    obtain ⟨rfl, rfl⟩ := EStateM.Result.ok.inj hbig
    exact ⟨hd, by simpa using hlt, hr⟩
  · obtain ⟨err, hread⟩ := readDirectory_not h hn hd
    rw [removeFromDirectory, bind_of_error hread] at hrun
    cases hrun

/-- `purge_file` on a node that is not a directory frees its chain. -/
theorem purgeFile_plain (h : Owned g img live) (hn : n ∈ live) (hend : Ended g img n)
    (hflags : flagsOf g img n &&& flgDirectory = 0) (hf : g.blocksCount < fuel) :
    ∃ img', purgeFile fuel n img = .ok () img' ∧ Freed g img img' (blocksOf g img n) := by
  obtain ⟨fuel, rfl⟩ : ∃ k, fuel = k + 1 := ⟨fuel - 1, by omega⟩
  have hf' : g.blocksCount ≤ fuel := by omega
  refine ⟨_, ?_, Freed.unmarkAll h.onVolume fun b hb => ((h.chains n hn).range b hb).2⟩
  rw [purgeFile, bind_of_ok (h.inode_run hn), bind_of_ok (h.flags_run hn),
    if_neg (by simpa using hflags)]
  exact purgeBlocks_node h hn hend hf'

end Calls

/-! ## Runs of calls -/

inductive Call
  | initNewFile (flags : UInt8)
  | writeFile (node offset : ℕ) (data : List UInt8)
  | appendDirectory (node : ℕ) (item : DirectoryItem)
  | removeFromDirectory (node : ℕ) (name : List UInt8)
  | purgeFile (node : ℕ)
  deriving DecidableEq, Repr

/-- An image with the nodes that are live on it: the root and what `init_new_file`
returned and `purge_file` did not take. -/
structure Volume where
  img : Image
  live : Finset ℕ

/-- A successful call on live nodes. A buffer lies beside the mapping in one
address space; `purge_file` is only called on a file. -/
inductive Call.Step (g : Geometry) : Volume → Call → Volume → Prop
  | initNewFile {img img' : Image} {live : Finset ℕ} {flags : UInt8} {b : ℕ}
      (run : Fs.initNewFile flags img = .ok b img') :
      Step g ⟨img, live⟩ (.initNewFile flags) ⟨img', insert b live⟩
  | writeFile {img img' : Image} {live : Finset ℕ} {n o fuel : ℕ} {d : List UInt8}
      (mem : n ∈ live) (fits : d.length + img.mapped ≤ wordSize)
      (run : Fs.writeFile fuel n o d img = .ok () img') :
      Step g ⟨img, live⟩ (.writeFile n o d) ⟨img', live⟩
  | appendDirectory {img img' : Image} {live : Finset ℕ} {n fuel : ℕ} {item : DirectoryItem}
      (mem : n ∈ live) (fits : item.Fits)
      (run : Fs.appendDirectory fuel n item img = .ok () img') :
      Step g ⟨img, live⟩ (.appendDirectory n item) ⟨img', live⟩
  | removeFromDirectory {img img' : Image} {live : Finset ℕ} {n e fuel : ℕ} {name : List UInt8}
      (mem : n ∈ live) (run : Fs.removeFromDirectory fuel n name img = .ok e img') :
      Step g ⟨img, live⟩ (.removeFromDirectory n name) ⟨img', live⟩
  | purgeFile {img img' : Image} {live : Finset ℕ} {n fuel : ℕ}
      (mem : n ∈ live) (file : flagsOf g img n &&& flgDirectory = 0)
      (run : Fs.purgeFile fuel n img = .ok () img') :
      Step g ⟨img, live⟩ (.purgeFile n) ⟨img', live.erase n⟩

/-- The chain of a node once it holds `newSize` bytes. -/
def grownBlocks (g : Geometry) (img : Image) (n newSize : ℕ) : List ℕ :=
  blocksOf g img n ++ (freeBlocks g img).take (extraBlocks g img n newSize)

/-- The chain of a directory once one of its items is gone. -/
def rebuiltBlocks (g : Geometry) (img : Image) (n : ℕ) : List ℕ :=
  n :: (freeAfterTruncate g img n).take
    (g.blocksRequired (((itemsOf g img n).length - 1) * sizeofDirectoryItem) - 1)

/-- The block that ends the list holds a zero link. -/
def EndsInZero (g : Geometry) (img : Image) (l : List ℕ) : Prop :=
  ∀ b ∈ l.getLast?, linkOf g img b = 0

instance (g : Geometry) (img : Image) (l : List ℕ) : Decidable (EndsInZero g img l) :=
  inferInstanceAs (Decidable (∀ b ∈ l.getLast?, linkOf g img b = 0))

/-- Before the call, the block that will end the chain it works on links to nothing. -/
def Call.EndsZero (g : Geometry) (img : Image) : Call → Prop
  | .initNewFile _ => True
  | .writeFile n o d =>
    d ≠ [] → EndsInZero g img (grownBlocks g img n (max (sizeOfNode g img n) (o + d.length)))
  | .appendDirectory n _ =>
    EndsInZero g img (grownBlocks g img n (sizeOfNode g img n + sizeofDirectoryItem))
  | .removeFromDirectory n _ => EndsInZero g img (rebuiltBlocks g img n)
  | .purgeFile _ => True

/-- A call keeps the volume well-formed exactly when its chain ends in zero. -/
theorem Call.Step.wellFormed_iff {g : Geometry} {s s' : Volume} {c : Call} (hs : c.Step g s s')
    (h : WellFormed g s.img s.live) : WellFormed g s'.img s'.live ↔ c.EndsZero g s.img := by
  cases hs with
  | initNewFile run => exact iff_of_true (h.created (initNewFile_ok h.owned run)) trivial
  | writeFile mem fits run =>
    rcases writeFile_ok h.owned mem fits run with ⟨hd, rfl⟩ | ⟨hd, ho, hw⟩
    · exact iff_of_true h fun hd' => absurd hd hd'
    · rw [h.nodeStep_iff mem hw.step hw.lastLink, hw.blocks]
      exact ⟨fun hend _ => hend, fun hend => hend hd⟩
  | appendDirectory mem fits run =>
    have hw := appendDirectory_ok h.owned mem fits run
    rw [h.nodeStep_iff mem hw.step hw.lastLink, hw.blocks,
      Nat.max_eq_right (Nat.le_add_right _ _), fits.encode_length]
    exact Iff.rfl
  | removeFromDirectory mem run =>
    obtain ⟨-, -, hr⟩ := removeFromDirectory_ok h.owned mem (h.ended mem) run
    rw [h.nodeStep_iff mem hr.step hr.lastLink, hr.blocks]
    exact Iff.rfl
  | @purgeFile img img' live n fuel mem file run =>
    have hbig := purgeFile_mono (Nat.le_max_left fuel (g.blocksCount + 1)) n _ _ _ run
    obtain ⟨img₁, hrun₁, hf⟩ := purgeFile_plain h.owned mem (h.ended mem) file
      (show g.blocksCount < max fuel (g.blocksCount + 1) by omega)
    rw [hrun₁] at hbig
    obtain ⟨-, rfl⟩ := EStateM.Result.ok.inj hbig
    exact iff_of_true (h.freed mem hf) trivial

/-- One call of a run, in a state that meets the condition. -/
def SafeStep (g : Geometry) (s s' : Volume) : Prop := ∃ c : Call, c.Step g s s' ∧ c.EndsZero g s.img

/-- The geometry that `init_fs` gives a volume. -/
structure Geometry.Describes (g : Geometry) (os : Platform) (size : ℕ) (fs : FsDescriptors) :
    Prop where
  blockSize_eq : g.blockSize = os.pageSize
  blocksCount_eq : g.blocksCount = pagesCount os size
  root_eq : g.root = fs.rootInode

theorem Geometry.Describes.formatted {g : Geometry} {os : Platform} {size : ℕ} {fs : FsDescriptors}
    {file : List UInt8} {img : Image} (hg : g.Describes os size fs)
    (h : initFs os file size = .ok (fs, img)) : Formatted g img fun a => file.getD a 0 := by
  obtain ⟨g', hbs, hcount, hroot, hf⟩ := initFs_ok h
  have hgg : g' = g := by
    cases g
    cases g'
    simp only [Geometry.mk.injEq]
    exact ⟨hbs.trans hg.blockSize_eq.symm, hcount.trans hg.blocksCount_eq.symm,
      hroot.trans hg.root_eq.symm⟩
  exact hgg ▸ hf

/-- Well-formedness is an invariant of safe steps. -/
theorem wellFormed_of_reach {g : Geometry} {s s' : Volume} (h : WellFormed g s.img s.live)
    (hr : Relation.ReflTransGen (SafeStep g) s s') : WellFormed g s'.img s'.live := by
  induction hr with
  | refl => exact h
  | tail _ hstep ih =>
    obtain ⟨c, hc, hzero⟩ := hstep
    exact (hc.wellFormed_iff ih).mpr hzero

end KisLinux.Fs
