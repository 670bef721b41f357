import KisLinux.FsWellFormed

/-!
# Writing, reading back, and writes that fail

A write that completes is an `overwrite` of the file's bytes, and every later read
is a piece of them. A write that runs out of blocks has stored the new size by
then; only the refusals in front of that store leave the volume as it was.
-/
namespace KisLinux.Fs
open ByteMemory StateRun

section Law

variable {g : Geometry} {img img' : Image} {live : Finset ℕ} {n o fuel : ℕ} {d : List UInt8}

/-- What a node shows to its readers. -/
structure SameNode (g : Geometry) (img img' : Image) (n : ℕ) : Prop where
  size : sizeOfNode g img' n = sizeOfNode g img n
  flags : flagsOf g img' n = flagsOf g img n
  blocks : blocksOf g img' n = blocksOf g img n
  content : content g img' n = content g img n

theorem SameNode.refl (g : Geometry) (img : Image) (n : ℕ) : SameNode g img img n := ⟨rfl, rfl, rfl, rfl⟩

theorem Kept.sameNode (h : Kept g img img' n) : SameNode g img img' n :=
  ⟨h.self.size_eq, h.self.flags_eq, h.blocksOf_eq, h.content_eq⟩

/-- `write_file` followed by any `read_file`. The buffer `d` and the mapping are
in one address space. -/
theorem writeFile_readFile (h : Owned g img live) (hn : n ∈ live) (hd : d ≠ [])
    (hbuf : d.length + img.mapped ≤ wordSize) (ho : o ≤ sizeOfNode g img n)
    (hrun : writeFile fuel n o d img = .ok () img') :
    Owned g img' live ∧ sizeOfNode g img' n = max (sizeOfNode g img n) (o + d.length) ∧
    (∀ p len, p ≤ sizeOfNode g img' n → p + len < wordSize →
      readFile n p len img' = .ok (((overwrite (content g img n) o d).drop p).take len) img') ∧
    ∀ m ∈ live, m ≠ n → SameNode g img img' m := by
  rcases writeFile_ok h hn hbuf hrun with ⟨hnil, -⟩ | ⟨-, -, hw⟩
  · exact absurd hnil hd
  · have howned := hw.step.owned h hn
    refine ⟨howned, hw.size ho, fun p len hp hlen => ?_, fun m hm hne => ?_⟩
    · rw [readFile_run howned hn hp hlen, hw.content]
    · exact (hw.step.kept h hn hm hne).sameNode

/-- A write that fails was refused before it stored anything, or it ran out of
blocks with the new size in place. -/
theorem writeFile_error {e : Stop} (h : Owned g img live) (hn : n ∈ live)
    (hbuf : d.length + img.mapped ≤ wordSize) (hrun : writeFile fuel n o d img = .error e img') :
    (flagsOf g img n &&& flgFile = 0 ∨ sizeOfNode g img n < o) ∧ img' = img ∨
      flagsOf g img n &&& flgFile ≠ 0 ∧ o ≤ sizeOfNode g img n ∧
        sizeOfNode g img n < o + d.length ∧ Exhausted g img' n (o + d.length) := by
  rw [writeFile, bind_of_ok (h.inode_run hn), bind_of_ok (h.flags_run hn)] at hrun
  split at hrun
  · next hflags =>
    obtain ⟨-, rfl⟩ := EStateM.Result.error.inj hrun
    exact Or.inl ⟨Or.inl hflags, rfl⟩
  · next hflags =>
    by_cases hd : d = []
    · subst hd
      cases hrun
    by_cases ho : o ≤ sizeOfNode g img n
    · by_cases hroom : extraBlocks g img n (max (sizeOfNode g img n) (o + d.length)) ≤
          (freeBlocks g img).length
      · obtain ⟨img₁, hrun₁, -⟩ := writeFileUnchecked_run h hn fuel hd ho hbuf hroom
        rw [hrun₁] at hrun
        cases hrun
      · obtain ⟨e', img₁, hrun₁, hfull⟩ :=
          writeFileUnchecked_full h hn fuel hd ho hbuf (Nat.lt_of_not_le hroom)
        rw [hrun₁] at hrun
        obtain ⟨-, rfl⟩ := EStateM.Result.error.inj hrun
        refine Or.inr ⟨hflags, ho, ?_, hfull⟩
        by_contra hle
        rw [Nat.max_eq_left (by omega), extraBlocks, Nat.sub_self] at hroom
        exact hroom (Nat.zero_le _)
    · rw [writeFileUnchecked_past h hn fuel hd (Nat.lt_of_not_le ho)] at hrun
      obtain ⟨-, rfl⟩ := EStateM.Result.error.inj hrun
      exact Or.inl ⟨Or.inr (Nat.lt_of_not_le ho), rfl⟩

/-- `init_new_file` only fails when the volume is full, and stores nothing then. -/
theorem initNewFile_error {e : Stop} {flags : UInt8} (h : Owned g img live)
    (hrun : initNewFile flags img = .error e img') : freeBlocks g img = [] ∧ img' = img := by
  cases hf : freeBlocks g img with
  | nil =>
    obtain ⟨e', hrun'⟩ := initNewFile_full h flags hf
    rw [hrun'] at hrun
    exact ⟨rfl, (EStateM.Result.error.inj hrun).2.symm⟩
  | cons b rest =>
    obtain ⟨img₁, hrun', -⟩ := initNewFile_run h flags hf
    rw [hrun'] at hrun
    cases hrun

/-- An item that could not be appended leaves the volume as it was or full. -/
theorem appendDirectory_error {e : Stop} {item : DirectoryItem} (h : Owned g img live) (hn : n ∈ live)
    (hfits : item.Fits) (hrun : appendDirectory fuel n item img = .error e img') :
    img' = img ∨ ∀ b < g.blocksCount, marked img' b = true := by
  by_cases hflags : flagsOf g img n &&& flgDirectory = 0
  · rw [appendDirectory_not h hn fuel item hflags] at hrun
    exact Or.inl (EStateM.Result.error.inj hrun).2.symm
  · by_cases hroom : extraBlocks g img n (sizeOfNode g img n + sizeofDirectoryItem) ≤
        (freeBlocks g img).length
    · obtain ⟨img₁, hrun', -⟩ := appendDirectory_run h hn fuel hfits hflags hroom
      rw [hrun'] at hrun
      cases hrun
    · obtain ⟨e', img₁, hrun', hfull⟩ :=
        appendDirectory_full h hn fuel hfits hflags (Nat.lt_of_not_le hroom)
      rw [hrun'] at hrun
      obtain ⟨-, rfl⟩ := EStateM.Result.error.inj hrun
      exact Or.inr hfull.full

end Law

/-! ## A small volume -/

/-- Three blocks of 64 bytes. -/
def smallVolume : Geometry where
  blockSize := 64
  blocksCount := 3
  root := 1
  header_lt := by decide
  metadata_le := by decide
  root_lt := by decide
  size_lt := by decide

/-- The header of a node that consists of the block `b`. -/
def header (b size : ℕ) (flags : UInt8) : List UInt8 :=
  leBytes 8 0 ++ leBytes 8 size ++ leBytes 4 0 ++ [flags] ++ leBytes 8 b

/-- An empty root directory and an empty file, with the byte `table` as lookup table. -/
def smallImage (table : UInt8) : Image where
  bytes a := (smallVolume.superblock ++ [table] ++ List.replicate 27 0 ++
    header 1 0 flgDirectory ++ List.replicate 35 0 ++ header 2 0 flgFile ++
      List.replicate 35 0).getD a 0
  mapped := 192
  stores := []

theorem smallImage_onVolume (table : UInt8) : OnVolume smallVolume (smallImage table) where
  mapped_eq := rfl
  superblock_eq := by
    have hlen : smallVolume.superblock.length = sizeofSuperblock := by decide
    simp only [smallImage, List.append_assoc]
    rw [← hlen]
    exact slice_getD_append _ _
  guarded := fun s hs => absurd hs List.not_mem_nil

/-- The chains of live nodes, without a word about the metadata blocks. -/
structure ChainsApart (g : Geometry) (img : Image) (live : Finset ℕ) : Prop where
  onVolume : OnVolume g img
  chains : ∀ n ∈ live, ChainOn g img (blocksOf g img n)
  used : ∀ n ∈ live, ∀ b ∈ blocksOf g img n, marked img b = true
  disjoint : ∀ n ∈ live, ∀ m ∈ live, n ≠ m → List.Disjoint (blocksOf g img n) (blocksOf g img m)
  last : ∀ n ∈ live, (blocksOf g img n).getLast? = some (lastOf g img n)

theorem ChainsApart.owned {g : Geometry} {img : Image} {live : Finset ℕ} (h : ChainsApart g img live)
    (hmeta : ∀ b < g.root, marked img b = true) : Owned g img live :=
  ⟨h.onVolume, hmeta, h.chains, h.used, h.disjoint, h.last⟩

/-- Nodes that consist of their head are apart. -/
theorem ChainsApart.of_heads {g : Geometry} {img : Image} {live : Finset ℕ} (hv : OnVolume g img)
    (hrange : ∀ n ∈ live, g.root ≤ n ∧ n < g.blocksCount)
    (hheads : ∀ n ∈ live, blocksOf g img n = [n] ∧ marked img n = true ∧ lastOf g img n = n) :
    ChainsApart g img live where
  onVolume := hv
  chains := by
    intro n hn
    rw [(hheads n hn).1]
    refine ⟨List.IsChain.singleton _, fun b hb => ?_, List.nodup_singleton _⟩
    obtain rfl := List.mem_singleton.mp hb
    exact hrange b hn
  used := by
    intro n hn b hb
    rw [(hheads n hn).1] at hb
    obtain rfl := List.mem_singleton.mp hb
    exact (hheads b hn).2.1
  disjoint := by
    intro n hn m hm hne
    rw [(hheads n hn).1, (hheads m hm).1]
    simpa using Ne.symm hne
  last := by
    intro n hn
    rw [(hheads n hn).1, (hheads n hn).2.2]
    rfl

/-- All three blocks are taken. -/
theorem smallImage_owned : Owned smallVolume (smallImage 7) {1, 2} :=
  (ChainsApart.of_heads (smallImage_onVolume 7) (by decide) (by decide +kernel)).owned
    (by decide +kernel)

theorem writeFile_readFile_small : ∃ img',
    writeFile 0 2 0 [104, 105] (smallImage 7) = .ok () img' ∧
      readFile 2 1 5 img' = .ok [105] img' := by
  obtain ⟨u, hrun⟩ := of_returned (r := writeFile 0 2 0 [104, 105] (smallImage 7)) (by decide +kernel)
  have hcontent : content smallVolume (smallImage 7) 2 = [] := by decide +kernel
  obtain ⟨-, hsize, hread, -⟩ := writeFile_readFile smallImage_owned (by decide) (List.cons_ne_nil _ _)
    (by decide) (Nat.zero_le _) hrun
  have hone := hread 1 5 (by rw [hsize]; decide +kernel) (by decide)
  rw [hcontent] at hone
  exact ⟨_, hrun, hone⟩

/-- Where the metadata block is not marked, a growing file gets it: the second
chunk of the data lands in the superblock. -/
theorem writeFile_readFile_unmarked :
    ¬ ∀ (g : Geometry) (img img' : Image) (live : Finset ℕ) (n o fuel : ℕ) (d : List UInt8),
      ChainsApart g img live → n ∈ live → d ≠ [] → o ≤ sizeOfNode g img n →
      o + d.length < wordSize → writeFile fuel n o d img = .ok () img' →
      ∀ p len, p ≤ sizeOfNode g img' n → p + len < wordSize →
        readFile n p len img' = .ok (((overwrite (content g img n) o d).drop p).take len) img' := by
  intro hclaim
  obtain ⟨u, hrun⟩ := of_returned (r := writeFile 0 2 0 (List.replicate 36 0) (smallImage 6))
    (by decide +kernel)
  have hread := hclaim smallVolume (smallImage 6) _ {1, 2} 2 0 0 (List.replicate 36 0)
    (.of_heads (smallImage_onVolume 6) (by decide) (by decide +kernel)) (by decide) (by decide)
    (Nat.zero_le _) (by decide) hrun
    0 1 (Nat.zero_le _) (by decide)
  exact not_of_returned (by decide +kernel) _ _ hread

end KisLinux.Fs
