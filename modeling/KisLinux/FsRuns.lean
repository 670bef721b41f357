import KisLinux.FsWellFormed

/-!
# Runs from a formatted file

What holds of every image that calls can lead to from `init_fs`, and the two
ways in which old bytes of the backing file break it: a node that grew into a
block with a non-zero link is not well-formed, and freeing it need not end.
-/
namespace KisLinux.Fs
open ByteMemory StateRun LinkedChain

/-- A system with pages of 4096 bytes on which every mapping succeeds. -/
def pagePlatform : Platform where
  pageSize := 4096
  canResize := fun size => decide (size < 2 ^ 63)
  canMap := fun _ => true
  header_lt := by decide
  canResize_lt := fun _ h => of_decide_eq_true h

/-- A backing file whose block 3 held a link to itself. -/
def loopedFile : List UInt8 := List.replicate 12288 0 ++ [3]

/-- Four blocks, the first for the superblock and the lookup table. -/
def fourBlocks : Geometry where
  blockSize := 4096
  blocksCount := 4
  root := 1
  header_lt := by decide
  metadata_le := by decide
  root_lt := by decide
  size_lt := by decide

theorem loopedFile_slice : slice (fun a => loopedFile.getD a 0) 12288 8 = [3, 0, 0, 0, 0, 0, 0, 0] := by
  have hbyte : ∀ i < 8, loopedFile.getD (12288 + i) 0 = [(3 : UInt8)].getD (12288 + i - 12288) 0 := by
    intro i _
    have hlen : (List.replicate 12288 (0 : UInt8)).length = 12288 := List.length_replicate
    rw [loopedFile, List.getD_eq_getElem?_getD, List.getElem?_append_right (by rw [hlen]; omega),
      hlen, List.getD_eq_getElem?_getD]
  have hslice : slice (fun a => loopedFile.getD a 0) 12288 8 =
      slice (fun a => [(3 : UInt8)].getD (a - 12288) 0) 12288 8 := slice_congr hbyte
  rw [hslice]
  decide

theorem loopedFile_formats :
    ((initFs pagePlatform loopedFile 16384).toOption.map fun r => r.1.rootInode) = some 1 := by
  decide +kernel

/-- The looped file after formatting and the creation of one file. -/
theorem loopedFile_created : ∃ fs img img₁, initFs pagePlatform loopedFile 16384 = .ok (fs, img) ∧
    fourBlocks.Describes pagePlatform 16384 fs ∧ Owned fourBlocks img {fs.rootInode} ∧
    initNewFile flgFile img = .ok 2 img₁ ∧ Created fourBlocks img img₁ 2 flgFile ∧
    freeBlocks fourBlocks img₁ = [3] ∧ linkOf fourBlocks img₁ 3 = 3 := by
  have hformat := loopedFile_formats
  cases hinit : initFs pagePlatform loopedFile 16384 with
  | error e =>
    rw [hinit] at hformat
    cases hformat
  | ok r =>
    obtain ⟨fs, img⟩ := r
    rw [hinit] at hformat
    have hroot : fs.rootInode = 1 := Option.some.inj hformat
    have hg : fourBlocks.Describes pagePlatform 16384 fs :=
      ⟨rfl, by decide +kernel, hroot.symm⟩
    have hf := hg.formatted hinit
    have hfree : freeBlocks fourBlocks img = [2, 3] := by
      have hmarks : ∀ b ∈ List.range 4, (!marked img b) = !decide (b ≤ 1) := by
        intro b hb
        rw [Bool.eq_iff_iff.mpr ((hf.exact b (List.mem_range.mp hb)).trans decide_eq_true_iff.symm)]
        rfl
      exact List.filter_congr hmarks
    obtain ⟨img₁, hrun, hc⟩ := initNewFile_run hf.owned flgFile hfree
    have hlink : linkOf fourBlocks img₁ 3 = 3 := by
      have hold := hf.rest 3 (by decide) continuationInode 8 (by decide)
      have hslice : blockSlice fourBlocks img 3 continuationInode 8 = [3, 0, 0, 0, 0, 0, 0, 0] :=
        hold.trans loopedFile_slice
      rw [(hc.others 3 (by decide) (by decide)).link_eq, linkOf, fieldOf, hslice]
      decide
    refine ⟨fs, img, img₁, rfl, hg, ?_, hrun, hc, ?_, hlink⟩
    · rw [hroot]
      exact hf.owned
    · have hmarks : ∀ b ∈ List.range 4, (!marked img₁ b) = !decide (b ≤ 2) := by
        intro b hb
        have hb4 := List.mem_range.mp hb
        have hiff : marked img₁ b = true ↔ b ≤ 2 := by
          rw [hc.marks b hb4, hf.exact b hb4]
          simp only [fourBlocks]
          omega
        rw [Bool.eq_iff_iff.mpr (hiff.trans decide_eq_true_iff.symm)]
      exact List.filter_congr hmarks

theorem writeFile_eq {g : Geometry} {img : Image} {live : Finset ℕ} {n : ℕ} (h : Owned g img live)
    (hn : n ∈ live) (fuel o : ℕ) (d : List UInt8) (hflags : flagsOf g img n &&& flgFile ≠ 0) :
    writeFile fuel n o d img = writeFileUnchecked fuel n o d img := by
  rw [writeFile, bind_of_ok (h.inode_run hn), bind_of_ok (h.flags_run hn), if_neg hflags]

/-- A file on the looped volume that is one byte longer than its first block holds. -/
theorem loopedFile_grown : ∃ fs img img₁ img₂,
    initFs pagePlatform loopedFile 16384 = .ok (fs, img) ∧
    fourBlocks.Describes pagePlatform 16384 fs ∧ Owned fourBlocks img {fs.rootInode} ∧
    initNewFile flgFile img = .ok 2 img₁ ∧ img₁.mapped = 16384 ∧
    (∀ fuel, writeFile fuel 2 0 (List.replicate 4068 0) img₁ = .ok () img₂) ∧
    Owned fourBlocks img₂ {2, fs.rootInode} ∧ blocksOf fourBlocks img₂ 2 = [2, 3] ∧
    linkOf fourBlocks img₂ 3 = 3 ∧ flagsOf fourBlocks img₂ 2 = flgFile := by
  obtain ⟨fs, img, img₁, hinit, hg, ho, hcreate, hc, hfree, hlink⟩ := loopedFile_created
  have ho₁ := hc.owned ho
  have hmem : 2 ∈ insert 2 ({fs.rootInode} : Finset ℕ) := Finset.mem_insert_self _ _
  have hmapped : img₁.mapped = 16384 := hc.onVolume.mapped_eq
  have hextra : extraBlocks fourBlocks img₁ 2 (max (sizeOfNode fourBlocks img₁ 2)
      (0 + (List.replicate 4068 (0 : UInt8)).length)) = 1 := by
    rw [extraBlocks, hc.size, List.length_replicate]
    decide
  have hrun : ∀ fuel, ∃ img₂, writeFileUnchecked fuel 2 0 (List.replicate 4068 0) img₁ = .ok () img₂ ∧
      Written fourBlocks img₁ img₂ 2 0 (List.replicate 4068 0) := by
    intro fuel
    refine writeFileUnchecked_run ho₁ hmem fuel (by rw [Ne, List.replicate_eq_nil_iff]; decide)
      (Nat.zero_le _) ?_ ?_
    · rw [hmapped, List.length_replicate]
      simp [wordSize]
    · rw [hextra, hfree]
      rfl
  obtain ⟨img₂, hrun₀, hw⟩ := hrun 0
  have hblocks : blocksOf fourBlocks img₂ 2 = [2, 3] := by
    rw [hw.blocks, hextra, hfree, hc.blocksOf_eq]
    rfl
  have hlast : lastOf fourBlocks img₂ 2 = 3 := by
    have := hw.step.last
    rw [hblocks] at this
    exact (Option.some.inj this).symm
  refine ⟨fs, img, img₁, img₂, hinit, hg, ho, hcreate, hmapped, fun fuel => ?_, hw.step.owned ho₁ hmem,
    hblocks, ?_, ?_⟩
  · rw [writeFile_eq ho₁ hmem fuel 0 _ (by rw [hc.flags]; decide)]
    exact writeFileUnchecked_mono (Nat.zero_le fuel) _ _ _ _ _ _ hrun₀
  · have := hw.lastLink
    rwa [hlast, hlink] at this
  · rw [hw.step.flags, hc.flags]

/-- A file that stays inside its first block, written on the looped volume. -/
theorem loopedFile_short : ∃ fs img img₂, initFs pagePlatform loopedFile 16384 = .ok (fs, img) ∧
    fourBlocks.Describes pagePlatform 16384 fs ∧
    Relation.ReflTransGen (SafeStep fourBlocks) ⟨img, {fs.rootInode}⟩
      ⟨img₂, insert 2 {fs.rootInode}⟩ ∧
    content fourBlocks img₂ 2 = [104, 105] ∧ flagsOf fourBlocks img₂ 2 = flgFile := by
  obtain ⟨fs, img, img₁, hinit, hg, ho, hcreate, hc, -, -⟩ := loopedFile_created
  have ho₁ := hc.owned ho
  have hmem : 2 ∈ insert 2 ({fs.rootInode} : Finset ℕ) := Finset.mem_insert_self _ _
  have hfit : [(104 : UInt8), 105].length + img₁.mapped ≤ wordSize := by
    rw [hc.onVolume.mapped_eq]
    decide
  have hextra : extraBlocks fourBlocks img₁ 2
      (max (sizeOfNode fourBlocks img₁ 2) (0 + [(104 : UInt8), 105].length)) = 0 := by
    rw [extraBlocks, hc.size]
    decide
  obtain ⟨img₂, hrun, hw⟩ := writeFileUnchecked_run (d := [104, 105]) ho₁ hmem 0 (by simp)
    (Nat.zero_le _) hfit (by rw [hextra]; exact Nat.zero_le _)
  have hwrite : writeFile 0 2 0 [104, 105] img₁ = .ok () img₂ := by
    rw [writeFile_eq ho₁ hmem 0 0 _ (by rw [hc.flags]; decide), hrun]
  have hzero : Call.EndsZero fourBlocks img₁ (.writeFile 2 0 [104, 105]) := by
    intro _ b hb
    rw [grownBlocks, hextra, List.take_zero, List.append_nil, hc.blocksOf_eq] at hb
    rw [← Option.some.inj hb]
    exact hc.link
  have hfirst : SafeStep fourBlocks ⟨img, {fs.rootInode}⟩ ⟨img₁, insert 2 {fs.rootInode}⟩ :=
    ⟨.initNewFile flgFile, .initNewFile hcreate, trivial⟩
  refine ⟨fs, img, img₂, hinit, hg, (Relation.ReflTransGen.single hfirst).tail
    ⟨.writeFile 2 0 [104, 105], .writeFile hmem hfit hwrite, hzero⟩, ?_, ?_⟩
  · rw [hw.content, hc.content_eq]
    rfl
  · rw [hw.step.flags, hc.flags]

/-- Safe calls only reach well-formed images, and any other call leaves them. -/
theorem wellFormed_of_run {os : Platform} {file : List UInt8} {size : ℕ} {fs : FsDescriptors}
    {img : Image} {g : Geometry} (h : initFs os file size = .ok (fs, img))
    (hg : g.Describes os size fs) {s : Volume}
    (hr : Relation.ReflTransGen (SafeStep g) ⟨img, {fs.rootInode}⟩ s) :
    WellFormed g s.img s.live ∧ ∀ c s', Call.Step g s c s' →
      (WellFormed g s'.img s'.live ↔ c.EndsZero g s.img) := by
  have hstart := WellFormed.formatted (hg.formatted h)
  rw [hg.root_eq] at hstart
  have hwf := wellFormed_of_reach hstart hr
  exact ⟨hwf, fun c s' hstep => hstep.wellFormed_iff hwf⟩

theorem wellFormed_of_run_short : ∃ fs img img₂,
    initFs pagePlatform loopedFile 16384 = .ok (fs, img) ∧
    content fourBlocks img₂ 2 = [104, 105] ∧
    WellFormed fourBlocks img₂ (insert 2 {fs.rootInode}) := by
  obtain ⟨fs, img, img₂, hinit, hg, hreach, hcontent, -⟩ := loopedFile_short
  exact ⟨fs, img, img₂, hinit, hcontent, (wellFormed_of_run hinit hg hreach).1⟩

theorem wellFormed_of_run_counterexample : ∃ fs img s,
    initFs pagePlatform loopedFile 16384 = .ok (fs, img) ∧
    fourBlocks.Describes pagePlatform 16384 fs ∧
    Relation.ReflTransGen (fun s s' => ∃ c, Call.Step fourBlocks s c s') ⟨img, {fs.rootInode}⟩ s ∧
    ¬ WellFormed fourBlocks s.img s.live := by
  obtain ⟨fs, img, img₁, img₂, hinit, hg, -, hcreate, hmapped, hwrite, -, hblocks, hlink, -⟩ :=
    loopedFile_grown
  refine ⟨fs, img, ⟨img₂, insert 2 {fs.rootInode}⟩, hinit, hg, ?_, fun hwf => ?_⟩
  · refine (Relation.ReflTransGen.single ⟨.initNewFile flgFile, .initNewFile hcreate⟩).tail ?_
    exact ⟨.writeFile 2 0 (List.replicate 4068 0), .writeFile (Finset.mem_insert_self _ _)
      (by rw [hmapped, List.length_replicate]; simp [wordSize]) (hwrite 0)⟩
  · have hzero := hwf.ends 2 (Finset.mem_insert_self _ _) 3 (by rw [hblocks]; rfl)
    rw [hlink] at hzero
    exact absurd hzero (by decide)

/-- On every image that safe calls reach, freeing a file ends: its chain, one
block for each block its size needs, starts at the file, is a list of different
blocks and stops at a zero link. -/
theorem purgeFile_terminates {os : Platform} {file : List UInt8} {size : ℕ} {fs : FsDescriptors}
    {img : Image} {g : Geometry} (h : initFs os file size = .ok (fs, img))
    (hg : g.Describes os size fs) {s : Volume}
    (hr : Relation.ReflTransGen (SafeStep g) ⟨img, {fs.rootInode}⟩ s) {n : ℕ} (hn : n ∈ s.live)
    (hfile : flagsOf g s.img n &&& flgDirectory = 0) :
    (∃ fuel img', purgeFile fuel n s.img = .ok () img') ∧
      n ∈ blocksOf g s.img n ∧ (blocksOf g s.img n).Nodup ∧ 0 ∉ blocksOf g s.img n ∧
        EndsInZero g s.img (blocksOf g s.img n) := by
  have hstart := WellFormed.formatted (hg.formatted h)
  rw [hg.root_eq] at hstart
  have hwf := wellFormed_of_reach hstart hr
  obtain ⟨img', hrun, -⟩ := purgeFile_plain hwf.owned hn (hwf.ended hn) hfile
    (Nat.lt_succ_self g.blocksCount)
  refine ⟨⟨_, img', hrun⟩, self_mem_blocksOf g s.img n, (hwf.chains n hn).nodup, ?_, hwf.ends n hn⟩
  intro hzero
  have hrange := (hwf.chains n hn).range 0 hzero
  have hroot := g.root_pos
  omega

theorem purgeFile_terminates_short : ∃ fs img img₂,
    initFs pagePlatform loopedFile 16384 = .ok (fs, img) ∧
    content fourBlocks img₂ 2 = [104, 105] ∧
    (∃ fuel img', purgeFile fuel 2 img₂ = .ok () img') ∧
      EndsInZero fourBlocks img₂ (blocksOf fourBlocks img₂ 2) := by
  obtain ⟨fs, img, img₂, hinit, hg, hreach, hcontent, hflags⟩ := loopedFile_short
  have hfile : flagsOf fourBlocks img₂ 2 &&& flgDirectory = 0 := by
    rw [hflags]
    decide
  obtain ⟨hends, -, -, -, hzero⟩ :=
    purgeFile_terminates hinit hg hreach (Finset.mem_insert_self _ _) hfile
  exact ⟨fs, img, img₂, hinit, hcontent, hends, hzero⟩

/-- The walk goes round a block that links to itself until the fuel is used up. -/
theorem purgeWalk_loop {g : Geometry} {img : Image} {b : ℕ} (h : OnVolume g img) (hb : g.root ≤ b)
    (hb' : b < g.blocksCount) (hlink : linkOf g img b = b) (fuel : ℕ) :
    ∃ img', purgeWalk fuel b (some (b * g.blockSize)) img = .error .diverged img' := by
  induction fuel generalizing img with
  | zero => exact ⟨img, rfl⟩
  | succ fuel ih =>
    have hh := g.header_lt
    have hroot := g.root_pos
    simp only [sizeofINodeMain] at hh
    have hfreed := Freed.mark h hb'
    have hnext := getField_run hfreed.onVolume (o := continuationInode) hb'
      (by simp only [continuationInode]; omega)
    have hlink' : linkOf g (img.mark b false) b = b := by rw [(hfreed.agree b hb).link_eq, hlink]
    have hinode := getNextInode_run hfreed.onVolume hb'
    rw [hlink', getInode_run hfreed.onVolume (by omega) hb'] at hinode
    rw [show fieldOf g (img.mark b false) b continuationInode = b from hlink'] at hnext
    obtain ⟨img', hrun⟩ := ih hfreed.onVolume hlink'
    exact ⟨img', by
      rw [purgeWalk, bind_of_ok (mark_run h _ hb'), bind_of_ok hnext, bind_of_ok hinode, hrun]⟩

theorem purgeFile_terminates_counterexample : ∃ fs img s,
    initFs pagePlatform loopedFile 16384 = .ok (fs, img) ∧
    fourBlocks.Describes pagePlatform 16384 fs ∧
    Relation.ReflTransGen (fun s s' => ∃ c, Call.Step fourBlocks s c s') ⟨img, {fs.rootInode}⟩ s ∧
    2 ∈ s.live ∧ flagsOf fourBlocks s.img 2 = flgFile ∧
    ∀ fuel, ∃ img', purgeFile fuel 2 s.img = .error .diverged img' := by
  obtain ⟨fs, img, img₁, img₂, hinit, hg, -, hcreate, hmapped, hwrite, ho, hblocks, hlink, hflags⟩ :=
    loopedFile_grown
  have hmem : 2 ∈ insert 2 ({fs.rootInode} : Finset ℕ) := Finset.mem_insert_self _ _
  refine ⟨fs, img, ⟨img₂, insert 2 {fs.rootInode}⟩, hinit, hg, ?_, hmem, hflags, fun fuel => ?_⟩
  · refine (Relation.ReflTransGen.single ⟨.initNewFile flgFile, .initNewFile hcreate⟩).tail ?_
    exact ⟨.writeFile 2 0 (List.replicate 4068 0), .writeFile hmem
      (by rw [hmapped, List.length_replicate]; simp [wordSize]) (hwrite 0)⟩
  · cases fuel with
    | zero => exact ⟨img₂, rfl⟩
    | succ fuel =>
      have hstart : purgeFile (fuel + 1) 2 img₂ =
          purgeWalk fuel 2 (some (2 * fourBlocks.blockSize)) img₂ := by
        rw [purgeFile, bind_of_ok (ho.inode_run hmem), bind_of_ok (ho.flags_run hmem),
          if_neg (by rw [hflags]; decide)]
        exact bind_of_ok (ho.inode_run hmem)
      rw [hstart]
      cases fuel with
      | zero => exact ⟨img₂, rfl⟩
      | succ fuel =>
        have hfreed := Freed.mark ho.onVolume (b := 2) (by decide)
        have hc := ho.chains 2 hmem
        rw [hblocks] at hc
        obtain ⟨hnext, hinode⟩ := advance_run hfreed.onVolume (hfreed.chainOn hc)
        have hlink' : linkOf fourBlocks (img₂.mark 2 false) 3 = 3 := by
          rw [(hfreed.agree 3 (by decide)).link_eq, hlink]
        obtain ⟨img', hrun⟩ := purgeWalk_loop hfreed.onVolume (by decide) (by decide) hlink' fuel
        exact ⟨img', by
          rw [purgeWalk, bind_of_ok (mark_run ho.onVolume _ (by decide)), bind_of_ok hnext,
            bind_of_ok hinode, hrun]⟩

end KisLinux.Fs
