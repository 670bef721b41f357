import KisLinux.FsRuns
import Mathlib.Algebra.Order.Floor.Div
import Mathlib.Order.Bounds.Basic

/-!
# When formatting succeeds

Three rounded divisions decide the outcome of `init_fs`: the pages of the volume,
the bytes of the lookup table and the pages of the metadata. The first one wraps
to zero pages at the top of `size_t`. With two pages or more the metadata leave a
block for the root directory, with fewer they do not.
-/
namespace KisLinux.Fs
open ByteMemory StateRun LinkedChain

/-! ## Counting pages -/

section Pages

variable {os : Platform} {size : ℕ}

/-- Rounding up gives the least multiple. -/
theorem isLeast_ceilDiv_mul (x : ℕ) {d : ℕ} (hd : 0 < d) :
    IsLeast {m | d ∣ m ∧ x ≤ m} ((x + d - 1) / d * d) := by
  refine ⟨⟨Nat.dvd_mul_left _ _, le_ceilDiv_mul x hd⟩, ?_⟩
  rintro m ⟨⟨k, rfl⟩, hx⟩
  rw [Nat.mul_comm d k]
  refine Nat.mul_le_mul_right d ?_
  rw [← Nat.ceilDiv_eq_add_pred_div, ceilDiv_le_iff_le_mul hd]
  exact hx

theorem wsub_wadd_one_wraps {a b : ℕ} (ha : a < wordSize) (hb : b < wordSize)
    (h : wordSize ≤ a + b - 1) : wsub (wadd a b) 1 = a + b - 1 - wordSize := by
  simp only [wsub, wadd, wordSize] at *
  omega

theorem pagesCount_max (os : Platform) (size : ℕ) :
    pagesCount os size = wsub (wadd (max size sizeofSuperblock) os.pageSize) 1 / os.pageSize := by
  have hmax : (if size < sizeofSuperblock then sizeofSuperblock else size) =
      max size sizeofSuperblock := by
    split <;> omega
  rw [pagesCount, hmax]

/-- Below the top of `size_t` the pages are those of the larger of the two sizes. -/
theorem pagesCount_eq (hpage : os.pageSize ≤ 2 ^ 63) (h : size + os.pageSize - 1 < wordSize) :
    pagesCount os size = (max size sizeofSuperblock + os.pageSize - 1) / os.pageSize := by
  have hpos : 0 < os.pageSize := Nat.lt_of_le_of_lt (Nat.zero_le _) os.header_lt
  rw [pagesCount_max, wsub_wadd_one hpos]
  simp only [sizeofSuperblock, wordSize] at *
  omega

/-- A sum that wraps leaves no page. -/
theorem pagesCount_wraps (hsize : size < wordSize) (hpage : os.pageSize ≤ 2 ^ 63)
    (h : wordSize ≤ size + os.pageSize - 1) : pagesCount os size = 0 := by
  have hmax : max size sizeofSuperblock = size := by
    simp only [sizeofSuperblock, wordSize] at *
    omega
  have hpos : 0 < os.pageSize := Nat.lt_of_le_of_lt (Nat.zero_le _) os.header_lt
  have hword : os.pageSize < wordSize := Nat.lt_of_le_of_lt hpage (by decide)
  rw [pagesCount_max, hmax, wsub_wadd_one_wraps hsize hword h]
  exact Nat.div_eq_of_lt (by omega)

/-- Two pages are needed exactly when one of them is too small and the sum does not wrap. -/
theorem two_le_pagesCount_iff (hsize : size < wordSize) (hpage : os.pageSize ≤ 2 ^ 63) :
    2 ≤ pagesCount os size ↔
      size + os.pageSize - 1 < wordSize ∧ os.pageSize < max size sizeofSuperblock := by
  have hpos := os.header_lt
  by_cases h : size + os.pageSize - 1 < wordSize
  · rw [pagesCount_eq hpage h, Nat.le_div_iff_mul_le (by omega)]
    omega
  · rw [pagesCount_wraps hsize hpage (by omega)]
    omega

/-- The metadata of two pages or more leave a page. -/
theorem metadataPages_lt {bs count : ℕ} (hbs : 64 ≤ bs) (hcount : 2 ≤ count) :
    metadataPages bs count < count := by
  obtain ⟨n, rfl⟩ : ∃ n, count = n + 2 := ⟨count - 2, by omega⟩
  have hmul := Nat.mul_le_mul_left (n + 1) hbs
  have hsucc : (n + 2) * bs = (n + 1) * bs + bs := Nat.succ_mul (n + 1) bs
  rw [metadataPages, Nat.div_lt_iff_lt_mul (by omega), hsucc]
  simp only [sizeofSuperblock]
  omega

/-- The geometry of a volume with two pages or more. -/
def Platform.geometry (os : Platform) (count : ℕ) (hpage : 64 ≤ os.pageSize) (hcount : 2 ≤ count)
    (hfit : count * os.pageSize < 2 ^ 63) : Geometry where
  blockSize := os.pageSize
  blocksCount := count
  root := metadataPages os.pageSize count
  header_lt := os.header_lt
  metadata_le := le_ceilDiv_mul _ (Nat.lt_of_lt_of_le (by decide) hpage)
  root_lt := metadataPages_lt hpage hcount
  size_lt := hfit

end Pages

/-! ## Too few pages -/

section Short

variable {img img' : Image} {pageSize count : ℕ}

/-- What `prepare_descriptors` and `init_new_file` read of a fresh superblock. -/
structure Fresh (pageSize count : ℕ) (img : Image) : Prop where
  fits : sizeofSuperblock ≤ img.mapped
  superblock : slice img.bytes 0 sizeofSuperblock =
    leBytes 8 pageSize ++ leBytes 8 count ++ getPlatformValues.encode
  pageSize_lt : pageSize < 256 ^ 8
  count_lt : count < 256 ^ 8

namespace Fresh

theorem isSuperblock (h : Fresh pageSize count img) :
    SuperblockIs (leBytes 8 pageSize ++ leBytes 8 count ++ getPlatformValues.encode) img.mapped img :=
  ⟨h.superblock, rfl⟩

theorem blocksCount_run (h : Fresh pageSize count img) : blocksCount img = .ok count img := by
  have hfits := h.fits
  simp only [sizeofSuperblock] at hfits
  rw [blocksCount, loadSize_run (by simp only [blocksCountField]; omega), h.isSuperblock.fields.1,
    leNat_leBytes h.count_lt]

theorem blockSize_run (h : Fresh pageSize count img) : blockSize img = .ok pageSize img := by
  have hfits := h.fits
  simp only [sizeofSuperblock] at hfits
  rw [blockSize, loadSize_run (by simp only [blockSizeField]; omega), h.isSuperblock.fields.2,
    leNat_leBytes h.pageSize_lt]

theorem mark_past (h : Fresh pageSize count img) {b : ℕ} (hb : count ≤ b) :
    markBlockInLookupTable b true img = .error (.die .markBlock) img := by
  rw [markBlockInLookupTable, bind_of_ok h.blocksCount_run, if_pos hb, dieFatal_run]

/-- Stores into the table leave the superblock alone. -/
theorem of_blit (h : Fresh pageSize count img) (hmapped : img'.mapped = img.mapped) {i : ℕ}
    {d : List UInt8} (hbytes : img'.bytes = blit img.bytes (lookupTable + i) d) :
    Fresh pageSize count img' where
  fits := hmapped ▸ h.fits
  superblock := by
    rw [hbytes]
    exact (h.isSuperblock.blit i d).1
  pageSize_lt := h.pageSize_lt
  count_lt := h.count_lt

theorem prepareDescriptors_run (h : Fresh pageSize count img) (hpage : 64 ≤ pageSize)
    (hword : pageSize ≤ 2 ^ 63) (hcount : count < 2) :
    prepareDescriptors true img = (do
      formatStore lookupTable (List.replicate count 0)
      markMetadata 1 0
      pure ⟨1⟩ : FsM FsDescriptors) img := by
  have htable : wadd count 7 / 8 = count := by
    simp only [wadd, wordSize]
    omega
  have hpages : wsub (wadd (wadd sizeofSuperblock count) pageSize) 1 / pageSize = 1 := by
    have hsum : wadd sizeofSuperblock count = sizeofSuperblock + count := by
      simp only [wadd, wordSize, sizeofSuperblock]
      omega
    rw [hsum, wsub_wadd_one (by omega) (by simp only [sizeofSuperblock, wordSize]; omega)]
    simp only [sizeofSuperblock]
    exact Nat.div_eq_of_lt_le (by omega) (by omega)
  rw [prepareDescriptors, bind_of_ok (portability_run h.fits h.superblock),
    platformValues_compatible, if_neg Bool.true_eq_false.mp, bind_of_ok h.blocksCount_run,
    bind_of_ok h.blockSize_run]
  simp only
  rw [htable, hpages, if_neg (by omega)]
  simp only [if_true]

theorem mark_run (h : Fresh pageSize count img) {b : ℕ} (hb : b < count)
    (hin : lookupTable + b / 8 + 1 ≤ img.mapped) :
    markBlockInLookupTable b true img = .ok () (img.mark b true) := by
  rw [markBlockInLookupTable, bind_of_ok h.blocksCount_run, if_neg (by omega),
    bind_of_ok (loadByte_run hin), store_run (by simpa using hin)]
  rfl

/-- Without a page no metadata block can be marked. -/
theorem noPage (h : Fresh pageSize 0 img) (hpage : 64 ≤ pageSize) (hword : pageSize ≤ 2 ^ 63) :
    ∃ img', prepareDescriptors true img = .error (.die .markBlock) img' := by
  have hcleared : Fresh pageSize 0 (clearTable img 0) := h.of_blit (i := 0) rfl rfl
  refine ⟨clearTable img 0, ?_⟩
  rw [h.prepareDescriptors_run hpage hword (by decide),
    bind_of_ok (formatStore_run (by simpa [lookupTable] using h.fits))]
  refine bind_of_error ?_
  rw [markMetadata]
  exact bind_of_error (hcleared.mark_past le_rfl)

/-- When the metadata take the only page, the search finds the bit behind it. -/
theorem onePage (h : Fresh pageSize 1 img) (hpage : 64 ≤ pageSize) (hword : pageSize ≤ 2 ^ 63)
    (hmapped : img.mapped = pageSize) :
    ∃ img', prepareDescriptors true img = .ok ⟨1⟩ img' ∧
      initNewFile flgDirectory img' = .error (.die .markBlock) img' := by
  have hin : lookupTable + 1 ≤ img.mapped := by
    simp only [lookupTable, sizeofSuperblock]
    omega
  have hcleared : Fresh pageSize 1 (clearTable img 1) := h.of_blit (i := 0) rfl rfl
  have hmark : markMetadata 1 0 (clearTable img 1) = .ok () ((clearTable img 1).mark 0 true) := by
    rw [markMetadata, bind_of_ok (hcleared.mark_run Nat.one_pos hin), markMetadata, pure_run]
  have hmarked : Fresh pageSize 1 ((clearTable img 1).mark 0 true) := hcleared.of_blit (i := 0) rfl rfl
  refine ⟨(clearTable img 1).mark 0 true, ?_, ?_⟩
  · rw [h.prepareDescriptors_run hpage hword (by decide),
      bind_of_ok (formatStore_run (by simpa using hin))]
    exact bind_eq_ok.mpr ⟨(), _, hmark, rfl⟩
  · have hbyte : ((clearTable img 1).mark 0 true).bytes lookupTable = 1 := by
      have hzero : (clearTable img 1).bytes lookupTable = 0 := blit_add img.bytes lookupTable 0 [0]
      have hone := blit_add (clearTable img 1).bytes lookupTable 0
        [setBit ((clearTable img 1).bytes lookupTable) 0 true]
      rw [hzero] at hone
      exact hone
    have hload : loadByte (lookupTable + 0) ((clearTable img 1).mark 0 true) =
        .ok 1 ((clearTable img 1).mark 0 true) := hbyte ▸ loadByte_run hin
    have hnext : getNextFreeBlockIndex ((clearTable img 1).mark 0 true) =
        .ok 1 ((clearTable img 1).mark 0 true) := by
      rw [getNextFreeBlockIndex, bind_of_ok hmarked.blocksCount_run, show wadd 1 7 / 8 = 1 from rfl,
        scanTable, bind_of_ok hload]
      rfl
    rw [initNewFile, bind_of_ok hnext]
    exact bind_of_error (hmarked.mark_past le_rfl)

end Fresh

/-- Without a block behind the metadata the root directory cannot be made. -/
theorem formatVolume_short (hpage : 64 ≤ pageSize) (hword : pageSize ≤ 2 ^ 63) (hcount : count < 2)
    (hmapped : count = 1 → img.mapped = pageSize) :
    ∃ e s, formatVolume pageSize count img = .error e s ∧ e ≠ .die .initFs := by
  by_cases hfits : sizeofSuperblock ≤ img.mapped
  · have hfresh : Fresh pageSize count (superblockImage img pageSize count) :=
      { fits := hfits
        superblock := superblockImage_slice img pageSize count
        pageSize_lt := Nat.lt_of_le_of_lt hword (by decide)
        count_lt := Nat.lt_trans hcount (by decide) }
    rw [formatVolume_eq _ _ hfits]
    cases count with
    | zero =>
      obtain ⟨img', hprep⟩ := hfresh.noPage hpage hword
      exact ⟨.die .markBlock, img', bind_of_error hprep, by simp⟩
    | succ n =>
      obtain rfl : n = 0 := by omega
      obtain ⟨img', hprep, hinit⟩ := hfresh.onePage hpage hword (hmapped rfl)
      refine ⟨.die .markBlock, img', ?_, by simp⟩
      rw [bind_of_ok hprep]
      exact bind_of_error hinit
  · obtain ⟨s, hfault⟩ := formatVolume_fault pageSize count (Nat.lt_of_not_le hfits)
    exact ⟨.fault, s, hfault, by simp⟩

end Short

/-! ## `init_fs` and `open_fs` -/

section Runs

variable {os : Platform} {size : ℕ} {file : List UInt8}

theorem openAndMap_canMap {img : Image} (h : openAndMap os file size = .ok img) (h0 : size ≠ 0) :
    os.canMap size = true := by
  by_cases hresize : size ≠ 0 ∧ os.canResize size = false
  · rw [openAndMap, if_pos hresize] at h
    cases h
  rw [openAndMap, if_neg hresize] at h
  simp only [if_neg h0] at h
  split at h
  · next hmap => exact hmap.2
  · cases h

theorem openAndMap_noInitFs (os : Platform) (file : List UInt8) (size : ℕ) :
    openAndMap os file size ≠ .error (.die .initFs) := by
  unfold openAndMap
  split
  · simp
  · dsimp only
    generalize (if size = 0 then file.length else size) = len
    split <;> simp

theorem onMapping_of_ok {x : FsM FsDescriptors} {img img' : Image} {fs : FsDescriptors}
    (h : x img = .ok fs img') : onMapping x (.ok img) = .ok (fs, img') := by
  rw [onMapping, h]

/-- The file that a mapping leaves behind. -/
def Image.toFile (img : Image) : List UInt8 := slice img.bytes 0 img.mapped

theorem Image.toFile_slice (img : Image) {a n : ℕ} (h : a + n ≤ img.mapped) :
    slice (fun x => img.toFile.getD x 0) a n = slice img.bytes a n := by
  refine slice_congr fun i hi => ?_
  rw [Image.toFile, List.getD_eq_getElem?_getD, slice_getElem?, if_pos (by omega), Option.getD_some,
    Nat.zero_add]

/-- `open_fs` on the file of a volume reads the descriptors that `init_fs` computed. -/
theorem openFs_run {g : Geometry} {img : Image} (h : OnVolume g img)
    (hroot : g.root = metadataPages g.blockSize g.blocksCount)
    (hmap : os.canMap img.mapped = true) :
    openFs os img.toFile = .ok (⟨g.root⟩, ⟨fun a => img.toFile.getD a 0, img.mapped, []⟩) := by
  have hlen : img.toFile.length = img.mapped := slice_length _ _ _
  have hv : OnVolume g ⟨fun a => img.toFile.getD a 0, img.mapped, []⟩ := by
    refine ⟨h.mapped_eq, ?_, fun s hs => by cases hs⟩
    rw [← h.superblock_eq]
    exact img.toFile_slice (by simpa using superblock_fits h)
  have hfits := superblock_fits h
  have hopen : openAndMap os img.toFile 0 = .ok ⟨fun a => img.toFile.getD a 0, img.mapped, []⟩ := by
    have hne : img.mapped ≠ 0 := (Nat.lt_of_lt_of_le (by decide) hfits).ne'
    rw [openAndMap, if_neg (by simp)]
    simp only [if_true, hlen, hmap, hne, ne_eq, not_false_eq_true, and_self, Nat.max_eq_left hfits]
  have hprep := prepareDescriptors_volume hv hroot false
  rw [openFs, hopen, onMapping_of_ok hprep]

/-- A volume as `init_fs` leaves it. -/
structure Initialized (os : Platform) (size : ℕ) (g : Geometry) (img : Image) : Prop where
  onVolume : OnVolume g img
  least : IsLeast {m | os.pageSize ∣ m ∧ max size sizeofSuperblock ≤ m} (g.blocksCount * g.blockSize)
  metadata : sizeofSuperblock + (g.blocksCount + 7) / 8 ≤ g.root * g.blockSize
  /-- The bits of the table; those past the last block are clear. -/
  marks : g.root < g.blocksCount ∧
    ∀ b, b / 8 < (g.blocksCount + 7) / 8 → (marked img b = true ↔ b ≤ g.root)
  size : sizeOfNode g img g.root = 0
  flags : flagsOf g img g.root = flgDirectory
  blocks : blocksOf g img g.root = [g.root] ∧ lastOf g img g.root = g.root
  link : linkOf g img g.root = 0
  listed : readDirectory g.root img = .ok ⟨[]⟩ img
  reopened : ∃ img', openFs os img.toFile = .ok (⟨g.root⟩, img') ∧ img'.toFile = img.toFile

theorem Formatted.initialized {g : Geometry} {img : Image} {bytes : Memory}
    (h : Formatted g img bytes) (hroot : g.root = metadataPages g.blockSize g.blocksCount)
    (hleast : IsLeast {m | os.pageSize ∣ m ∧ max size sizeofSuperblock ≤ m}
      (g.blocksCount * g.blockSize))
    (hmarks : ∀ b, b / 8 < (g.blocksCount + 7) / 8 → (marked img b = true ↔ b ≤ g.root))
    (hmap : os.canMap img.mapped = true) : Initialized os size g img := by
  have hmem : g.root ∈ ({g.root} : Finset ℕ) := Finset.mem_singleton_self _
  have hsize : sizeOfNode g img g.root = 0 := by rw [← content_length, h.content, List.length_nil]
  have hblocks : blocksOf g img g.root = [g.root] := by
    rw [blocksOf, hsize, g.blocksRequired_zero]
    rfl
  have hlast : lastOf g img g.root = g.root := by
    have hlast := h.owned.last _ hmem
    rw [hblocks] at hlast
    exact (Option.some.inj hlast).symm
  have hlink : linkOf g img g.root = 0 := by
    have hended := h.ended
    rwa [Ended, hlast] at hended
  have hd : IsDirectory g img g.root := ⟨by rw [h.flags]; decide, by rw [hsize, Nat.zero_mod]⟩
  have hitems : itemsOf g img g.root = [] := itemsOf_eq (by simp) h.content
  refine ⟨h.owned.onVolume, hleast, g.metadata_le, ⟨g.root_lt, hmarks⟩, hsize, h.flags,
    ⟨hblocks, hlast⟩, hlink, ?_, _, openFs_run h.owned.onVolume hroot hmap, ?_⟩
  · rw [readDirectory_run h.owned hmem hd, hitems]
  · exact img.toFile_slice (Nat.zero_add _).le

/-- With two pages or more `init_fs` completes. -/
theorem initFs_run {img₀ : Image} (hpage : 64 ≤ os.pageSize) (hword : os.pageSize ≤ 2 ^ 63)
    (hsize : size < wordSize) (hcount : 2 ≤ pagesCount os size)
    (hopen : openAndMap os file (wmul (pagesCount os size) os.pageSize) = .ok img₀) :
    ∃ (g : Geometry) (img : Image), initFs os file size = .ok (⟨g.root⟩, img) ∧
      g.Describes os size ⟨g.root⟩ ∧ Initialized os size g img := by
  obtain ⟨-, hstores, hbound⟩ := openAndMap_ok hopen
  rw [pagesCount_fits] at hopen hbound
  have hpos := Nat.mul_pos (show 0 < pagesCount os size by omega) (show 0 < os.pageSize by omega)
  obtain ⟨hmapped, hfit⟩ := hbound hpos.ne'
  let g := os.geometry (pagesCount os size) hpage hcount hfit
  obtain ⟨img, hformat, hg, hmarks⟩ := formatVolume_run (g := g) rfl hmapped hstores
  have hleast : IsLeast {m | os.pageSize ∣ m ∧ max size sizeofSuperblock ≤ m}
      (g.blocksCount * g.blockSize) := by
    have hnowrap := ((two_le_pagesCount_iff hsize hword).mp hcount).1
    change IsLeast _ (pagesCount os size * os.pageSize)
    rw [pagesCount_eq hword hnowrap]
    exact isLeast_ceilDiv_mul _ (by omega)
  refine ⟨g, img, ?_, ⟨rfl, rfl, rfl⟩, hg.initialized rfl hleast hmarks ?_⟩
  · rw [initFs, pagesCount_fits, hopen]
    exact onMapping_of_ok hformat
  · rw [hg.owned.onVolume.mapped_eq]
    exact openAndMap_canMap hopen hpos.ne'

/-- With fewer pages it stops before the root directory is compared. -/
theorem initFs_short (hpage : 64 ≤ os.pageSize) (hword : os.pageSize ≤ 2 ^ 63)
    (hcount : pagesCount os size < 2) :
    ∃ e, initFs os file size = .error e ∧ e ≠ .die .initFs := by
  rw [initFs, pagesCount_fits]
  cases hopen : openAndMap os file (pagesCount os size * os.pageSize) with
  | error e =>
    refine ⟨e, rfl, ?_⟩
    rintro rfl
    exact absurd hopen (openAndMap_noInitFs _ _ _)
  | ok img =>
    obtain ⟨-, -, hbound⟩ := openAndMap_ok hopen
    have hmapped : pagesCount os size = 1 → img.mapped = os.pageSize := by
      intro h1
      rw [h1, Nat.one_mul] at hbound
      exact (hbound (by omega)).1
    obtain ⟨e, s, hformat, he⟩ := formatVolume_short hpage hword hcount hmapped
    exact ⟨e, by rw [onMapping, hformat], he⟩

/-- For every size, every old content of the file and every page size that is a power
of two: formatting completes exactly when the sum does not wrap and two pages are
needed, what it leaves is a volume with an empty root directory behind the metadata,
and the root check never fails. -/
theorem initFs_formats {k : ℕ} (hpow : os.pageSize = 2 ^ k) (hpage : 64 ≤ os.pageSize)
    (hword : os.pageSize < wordSize) (hsize : size < wordSize)
    (hopen : ∃ img, openAndMap os file (wmul (pagesCount os size) os.pageSize) = .ok img) :
    ((∃ r, initFs os file size = .ok r) ↔
      size + os.pageSize - 1 < wordSize ∧ os.pageSize < max size sizeofSuperblock) ∧
    (∀ fs img, initFs os file size = .ok (fs, img) →
      ∃ g : Geometry, g.Describes os size fs ∧ Initialized os size g img) ∧
    initFs os file size ≠ .error (.die .initFs) := by
  have hword' : os.pageSize ≤ 2 ^ 63 := by
    rw [hpow, wordSize] at hword
    rw [hpow]
    exact Nat.pow_le_pow_right (by decide)
      (Nat.lt_succ_iff.mp ((Nat.pow_lt_pow_iff_right (by decide)).mp hword))
  obtain ⟨img₀, hopen⟩ := hopen
  rw [← two_le_pagesCount_iff hsize hword']
  by_cases hcount : 2 ≤ pagesCount os size
  · obtain ⟨g, img, hinit, hg, hi⟩ := initFs_run hpage hword' hsize hcount hopen
    rw [hinit]
    refine ⟨iff_of_true ⟨_, rfl⟩ hcount, ?_, by simp⟩
    rintro fs img' h
    obtain ⟨rfl, rfl⟩ := Prod.mk.inj (Except.ok.inj h)
    exact ⟨g, hg, hi⟩
  · have hshort : ∃ e, initFs os file size = .error e ∧ e ≠ .die .initFs :=
      initFs_short hpage hword' (Nat.lt_of_not_le hcount)
    obtain ⟨e, hinit, he⟩ := hshort
    rw [hinit]
    refine ⟨iff_of_false (by simp) hcount, by simp, ?_⟩
    simpa using he

end Runs

theorem initFs_formats_threePages :
    ∃ fs img, ∃ g : Geometry, initFs pagePlatform [1, 2] 8193 = .ok (fs, img) ∧
      g.Describes pagePlatform 8193 fs ∧ Initialized pagePlatform 8193 g img := by
  have hpages : wmul (pagesCount pagePlatform 8193) pagePlatform.pageSize = 12288 := by decide
  have hopen : ∃ img, openAndMap pagePlatform [1, 2]
      (wmul (pagesCount pagePlatform 8193) pagePlatform.pageSize) = .ok img := by
    rw [hpages]
    exact ⟨_, rfl⟩
  obtain ⟨hiff, hleaves, -⟩ := initFs_formats (k := 12) rfl (by decide) (by decide)
    (show 8193 < wordSize by decide) hopen
  obtain ⟨⟨fs, img⟩, hinit⟩ := hiff.mpr (by decide)
  obtain ⟨g, hg, hi⟩ := hleaves fs img hinit
  exact ⟨fs, img, g, hinit, hg, hi⟩

end KisLinux.Fs
