import KisLinux.FsInit

/-!
# Reopening a volume

A mapping is shared with its file. The file that an image leaves behind has all blocks
and the whole lookup table, so a mapping of it is a volume on which every node owns
the bytes that it had. Whether `init_fs` makes a volume is settled by the system and
the size alone.
-/
namespace KisLinux.Fs
open ByteMemory StateRun

/-- A fresh mapping of a file as it is. -/
def imageOf (file : List UInt8) : Image := ⟨fun a => file.getD a 0, file.length, []⟩

theorem imageOf_toFile (file : List UInt8) : (imageOf file).toFile = file := by
  apply List.ext_getElem?
  intro i
  rw [Image.toFile, slice_getElem?, imageOf]
  dsimp only
  by_cases hi : i < file.length
  · rw [if_pos hi, Nat.zero_add, List.getD_eq_getElem?_getD, List.getElem?_eq_getElem hi,
      Option.getD_some]
  · rw [if_neg hi, List.getElem?_eq_none (Nat.le_of_not_lt hi)]

theorem imageOf_mapped (img : Image) : (imageOf img.toFile).mapped = img.mapped := slice_length _ _ _

section Reopening

variable {g : Geometry} {img : Image} {live : Finset ℕ} {n b : ℕ}

namespace OnVolume

theorem reopened (h : OnVolume g img) : OnVolume g (imageOf img.toFile) where
  mapped_eq := (imageOf_mapped img).trans h.mapped_eq
  superblock_eq := by
    rw [← h.superblock_eq]
    exact img.toFile_slice (by simpa using superblock_fits h)
  guarded := fun s hs => by cases hs

/-- A block lies inside the mapping, so the file has it. -/
theorem agree_reopened (h : OnVolume g img) (hb : b < g.blocksCount) :
    AgreeOn g img (imageOf img.toFile) b := by
  intro o n hon
  have hrange := g.block_range hb hon
  rw [← h.mapped_eq] at hrange
  exact img.toFile_slice hrange

/-- So does the lookup table. -/
theorem marked_reopened (h : OnVolume g img) (hb : b < g.blocksCount) :
    marked (imageOf img.toFile) b = marked img b := by
  have hbyte := g.metadata_byte hb
  have hdata := Nat.mul_le_mul_right g.blockSize g.root_lt.le
  have hfits : lookupTable + b / 8 + 1 ≤ img.mapped := by
    rw [h.mapped_eq, lookupTable]
    omega
  have hslice : slice (imageOf img.toFile).bytes (lookupTable + b / 8) 1 =
      slice img.bytes (lookupTable + b / 8) 1 := img.toFile_slice hfits
  rw [marked, marked, List.singleton_inj.mp hslice]

end OnVolume

namespace Owned

theorem kept_reopened (h : Owned g img live) (hn : n ∈ live) : Kept g img (imageOf img.toFile) n :=
  fun b hb => h.onVolume.agree_reopened ((h.chains n hn).range b hb).2

theorem reopened (h : Owned g img live) : Owned g (imageOf img.toFile) live := by
  apply h.kept (Finset.Subset.refl live) h.onVolume.reopened
  · intro b hb
    rw [h.onVolume.marked_reopened (hb.trans g.root_lt), h.metadata b hb]
  · exact fun m hm => h.kept_reopened hm
  · intro m hm b hb
    rw [h.onVolume.marked_reopened ((h.chains m hm).range b hb).2, h.used m hm b hb]

end Owned

end Reopening

/-! ## Opening and formatting -/

section Opening

variable {os : Platform} {file : List UInt8} {size : ℕ}

/-- `open_fs` on the file of a volume, where it can be mapped. -/
theorem openFs_imageOf {g : Geometry} (h : OnVolume g (imageOf file))
    (hroot : g.root = metadataPages g.blockSize g.blocksCount)
    (hmap : os.canMap file.length = true) : openFs os file = .ok (⟨g.root⟩, imageOf file) := by
  have hrun := openFs_run h hroot hmap
  rw [imageOf_toFile] at hrun
  exact hrun

/-- Otherwise it comes to nothing. -/
theorem openFs_unmapped (hmap : os.canMap file.length = false) :
    openFs os file = .error (.die .openFile) := by
  have hopen : openAndMap os file 0 = .error (.die .openFile) := by
    rw [openAndMap, if_neg (by simp)]
    simp [hmap]
  rw [openFs, hopen, onMapping]

/-- The length that `init_fs` asks for. -/
def initLength (os : Platform) (size : ℕ) : ℕ := wmul (pagesCount os size) os.pageSize

/-- The system grants the length, maps it, and there is a page behind the metadata. -/
structure Platform.CanFormat (os : Platform) (size : ℕ) : Prop where
  resize : os.canResize (initLength os size) = true
  map : os.canMap (initLength os size) = true
  room : metadataPages os.pageSize (pagesCount os size) < pagesCount os size

theorem initLength_ne (hpos : 0 < pagesCount os size) : initLength os size ≠ 0 := by
  rw [initLength, pagesCount_fits]
  exact (Nat.mul_pos hpos (Nat.zero_lt_of_lt os.header_lt)).ne'

theorem Platform.CanFormat.length_ne (h : os.CanFormat size) : initLength os size ≠ 0 :=
  initLength_ne (Nat.zero_lt_of_lt h.room)

theorem initFs_steps {fs : FsDescriptors} {img : Image} (h : initFs os file size = .ok (fs, img)) :
    ∃ img₀, openAndMap os file (initLength os size) = .ok img₀ ∧
      formatVolume os.pageSize (pagesCount os size) img₀ = .ok fs img := by
  rw [initFs, ← initLength] at h
  cases hopen : openAndMap os file (initLength os size) with
  | error e =>
    rw [hopen] at h
    cases h
  | ok img₀ =>
    rw [hopen, onMapping] at h
    cases hformat : formatVolume os.pageSize (pagesCount os size) img₀ with
    | error e s =>
      rw [hformat] at h
      cases h
    | ok fs' img' =>
      rw [hformat] at h
      obtain ⟨rfl, rfl⟩ := Prod.mk.inj (Except.ok.inj h)
      exact ⟨img₀, rfl, hformat⟩

/-- The root is the block behind the metadata. -/
theorem formatVolume_root {pageSize count : ℕ} {img img' : Image} {fs : FsDescriptors}
    (hps : sizeofINodeMain < pageSize) (hfit : count * pageSize < 2 ^ 63) (hpos : 0 < count)
    (h : formatVolume pageSize count img = .ok fs img') : fs.rootInode = metadataPages pageSize count := by
  have hcountlt : count < 256 ^ 8 := by
    have := Nat.mul_le_mul_left count (show 1 ≤ pageSize from Nat.zero_lt_of_lt hps)
    omega
  have hpslt : pageSize < 256 ^ 8 := by
    have := Nat.mul_le_mul_right pageSize (Nat.succ_le_of_lt hpos)
    omega
  obtain ⟨_, s₁, hst, hstart⟩ := bind_eq_ok.mp h
  obtain rfl := formatStore_ok hst
  obtain ⟨_, s₂, hst, hstart⟩ := bind_eq_ok.mp hstart
  obtain rfl := formatStore_ok hst
  obtain ⟨_, s₃, hst, hstart⟩ := bind_eq_ok.mp hstart
  obtain rfl := formatStore_ok hst
  obtain ⟨fs', s₄, hprep, hstart⟩ := bind_eq_ok.mp hstart
  obtain ⟨rootInode, s₅, -, hcheck⟩ := bind_eq_ok.mp hstart
  change prepareDescriptors true (superblockImage img pageSize count) = _ at hprep
  by_cases hne : rootInode ≠ fs'.rootInode
  · rw [if_pos hne] at hcheck
    cases hcheck
  rw [if_neg hne] at hcheck
  obtain ⟨rfl, -⟩ := pure_eq_ok.mp hcheck
  obtain ⟨hroot, -, -⟩ := prepareDescriptors_ok hprep
  have hsb : SuperblockIs (leBytes 8 pageSize ++ leBytes 8 count ++ getPlatformValues.encode)
      img.mapped (superblockImage img pageSize count) :=
    ⟨superblockImage_slice img pageSize count, rfl⟩
  obtain ⟨htable, hpages⟩ := metadataPages_words hps hfit hpos
  rw [hsb.fields.1, hsb.fields.2, leNat_leBytes hcountlt, leNat_leBytes hpslt, htable, hpages] at hroot
  exact hroot

/-- What `init_fs` makes of a file: a volume whose root is where `open_fs` looks for it. -/
theorem initFs_volume {fs : FsDescriptors} {img : Image} (h : initFs os file size = .ok (fs, img)) :
    os.CanFormat size ∧ ∃ g : Geometry, g.blockSize = os.pageSize ∧ g.blocksCount = pagesCount os size ∧
      g.root = metadataPages g.blockSize g.blocksCount ∧ Formatted g img fun a => file.getD a 0 := by
  obtain ⟨g, hbs, hcount, hroot, hformatted⟩ := initFs_ok h
  obtain ⟨img₀, hopen, hformat⟩ := initFs_steps h
  have hpos : 0 < pagesCount os size := hcount ▸ Nat.zero_lt_of_lt g.root_lt
  have hfit := g.size_lt
  have hlt := g.root_lt
  rw [hbs, hcount] at hfit
  rw [hroot, hcount] at hlt
  have hmeta := formatVolume_root os.header_lt hfit hpos hformat
  have hlength := initLength_ne hpos
  have hmap := openAndMap_canMap hopen hlength
  refine ⟨⟨?_, hmap, hmeta ▸ hlt⟩, g, hbs, hcount, ?_, hformatted⟩
  · by_contra hresize
    rw [openAndMap, if_pos ⟨hlength, Bool.eq_false_of_not_eq_true hresize⟩] at hopen
    cases hopen
  · rw [hroot, hmeta, hbs, hcount]

/-- The system and the size settle whether `init_fs` comes through. -/
theorem initFs_formats_iff : (∃ r, initFs os file size = .ok r) ↔ os.CanFormat size := by
  constructor
  · rintro ⟨⟨fs, img⟩, h⟩
    exact (initFs_volume h).1
  · intro h
    have hroom := h.room
    have hpages := pagesCount_fits os size
    rw [← initLength] at hpages
    let g : Geometry :=
      { blockSize := os.pageSize
        blocksCount := pagesCount os size
        root := metadataPages os.pageSize (pagesCount os size)
        header_lt := os.header_lt
        metadata_le := le_ceilDiv_mul _ (Nat.zero_lt_of_lt os.header_lt)
        root_lt := hroom
        size_lt := hpages ▸ os.canResize_lt _ h.resize }
    have hopen : openAndMap os file (initLength os size) =
        .ok ⟨fun a => file.getD a 0, initLength os size, []⟩ := by
      rw [openAndMap, if_neg (by simp [h.resize])]
      simp only [if_neg h.length_ne]
      exact if_pos ⟨h.length_ne, h.map⟩
    obtain ⟨img, hformat, -⟩ :=
      @formatVolume_run g ⟨fun a => file.getD a 0, initLength os size, []⟩ rfl hpages rfl
    rw [initFs, ← initLength, hopen]
    exact ⟨_, onMapping_of_ok hformat⟩

theorem not_canFormat_of_error {stop : Stop} (h : initFs os file size = .error stop) :
    ¬ os.CanFormat size := by
  intro hcan
  obtain ⟨r, hr⟩ := initFs_formats_iff.mpr hcan
  rw [h] at hr
  cases hr

/-- A length that the system does not grant. -/
theorem initFs_ungranted (hlength : initLength os size ≠ 0)
    (hresize : os.canResize (initLength os size) = false) :
    initFs os file size = .error (.die .prepareFile) := by
  rw [initFs, ← initLength, openAndMap, if_pos ⟨hlength, hresize⟩, onMapping]

end Opening

end KisLinux.Fs
