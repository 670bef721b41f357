import KisLinux.FsLifetime
import KisLinux.FsReadOnly

/-!
# Formatting

`init_fs` leaves a volume on which the root directory is the only node, it is
empty, and exactly the metadata blocks and its block are marked. The other
blocks keep whatever the backing file held.
-/
namespace KisLinux.Fs
open ByteMemory StateRun LinkedChain

structure Formatted (g : Geometry) (img : Image) (file : Memory) : Prop where
  owned : Owned g img {g.root}
  exact : ∀ b < g.blocksCount, marked img b = true ↔ b ≤ g.root
  ended : Ended g img g.root
  content : content g img g.root = []
  flags : flagsOf g img g.root = flgDirectory
  rest : ∀ b, g.root < b → ∀ o m, o + m ≤ g.blockSize →
    blockSlice g img b o m = slice file (b * g.blockSize + o) m

theorem formatStore_ok {img img' : Image} {a : ℕ} {d : List UInt8}
    (h : formatStore a d img = .ok () img') :
    img' = { img with bytes := blit img.bytes a d } := by
  unfold formatStore at h
  split at h
  · exact (EStateM.Result.ok.inj h).2.symm
  · cases h

/-- The image with the superblock written. -/
def superblockImage (img : Image) (pageSize pagesCount : ℕ) : Image :=
  { img with
    bytes := blit (blit (blit img.bytes blockSizeField (leBytes 8 pageSize)) blocksCountField
      (leBytes 8 pagesCount)) portabilityField getPlatformValues.encode }

/-- The image with a lookup table of `table` bytes cleared. -/
def clearTable (img : Image) (table : ℕ) : Image :=
  { img with bytes := blit img.bytes lookupTable (List.replicate table 0) }

theorem superblockImage_slice (img : Image) (pageSize pagesCount : ℕ) :
    slice (superblockImage img pageSize pagesCount).bytes 0 sizeofSuperblock =
      leBytes 8 pageSize ++ leBytes 8 pagesCount ++ getPlatformValues.encode := by
  have henc : getPlatformValues.encode.length = 20 := rfl
  have h1 : slice (superblockImage img pageSize pagesCount).bytes 0 8 = leBytes 8 pageSize := by
    rw [superblockImage, slice_blit_of_disjoint _ (Or.inl (by simp [portabilityField])),
      slice_blit_of_disjoint _ (Or.inl (by simp [blocksCountField]))]
    have hself := slice_blit_self img.bytes 0 (leBytes 8 pageSize)
    rwa [leBytes_length] at hself
  have h2 : slice (superblockImage img pageSize pagesCount).bytes 8 8 = leBytes 8 pagesCount := by
    rw [superblockImage, slice_blit_of_disjoint _ (Or.inl (by simp [portabilityField]))]
    have hself := slice_blit_self (blit img.bytes blockSizeField (leBytes 8 pageSize)) 8
      (leBytes 8 pagesCount)
    rwa [leBytes_length] at hself
  have h3 : slice (superblockImage img pageSize pagesCount).bytes 16 20 =
      getPlatformValues.encode := by
    have hself := slice_blit_self (blit (blit img.bytes blockSizeField (leBytes 8 pageSize))
      blocksCountField (leBytes 8 pagesCount)) 16 getPlatformValues.encode
    rwa [henc] at hself
  rw [show sizeofSuperblock = 8 + 8 + 20 from rfl, slice_add, slice_add]
  simp only [Nat.zero_add, Nat.reduceAdd, h1, h2, h3]

/-- What formatting keeps once the superblock is written. -/
def SuperblockIs (sb : List UInt8) (mapped : ℕ) (img : Image) : Prop :=
  slice img.bytes 0 sizeofSuperblock = sb ∧ img.mapped = mapped

theorem SuperblockIs.blit {sb : List UInt8} {m : ℕ} {img : Image} (h : SuperblockIs sb m img)
    (i : ℕ) (d : List UInt8) :
    SuperblockIs sb m { img with bytes := ByteMemory.blit img.bytes (lookupTable + i) d } := by
  refine ⟨?_, h.2⟩
  rw [← h.1]
  exact slice_blit_of_disjoint _ (Or.inl (by simp only [lookupTable]; omega))

theorem SuperblockIs.clearTable {sb : List UInt8} {m : ℕ} {img : Image} (h : SuperblockIs sb m img)
    (table : ℕ) : SuperblockIs sb m (clearTable img table) :=
  h.blit 0 (List.replicate table 0)

theorem SuperblockIs.fields {pageSize pagesCount m : ℕ} {img : Image}
    (h : SuperblockIs (leBytes 8 pageSize ++ leBytes 8 pagesCount ++ getPlatformValues.encode) m img) :
    slice img.bytes blocksCountField 8 = leBytes 8 pagesCount ∧
      slice img.bytes blockSizeField 8 = leBytes 8 pageSize := by
  have h8 := congrArg (fun l => (l.drop 8).take 8) h.1
  have h0 := congrArg (List.take 8) h.1
  simp only [slice_drop, slice_take] at h8 h0
  simp only [blocksCountField, blockSizeField]
  exact ⟨by simpa [sizeofSuperblock] using h8, by simpa [sizeofSuperblock] using h0⟩

theorem markBlock_keeps (sb : List UInt8) (m b : ℕ) (v : Bool) :
    Keeps (SuperblockIs sb m) (markBlockInLookupTable b v) := by
  refine (blocksCount_readOnly.keeps _).bind fun count => Keeps.ite (Keeps.throw _) ?_
  refine ((loadByte_readOnly _).keeps _).bind fun cur => fun img h => ?_
  unfold store
  split
  · exact h.blit _ _
  · exact h

theorem markMetadata_keeps (sb : List UInt8) (m n i : ℕ) :
    Keeps (SuperblockIs sb m) (markMetadata n i) := by
  induction n generalizing i with
  | zero => exact Keeps.pure _
  | succ n ih => exact (markBlock_keeps sb m i true).bind fun _ => ih (i + 1)

/-- A block that was marked without an error report lies below the block count. -/
theorem markBlock_lt {img img' : Image} {b : ℕ} {v : Bool}
    (h : markBlockInLookupTable b v img = .ok () img') :
    b < leNat (slice img.bytes blocksCountField 8) := by
  obtain ⟨count, s, hcount, hrest⟩ := bind_eq_ok.mp h
  obtain ⟨hvalue, rfl⟩ := loadSize_ok hcount
  rw [hvalue] at hrest
  by_contra hle
  rw [if_pos (by omega)] at hrest
  cases hrest

/-- A node that was created lies below the block count. -/
theorem initNewFile_lt {img img' : Image} {b : ℕ} {flags : UInt8}
    (h : initNewFile flags img = .ok b img') : b < leNat (slice img.bytes blocksCountField 8) := by
  obtain ⟨x, s, hnext, hrest⟩ := bind_eq_ok.mp h
  obtain rfl := getNextFreeBlockIndex_readOnly.state_eq hnext
  obtain ⟨_, s', hmark, hrest⟩ := bind_eq_ok.mp hrest
  have hlt := markBlock_lt hmark
  obtain ⟨a, s₁, -, hrest⟩ := bind_eq_ok.mp hrest
  obtain ⟨_, s₂, -, hrest⟩ := bind_eq_ok.mp hrest
  obtain ⟨_, s₃, -, hrest⟩ := bind_eq_ok.mp hrest
  obtain ⟨_, s₄, -, hrest⟩ := bind_eq_ok.mp hrest
  obtain ⟨_, s₅, -, hrest⟩ := bind_eq_ok.mp hrest
  obtain ⟨_, s₆, -, hrest⟩ := bind_eq_ok.mp hrest
  obtain ⟨rfl, -⟩ := pure_eq_ok.mp hrest
  exact hlt

/-- `prepare_descriptors` with a clean table, up to the marking. -/
theorem prepareDescriptors_ok {img img' : Image} {fs : FsDescriptors}
    (h : prepareDescriptors true img = .ok fs img') :
    let count := leNat (slice img.bytes blocksCountField 8)
    let bs := leNat (slice img.bytes blockSizeField 8)
    let table := wadd count 7 / 8
    fs.rootInode = wsub (wadd (wadd sizeofSuperblock table) bs) 1 / bs ∧
      lookupTable + table ≤ img.mapped ∧
      markMetadata fs.rootInode 0 (clearTable img table) = .ok () img' := by
  obtain ⟨vals, s, hload, hcheck⟩ := bind_eq_ok.mp h
  obtain ⟨-, rfl⟩ := load_ok hload
  split at hcheck
  · cases hcheck
  obtain ⟨count, s, hcount, hread⟩ := bind_eq_ok.mp hcheck
  obtain ⟨hcountval, rfl⟩ := loadSize_ok hcount
  obtain ⟨bs, s, hbs, hclean⟩ := bind_eq_ok.mp hread
  obtain ⟨hbsval, rfl⟩ := loadSize_ok hbs
  simp only [← hcountval, ← hbsval] at hclean ⊢
  split at hclean
  · cases hclean
  rw [if_pos trivial] at hclean
  obtain ⟨_, s', hclear, hmarks⟩ := bind_eq_ok.mp hclean
  obtain ⟨_, s'', hmark, hpure⟩ := bind_eq_ok.mp hmarks
  obtain ⟨rfl, rfl⟩ := pure_eq_ok.mp hpure
  obtain rfl := formatStore_ok hclear
  refine ⟨rfl, ?_, hmark⟩
  unfold formatStore at hclear
  split at hclear
  · next hle => simpa using hle
  · cases hclear

/-- The marking loop marks the blocks it passes. -/
theorem markMetadata_run {g : Geometry} {img : Image} {n i : ℕ} (h : OnVolume g img)
    (hi : i + n ≤ g.root) :
    ∃ img', markMetadata n i img = .ok () img' ∧ OnVolume g img' ∧
      (∀ b, marked img' b = (marked img b || decide (i ≤ b ∧ b < i + n))) ∧
      ∀ b, g.root ≤ b → AgreeOn g img img' b := by
  have hroot := g.root_lt
  induction n generalizing img i with
  | zero =>
    refine ⟨img, rfl, h, fun b => ?_, fun b _ => AgreeOn.refl g img b⟩
    simp only [Nat.add_zero, Bool.eq_self_or, decide_eq_true_eq]
    omega
  | succ n ih =>
    have hb : i < g.blocksCount := by omega
    obtain ⟨img', hrun, hv, hmarks, hagree⟩ := ih (h.mark (b := i) (v := true)) (i := i + 1) (by omega)
    refine ⟨img', by rw [markMetadata, bind_of_ok (mark_run h _ hb), hrun], hv, fun b => ?_, ?_⟩
    · rw [hmarks, marked_mark]
      by_cases hbi : b = i
      · simp [hbi]
      · have hiff : (i + 1 ≤ b ∧ b < i + 1 + n) ↔ (i ≤ b ∧ b < i + (n + 1)) := by omega
        rw [if_neg hbi, decide_eq_decide.mpr hiff]
    · exact fun b hb' o m hom => (hagree b hb' o m hom).trans (blockSlice_mark hb hb')

/-- On a cleared table no block is marked. -/
theorem marked_cleared (img : Image) {table b : ℕ} (hb : b / 8 < table) :
    marked (clearTable img table) b = false := by
  have hbyte : blit img.bytes lookupTable (List.replicate table (0 : UInt8)) (lookupTable + b / 8) =
      0 := by
    rw [blit_add, List.getElem?_replicate, if_pos hb, Option.getD_some]
  rw [marked, clearTable]
  simp only [hbyte]
  simp

/-- Rounding up to whole blocks covers the metadata. -/
theorem le_ceilDiv_mul (x : ℕ) {bs : ℕ} (h : 0 < bs) : x ≤ (x + bs - 1) / bs * bs := by
  have hdiv := Nat.div_add_mod (x + bs - 1) bs
  have hmod := Nat.mod_lt (x + bs - 1) h
  rw [Nat.mul_comm] at hdiv
  omega

/-- The metadata blocks as `prepare_descriptors` counts them. -/
def metadataPages (blockSize blocksCount : ℕ) : ℕ :=
  (sizeofSuperblock + (blocksCount + 7) / 8 + blockSize - 1) / blockSize

/-- The sums of `prepare_descriptors` do not wrap for a table of `count` bits. -/
theorem metadataPages_words {bs count : ℕ} (hbs : sizeofINodeMain < bs)
    (hfit : count * bs < 2 ^ 63) (hpos : 0 < count) :
    wadd count 7 / 8 = (count + 7) / 8 ∧
      wsub (wadd (wadd sizeofSuperblock ((count + 7) / 8)) bs) 1 / bs = metadataPages bs count := by
  have hthirty := Nat.mul_le_mul_left count (show 30 ≤ bs from hbs)
  have hbslt := Nat.mul_le_mul_right bs (Nat.succ_le_of_lt hpos)
  have hsum : wsub (wadd (wadd sizeofSuperblock ((count + 7) / 8)) bs) 1 =
      sizeofSuperblock + (count + 7) / 8 + bs - 1 := by
    simp only [wadd, wsub, wordSize, sizeofSuperblock]
    omega
  refine ⟨?_, by rw [hsum, metadataPages]⟩
  rw [wadd, Nat.mod_eq_of_lt (by simp only [wordSize]; omega)]

theorem portability_run {img : Image} {bs count : ℕ} (hfits : sizeofSuperblock ≤ img.mapped)
    (h : slice img.bytes 0 sizeofSuperblock =
      leBytes 8 bs ++ leBytes 8 count ++ getPlatformValues.encode) :
    load portabilityField 20 img = .ok getPlatformValues.encode img := by
  have hdrop := congrArg (List.drop 16) h
  rw [slice_drop, show 16 = (leBytes 8 bs ++ leBytes 8 count).length by simp,
    List.drop_left] at hdrop
  rw [load_run (by simpa [portabilityField, sizeofSuperblock] using hfits), portabilityField]
  simpa [sizeofSuperblock] using hdrop

/-- `prepare_descriptors` on a volume; without the clean table it only reads. -/
theorem prepareDescriptors_volume {g : Geometry} {img : Image} (h : OnVolume g img)
    (hroot : g.root = metadataPages g.blockSize g.blocksCount) (clean : Bool) :
    prepareDescriptors clean img = (do
      if clean then do
        formatStore lookupTable (List.replicate ((g.blocksCount + 7) / 8) 0)
        markMetadata g.root 0
      pure ⟨g.root⟩ : FsM FsDescriptors) img := by
  have hvals := portability_run (superblock_fits h) h.superblock_eq
  obtain ⟨htable, hpages⟩ := metadataPages_words g.header_lt g.size_lt
    (Nat.lt_of_le_of_lt (Nat.zero_le _) g.root_lt)
  rw [prepareDescriptors, bind_of_ok hvals, platformValues_compatible, if_neg Bool.true_eq_false.mp,
    bind_of_ok (blocksCount_run h), bind_of_ok (blockSize_run h)]
  simp only
  rw [htable, hpages, ← hroot, if_neg g.blockSize_pos.ne']

theorem formatStore_run {img : Image} {a : ℕ} {d : List UInt8} (h : a + d.length ≤ img.mapped) :
    formatStore a d img = .ok () { img with bytes := blit img.bytes a d } := if_pos h

/-- A volume with its superblock written and its table cleared. -/
theorem onVolume_clearTable {g : Geometry} {img : Image}
    (hmapped : img.mapped = g.blocksCount * g.blockSize) (hstores : img.stores = []) :
    OnVolume g (superblockImage img g.blockSize g.blocksCount) ∧
      OnVolume g (clearTable (superblockImage img g.blockSize g.blocksCount)
        ((g.blocksCount + 7) / 8)) := by
  have hsb : SuperblockIs g.superblock img.mapped (superblockImage img g.blockSize g.blocksCount) :=
    ⟨superblockImage_slice img g.blockSize g.blocksCount, rfl⟩
  have hnone : ∀ i : Image, i.stores = [] → ∀ s ∈ i.stores, s.writer ≠ .mark →
      g.root * g.blockSize ≤ s.address := by
    intro i hi s hs
    rw [hi] at hs
    cases hs
  exact ⟨⟨hmapped, hsb.1, hnone _ hstores⟩, ⟨hmapped, (hsb.clearTable _).1, hnone _ hstores⟩⟩

/-- The superblock and the table are outside of the data blocks. -/
theorem blockSlice_clearTable {g : Geometry} (img : Image) {b o m : ℕ} (hb : g.root ≤ b) :
    blockSlice g (clearTable (superblockImage img g.blockSize g.blocksCount)
      ((g.blocksCount + 7) / 8)) b o m = slice img.bytes (b * g.blockSize + o) m := by
  have hdata := g.block_start hb
  have hle := g.metadata_le
  have henc : getPlatformValues.encode.length = 20 := rfl
  simp only [blockSlice, clearTable, superblockImage]
  rw [slice_blit_of_disjoint _ (Or.inr (by
      simp only [lookupTable, List.length_replicate]
      omega)),
    slice_blit_of_disjoint _ (Or.inr (by
      simp only [portabilityField, sizeofSuperblock] at *
      omega)),
    slice_blit_of_disjoint _ (Or.inr (by
      simp only [blocksCountField, leBytes_length, sizeofSuperblock] at *
      omega)),
    slice_blit_of_disjoint _ (Or.inr (by
      simp only [blockSizeField, leBytes_length, sizeofSuperblock] at *
      omega))]

/-- `prepare_descriptors` marks the metadata blocks of a new volume, and no others. -/
theorem prepareDescriptors_run {g : Geometry} {img : Image}
    (hroot : g.root = metadataPages g.blockSize g.blocksCount)
    (hmapped : img.mapped = g.blocksCount * g.blockSize) (hstores : img.stores = []) :
    ∃ img', prepareDescriptors true (superblockImage img g.blockSize g.blocksCount) =
        .ok ⟨g.root⟩ img' ∧
      OnVolume g img' ∧
      (∀ b, b / 8 < (g.blocksCount + 7) / 8 → (marked img' b = true ↔ b < g.root)) ∧
      ∀ b, g.root ≤ b → ∀ o m, o + m ≤ g.blockSize →
        blockSlice g img' b o m = slice img.bytes (b * g.blockSize + o) m := by
  obtain ⟨hvolume, hcleared⟩ := onVolume_clearTable hmapped hstores
  have hle := g.metadata_le
  have hblocks := Nat.mul_le_mul_right g.blockSize g.root_lt.le
  obtain ⟨img', hmark, hv, hmarks, hagree⟩ :=
    markMetadata_run (n := g.root) (i := 0) hcleared (by omega)
  have hclear : formatStore lookupTable (List.replicate ((g.blocksCount + 7) / 8) 0)
      (superblockImage img g.blockSize g.blocksCount) =
        .ok () (clearTable (superblockImage img g.blockSize g.blocksCount)
          ((g.blocksCount + 7) / 8)) := by
    refine formatStore_run ?_
    rw [hvolume.mapped_eq, List.length_replicate, lookupTable]
    omega
  refine ⟨img', ?_, hv, fun b hb => ?_, fun b hb o m hom => ?_⟩
  · rw [prepareDescriptors_volume hvolume hroot]
    simp only [if_true]
    rw [bind_of_ok hclear, bind_of_ok hmark, pure_run]
  · rw [hmarks, marked_cleared _ hb]
    simp
  · rw [hagree b hb o m hom, blockSlice_clearTable img hb]

/-- The superblock is written before anything of the volume is read. -/
theorem formatVolume_eq {img : Image} (pageSize pagesCount : ℕ)
    (hfits : sizeofSuperblock ≤ img.mapped) :
    formatVolume pageSize pagesCount img = (do
      let fs ← prepareDescriptors true
      let rootInode ← initNewFile flgDirectory
      if rootInode ≠ fs.rootInode then dieFatal .initFs
      else pure fs : FsM FsDescriptors) (superblockImage img pageSize pagesCount) := by
  have henc : getPlatformValues.encode.length = 20 := rfl
  rw [formatVolume, bind_of_ok (formatStore_run ?_), bind_of_ok (formatStore_run ?_),
    bind_of_ok (formatStore_run ?_)]
  · rfl
  all_goals
    simp only [sizeofSuperblock, portabilityField, blocksCountField, blockSizeField,
      leBytes_length, henc] at hfits ⊢
    omega

/-- A mapping without room for the superblock is left by one of the stores. -/
theorem formatVolume_fault {img : Image} (pageSize pagesCount : ℕ)
    (hshort : img.mapped < sizeofSuperblock) :
    ∃ s, formatVolume pageSize pagesCount img = .error .fault s := by
  have henc : getPlatformValues.encode.length = 20 := rfl
  have hstore : ∀ (i : Image) (a : ℕ) (d : List UInt8), formatStore a d i = .error .fault i ∨
      a + d.length ≤ i.mapped ∧ formatStore a d i = .ok () { i with bytes := blit i.bytes a d } := by
    intro i a d
    by_cases hin : a + d.length ≤ i.mapped
    · exact .inr ⟨hin, if_pos hin⟩
    · exact .inl (if_neg hin)
  rw [formatVolume]
  rcases hstore img blockSizeField (leBytes 8 pageSize) with hst | ⟨-, hst⟩
  · exact ⟨_, bind_of_error hst⟩
  rw [bind_of_ok hst]
  rcases hstore _ blocksCountField (leBytes 8 pagesCount) with hst | ⟨-, hst⟩
  · exact ⟨_, bind_of_error hst⟩
  rw [bind_of_ok hst]
  rcases hstore _ portabilityField getPlatformValues.encode with hst | ⟨hin, -⟩
  · exact ⟨_, bind_of_error hst⟩
  simp only [portabilityField, henc, sizeofSuperblock] at hin hshort
  omega

/-- Formatting succeeds when there is a block behind the metadata. -/
theorem formatVolume_run {g : Geometry} {img : Image}
    (hroot : g.root = metadataPages g.blockSize g.blocksCount)
    (hmapped : img.mapped = g.blocksCount * g.blockSize) (hstores : img.stores = []) :
    ∃ img', formatVolume g.blockSize g.blocksCount img = .ok ⟨g.root⟩ img' ∧
      Formatted g img' img.bytes ∧
      ∀ b, b / 8 < (g.blocksCount + 7) / 8 → (marked img' b = true ↔ b ≤ g.root) := by
  have hlt := g.root_lt
  obtain ⟨img₁, hprep, hv, hmarks, hrest⟩ := prepareDescriptors_run hroot hmapped hstores
  have hmarked : ∀ b < g.blocksCount, marked img₁ b = true ↔ b < g.root := fun b hb =>
    hmarks b (by omega)
  obtain ⟨rest, hfree⟩ := freeBlocks_eq_root_cons hmarked
  have hcreate := initNewFile_eq hv flgDirectory hfree
  have hc : Created g img₁ (headerImage g (img₁.mark g.root true) g.root flgDirectory) g.root
      flgDirectory := created_headerImage hv hlt le_rfl
    (by simpa using (hmarked g.root hlt).not.mpr (Nat.lt_irrefl _))
  have howned : Owned g img₁ ∅ :=
    { onVolume := hv
      metadata := fun b hb => (hmarked b (hb.trans hlt)).mpr hb
      chains := by simp
      used := by simp
      disjoint := by simp
      last := by simp }
  refine ⟨_, ?_, ⟨hc.owned howned, fun b hb => ?_, hc.ended, hc.content_eq, hc.flags,
    fun b hb o m hom => ?_⟩, fun b hb => ?_⟩
  · have hfits := superblock_fits (onVolume_clearTable hmapped hstores).1
    rw [formatVolume_eq _ _ (show sizeofSuperblock ≤ img.mapped from hfits), bind_of_ok hprep, bind_of_ok hcreate, if_neg (by simp), pure_run]
  · rw [hc.marks b hb, hmarked b hb]
    omega
  · rw [hc.others b hb.le (by omega) o m hom, hrest b hb.le o m hom]
  · rw [marked_headerImage le_rfl hb, hmarks b hb]
    omega

/-- Formatting that succeeds has got a block behind the metadata. -/
theorem formatVolume_ok {pageSize pagesCount : ℕ} {img img' : Image} {fs : FsDescriptors}
    (hps : sizeofINodeMain < pageSize) (hfit : pagesCount * pageSize < 2 ^ 63)
    (hmapped : pagesCount ≠ 0 → img.mapped = pagesCount * pageSize) (hstores : img.stores = [])
    (h : formatVolume pageSize pagesCount img = .ok fs img') :
    ∃ g : Geometry, g.blockSize = pageSize ∧ g.blocksCount = pagesCount ∧ g.root = fs.rootInode ∧
      Formatted g img' img.bytes := by
  have hrun := h
  obtain ⟨_, s₁, hst, hstart⟩ := bind_eq_ok.mp h
  obtain rfl := formatStore_ok hst
  obtain ⟨_, s₂, hst, hstart⟩ := bind_eq_ok.mp hstart
  obtain rfl := formatStore_ok hst
  obtain ⟨_, s₃, hst, hstart⟩ := bind_eq_ok.mp hstart
  obtain rfl := formatStore_ok hst
  obtain ⟨fs', img₄, hprep, hstart⟩ := bind_eq_ok.mp hstart
  obtain ⟨rootInode, img₅, hinit, hcheck⟩ := bind_eq_ok.mp hstart
  change prepareDescriptors true (superblockImage img pageSize pagesCount) = _ at hprep
  split at hcheck
  · cases hcheck
  next hroot =>
  obtain rfl : rootInode = fs'.rootInode := by simpa using hroot
  obtain ⟨hrootval, -, hmark⟩ := prepareDescriptors_ok hprep
  have hsb : SuperblockIs (leBytes 8 pageSize ++ leBytes 8 pagesCount ++ getPlatformValues.encode)
      (superblockImage img pageSize pagesCount).mapped (superblockImage img pageSize pagesCount) :=
    ⟨superblockImage_slice img pageSize pagesCount, rfl⟩
  -- the block count read back when the root was created bounds its block
  have hkept := (markMetadata_keeps _ _ fs'.rootInode 0).of_ok hmark (hsb.clearTable _)
  have hlt : fs'.rootInode < pagesCount := by
    have hbound := initNewFile_lt hinit
    rw [hkept.fields.1, leNat_leBytes_mod] at hbound
    exact Nat.lt_of_lt_of_le hbound (Nat.mod_le _ _)
  have hpos : 0 < pagesCount := Nat.lt_of_le_of_lt (Nat.zero_le _) hlt
  have hcountlt : pagesCount < 256 ^ 8 := by
    have := Nat.mul_le_mul_left pagesCount (show 1 ≤ pageSize from Nat.lt_of_le_of_lt (Nat.zero_le _) hps)
    omega
  have hpslt : pageSize < 256 ^ 8 := by
    have := Nat.mul_le_mul_right pageSize (Nat.succ_le_of_lt hpos)
    omega
  obtain ⟨htable, hpages⟩ := metadataPages_words hps hfit hpos
  rw [hsb.fields.1, hsb.fields.2, leNat_leBytes hcountlt, leNat_leBytes hpslt, htable, hpages]
    at hrootval
  let g : Geometry :=
    { blockSize := pageSize
      blocksCount := pagesCount
      root := fs'.rootInode
      header_lt := hps
      metadata_le := hrootval ▸ le_ceilDiv_mul _ (Nat.lt_of_le_of_lt (Nat.zero_le _) hps)
      root_lt := hlt
      size_lt := hfit }
  obtain ⟨img'', hformat, hg, -⟩ :=
    formatVolume_run (g := g) hrootval (hmapped (Nat.pos_iff_ne_zero.mp hpos)) hstores
  obtain ⟨rfl, rfl⟩ := EStateM.Result.ok.inj (hformat.symm.trans hrun)
  exact ⟨g, rfl, rfl, rfl, hg⟩

theorem openAndMap_ok {os : Platform} {file : List UInt8} {size : ℕ} {img : Image}
    (h : openAndMap os file size = .ok img) :
    img.bytes = (fun a => file.getD a 0) ∧ img.stores = [] ∧
      (size ≠ 0 → img.mapped = size ∧ size < 2 ^ 63) := by
  by_cases hresize : size ≠ 0 ∧ os.canResize size = false
  · rw [openAndMap, if_pos hresize] at h
    cases h
  rw [openAndMap, if_neg hresize] at h
  simp only at h
  generalize hlength : (if size = 0 then file.length else size) = length at h
  by_cases hmap : length ≠ 0 ∧ os.canMap length = true
  · rw [if_pos hmap] at h
    obtain rfl := Except.ok.inj h
    refine ⟨rfl, rfl, fun h0 => ⟨?_, os.canResize_lt size (by simpa [h0] using hresize)⟩⟩
    rw [if_neg h0] at hlength
    exact (if_neg h0).trans hlength.symm
  · rw [if_neg hmap] at h
    cases h

theorem pagesCount_fits (os : Platform) (size : ℕ) :
    wmul (pagesCount os size) os.pageSize = pagesCount os size * os.pageSize := by
  rw [wmul, pagesCount]
  generalize hx : wsub (wadd (if size < sizeofSuperblock then sizeofSuperblock else size)
    os.pageSize) 1 = x
  have hlt : x < wordSize := by
    rw [← hx]
    exact Nat.mod_lt _ (by simp only [wordSize]; omega)
  exact Nat.mod_eq_of_lt (Nat.lt_of_le_of_lt (Nat.div_mul_le_self x os.pageSize) hlt)

/-- `init_fs` that succeeds leaves a formatted volume on the old bytes of the file. -/
theorem initFs_ok {os : Platform} {file : List UInt8} {size : ℕ} {fs : FsDescriptors} {img : Image}
    (h : initFs os file size = .ok (fs, img)) :
    ∃ g : Geometry, g.blockSize = os.pageSize ∧ g.blocksCount = pagesCount os size ∧
      g.root = fs.rootInode ∧ Formatted g img fun a => file.getD a 0 := by
  have hpos : os.pageSize ≠ 0 := by
    have := os.header_lt
    omega
  rw [initFs, pagesCount_fits] at h
  cases hopen : openAndMap os file (pagesCount os size * os.pageSize) with
  | error e =>
    rw [hopen] at h
    cases h
  | ok img₀ =>
    obtain ⟨hbytes, hstores, hsize⟩ := openAndMap_ok hopen
    rw [hopen, onMapping] at h
    cases hformat : formatVolume os.pageSize (pagesCount os size) img₀ with
    | error e s =>
      rw [hformat] at h
      cases h
    | ok fs' img' =>
      rw [hformat] at h
      obtain ⟨rfl, rfl⟩ := Prod.mk.inj (Except.ok.inj h)
      have hbound : pagesCount os size * os.pageSize < 2 ^ 63 := by
        by_cases h0 : pagesCount os size * os.pageSize = 0
        · omega
        · exact (hsize h0).2
      obtain ⟨g, hbs, hblocks, hroot, hg⟩ := formatVolume_ok os.header_lt hbound
        (fun h0 => (hsize (Nat.mul_ne_zero h0 hpos)).1) hstores hformat
      rw [hbytes] at hg
      exact ⟨g, hbs, hblocks, hroot, hg⟩

end KisLinux.Fs
