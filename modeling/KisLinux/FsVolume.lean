import KisLinux.FsManage
import KisLinux.LinkedChain
import Mathlib.Tactic.IntervalCases

/-!
# Volumes

A geometry fixes the numbers that the superblock of a volume holds. `OnVolume`
says that an image carries that superblock, is mapped in full, and that nothing
but the lookup table was ever stored below the first data block. The blocks of
an image are looked at through `blockSlice`, and the lookup table through
`marked`; the lemmas below are the only ones that unfold addresses.
-/
namespace KisLinux.Fs
open ByteMemory StateRun

structure Geometry where
  blockSize : ℕ
  blocksCount : ℕ
  /-- The number of metadata blocks, which also is the block of the root directory. -/
  root : ℕ
  header_lt : sizeofINodeMain < blockSize
  metadata_le : sizeofSuperblock + (blocksCount + 7) / 8 ≤ root * blockSize
  root_lt : root < blocksCount
  /-- The length of a file is a signed number. -/
  size_lt : blocksCount * blockSize < 2 ^ 63

namespace Geometry

variable (g : Geometry)

/-- Data bytes in the first block of a file and in the others. -/
def firstBlockSize : ℕ := g.blockSize - sizeofINodeMain
def commonBlockSize : ℕ := g.blockSize - sizeofINode

/-- `get_blocks_required` without wrap-around. -/
def blocksRequired (size : ℕ) : ℕ :=
  if size ≤ g.firstBlockSize then 1
  else (size - g.firstBlockSize + g.commonBlockSize - 1) / g.commonBlockSize + 1

/-- The data bytes that `k` blocks of one file hold. -/
def capacity (k : ℕ) : ℕ := g.firstBlockSize + (k - 1) * g.commonBlockSize

def superblock : List UInt8 :=
  leBytes 8 g.blockSize ++ leBytes 8 g.blocksCount ++ getPlatformValues.encode

theorem blockSize_pos : 0 < g.blockSize := Nat.lt_of_le_of_lt (Nat.zero_le _) g.header_lt

theorem firstBlockSize_pos : 0 < g.firstBlockSize := Nat.sub_pos_of_lt g.header_lt

theorem firstBlockSize_eq : g.firstBlockSize + sizeofINodeMain = g.blockSize :=
  Nat.sub_add_cancel g.header_lt.le

theorem commonBlockSize_eq : g.commonBlockSize = g.firstBlockSize + 21 := by
  have h := g.firstBlockSize_eq
  simp only [commonBlockSize, sizeofINode, sizeofINodeMain] at *
  omega

theorem commonBlockSize_add : g.commonBlockSize + sizeofINode = g.blockSize := by
  have h := g.firstBlockSize_eq
  have h' := g.commonBlockSize_eq
  simp only [sizeofINode, sizeofINodeMain] at *
  omega

theorem root_pos : 0 < g.root := by
  by_contra h
  have h0 : g.root = 0 := by omega
  have := g.metadata_le
  rw [h0, Nat.zero_mul] at this
  simp only [sizeofSuperblock] at this
  omega

theorem mapped_lt : g.blocksCount * g.blockSize < wordSize := by
  have h := g.size_lt
  simp only [wordSize]
  omega

theorem blockSize_lt : g.blockSize < wordSize := by
  have hpos : 1 ≤ g.blocksCount := Nat.succ_le_of_lt (Nat.lt_of_le_of_lt (Nat.zero_le _) g.root_lt)
  have h := Nat.mul_le_mul_right g.blockSize hpos
  rw [Nat.one_mul] at h
  exact Nat.lt_of_le_of_lt h g.mapped_lt

theorem blocksCount_lt : g.blocksCount < wordSize := by
  have h := Nat.mul_le_mul_left g.blocksCount (Nat.succ_le_of_lt g.blockSize_pos)
  rw [Nat.succ_eq_add_one, Nat.zero_add, Nat.mul_one] at h
  exact Nat.lt_of_le_of_lt h g.mapped_lt

/-- A range inside a block lies inside the mapping. -/
theorem block_range {b o n : ℕ} (hb : b < g.blocksCount) (ho : o + n ≤ g.blockSize) :
    b * g.blockSize + o + n ≤ g.blocksCount * g.blockSize := by
  have h := Nat.mul_le_mul_right g.blockSize (Nat.succ_le_of_lt hb)
  rw [Nat.succ_mul] at h
  omega

theorem block_start {b : ℕ} (h : g.root ≤ b) : g.root * g.blockSize ≤ b * g.blockSize :=
  Nat.mul_le_mul_right _ h

/-- Ranges inside different blocks do not meet. -/
theorem block_disjoint {b b' o o' n n' : ℕ} (hne : b ≠ b') (ho : o + n ≤ g.blockSize)
    (ho' : o' + n' ≤ g.blockSize) :
    b * g.blockSize + o + n ≤ b' * g.blockSize + o' ∨
      b' * g.blockSize + o' + n' ≤ b * g.blockSize + o := by
  rcases Nat.lt_or_gt_of_ne hne with h | h
  · have := Nat.mul_le_mul_right g.blockSize (Nat.succ_le_of_lt h)
    rw [Nat.succ_mul] at this
    omega
  · have := Nat.mul_le_mul_right g.blockSize (Nat.succ_le_of_lt h)
    rw [Nat.succ_mul] at this
    omega

theorem metadata_byte {b : ℕ} (hb : b < g.blocksCount) :
    sizeofSuperblock + b / 8 + 1 ≤ g.root * g.blockSize := by
  have h := g.metadata_le
  omega

theorem blocksRequired_pos (size : ℕ) : 0 < g.blocksRequired size := by
  unfold blocksRequired
  split
  · exact Nat.one_pos
  · exact Nat.succ_pos _

/-- The size formula is the least number of blocks that hold the bytes. -/
theorem blocksRequired_le_iff {size k : ℕ} (hk : 0 < k) :
    g.blocksRequired size ≤ k ↔ size ≤ g.capacity k := by
  have hpos : 0 < g.commonBlockSize := by rw [g.commonBlockSize_eq]; omega
  unfold blocksRequired capacity
  split_ifs with h
  · exact ⟨fun _ => by omega, fun _ => hk⟩
  · obtain ⟨j, rfl⟩ : ∃ j, k = j + 1 := ⟨k - 1, by omega⟩
    rw [Nat.add_le_add_iff_right, ← Nat.lt_succ_iff, Nat.div_lt_iff_lt_mul hpos, Nat.succ_mul,
      Nat.add_sub_cancel]
    omega

theorem size_le_capacity (size : ℕ) : size ≤ g.capacity (g.blocksRequired size) :=
  (g.blocksRequired_le_iff (g.blocksRequired_pos size)).mp le_rfl

theorem blocksRequired_mono {m n : ℕ} (h : m ≤ n) : g.blocksRequired m ≤ g.blocksRequired n :=
  (g.blocksRequired_le_iff (g.blocksRequired_pos n)).mpr (h.trans (g.size_le_capacity n))

@[simp] theorem blocksRequired_zero : g.blocksRequired 0 = 1 := by simp [blocksRequired]

end Geometry

structure OnVolume (g : Geometry) (img : Image) : Prop where
  mapped_eq : img.mapped = g.blocksCount * g.blockSize
  superblock_eq : slice img.bytes 0 sizeofSuperblock = g.superblock
  guarded : ∀ s ∈ img.stores, s.writer ≠ .mark → g.root * g.blockSize ≤ s.address

/-- The bit of a block in the lookup table. -/
def marked (img : Image) (b : ℕ) : Bool :=
  (img.bytes (lookupTable + b / 8)).toNat.testBit (b % 8)

/-- `n` bytes of a block from offset `o` on. -/
def blockSlice (g : Geometry) (img : Image) (b o n : ℕ) : List UInt8 :=
  slice img.bytes (b * g.blockSize + o) n

/-- A `size_t` field of a block, and the four fields by name. -/
def fieldOf (g : Geometry) (img : Image) (b o : ℕ) : ℕ := leNat (blockSlice g img b o 8)

def linkOf (g : Geometry) (img : Image) (b : ℕ) : ℕ := fieldOf g img b continuationInode
def sizeOfNode (g : Geometry) (img : Image) (b : ℕ) : ℕ := fieldOf g img b sizeField
def lastOf (g : Geometry) (img : Image) (b : ℕ) : ℕ := fieldOf g img b lastInodeField
def flagsOf (g : Geometry) (img : Image) (b : ℕ) : UInt8 :=
  img.bytes (b * g.blockSize + flagsField)

theorem flagsOf_eq (g : Geometry) (img : Image) (b : ℕ) :
    flagsOf g img b = (blockSlice g img b flagsField 1).headD 0 := rfl

theorem fieldOf_lt (g : Geometry) (img : Image) (b o : ℕ) : fieldOf g img b o < wordSize := by
  have h := leNat_lt (blockSlice g img b o 8)
  rw [blockSlice, slice_length] at h
  exact h

@[simp] theorem blockSlice_length (g : Geometry) (img : Image) (b o n : ℕ) :
    (blockSlice g img b o n).length = n := slice_length _ _ _

/-- The image after a store into a block. -/
def Image.putBlock (g : Geometry) (img : Image) (w : Writer) (b o : ℕ) (d : List UInt8) : Image :=
  img.put w (b * g.blockSize + o) d

/-- The image after marking a block. -/
def Image.mark (img : Image) (b : ℕ) (occupied : Bool) : Image :=
  img.put .mark (lookupTable + b / 8)
    [setBit (img.bytes (lookupTable + b / 8)) (b % 8) occupied]

section Frames

variable {g : Geometry} {img : Image} {w : Writer} {b o : ℕ} {d : List UInt8}

theorem blockSlice_putBlock_of_ne {b' o' n : ℕ} (hne : b' ≠ b) (ho : o + d.length ≤ g.blockSize)
    (ho' : o' + n ≤ g.blockSize) :
    blockSlice g (img.putBlock g w b o d) b' o' n = blockSlice g img b' o' n :=
  slice_blit_of_disjoint _ (g.block_disjoint hne ho' ho)

theorem blockSlice_putBlock_of_disjoint {o' n : ℕ} (h : o' + n ≤ o ∨ o + d.length ≤ o') :
    blockSlice g (img.putBlock g w b o d) b o' n = blockSlice g img b o' n :=
  slice_blit_of_disjoint _ (by omega)

theorem blockSlice_putBlock_self :
    blockSlice g (img.putBlock g w b o d) b o d.length = d := slice_blit_self _ _ _

theorem blockSlice_putBlock_within {n : ℕ} (o' : ℕ) (h : o' + d.length ≤ n) :
    blockSlice g (img.putBlock g w b (o + o') d) b o n = overwrite (blockSlice g img b o n) o' d := by
  simp only [blockSlice, Image.putBlock, Image.put_bytes]
  rw [← Nat.add_assoc, slice_blit_within _ _ _ _ _ h]

/-- A store into one field leaves every other part of the blocks alone. -/
theorem blockSlice_putField {b' o' m v : ℕ} (ho : o + 8 ≤ g.blockSize) (ho' : o' + m ≤ g.blockSize)
    (h : b' ≠ b ∨ o' + m ≤ o ∨ o + 8 ≤ o') :
    blockSlice g (img.putBlock g w b o (leBytes 8 v)) b' o' m = blockSlice g img b' o' m := by
  by_cases hb : b' = b
  · subst hb
    refine blockSlice_putBlock_of_disjoint ?_
    rw [leBytes_length]
    exact h.resolve_left fun hne => hne rfl
  · exact blockSlice_putBlock_of_ne hb (by rwa [leBytes_length]) ho'

theorem fieldOf_putField {b' o' v : ℕ} (ho : o + 8 ≤ g.blockSize) (ho' : o' + 8 ≤ g.blockSize)
    (h : b' ≠ b ∨ o' + 8 ≤ o ∨ o + 8 ≤ o') :
    fieldOf g (img.putBlock g w b o (leBytes 8 v)) b' o' = fieldOf g img b' o' := by
  rw [fieldOf, blockSlice_putField ho ho' h, fieldOf]

theorem OnVolume.putBlock (h : OnVolume g img) (hb : g.root ≤ b) :
    OnVolume g (img.putBlock g w b o d) where
  mapped_eq := h.mapped_eq
  superblock_eq := by
    rw [← h.superblock_eq]
    have := g.metadata_le
    have := g.block_start hb
    exact slice_blit_of_disjoint _ (Or.inl (by omega))
  guarded := by
    intro s hs hw
    simp only [Image.putBlock, Image.put_stores, List.mem_cons] at hs
    rcases hs with rfl | hs
    · have := g.block_start hb
      show g.root * g.blockSize ≤ b * g.blockSize + o
      omega
    · exact h.guarded s hs hw

theorem bytes_putBlock {a : ℕ} (h : a < b * g.blockSize + o ∨ b * g.blockSize + o + d.length ≤ a) :
    (img.putBlock g w b o d).bytes a = img.bytes a :=
  h.elim (blit_of_lt _ _) (blit_of_le _ _)

theorem bytes_mark {a : ℕ} {v : Bool} (h : a ≠ lookupTable + b / 8) :
    (img.mark b v).bytes a = img.bytes a :=
  (Nat.lt_or_gt_of_ne h).elim (blit_of_lt _ _) fun h => blit_of_le _ _ h

/-- A store into a data block changes no bit of the table, bits past the last block included. -/
theorem marked_putBlock_of_table {x : ℕ} (hb : g.root ≤ b)
    (hx : x / 8 < (g.blocksCount + 7) / 8) :
    marked (img.putBlock g w b o d) x = marked img x := by
  have h1 := g.metadata_le
  have h2 := g.block_start hb
  rw [marked, bytes_putBlock (Or.inl (by simp only [lookupTable]; omega)), marked]

theorem marked_putBlock {x : ℕ} (hb : g.root ≤ b) (hx : x < g.blocksCount) :
    marked (img.putBlock g w b o d) x = marked img x :=
  marked_putBlock_of_table hb (by omega)

theorem blockSlice_mark {b' o' n : ℕ} {v : Bool} (hb : b < g.blocksCount) (hb' : g.root ≤ b') :
    blockSlice g (img.mark b v) b' o' n = blockSlice g img b' o' n := by
  apply slice_blit_of_disjoint
  have h1 := g.metadata_byte hb
  have h2 := g.block_start hb'
  simp only [lookupTable, List.length_singleton]
  omega

theorem OnVolume.mark {v : Bool} (h : OnVolume g img) : OnVolume g (img.mark b v) where
  mapped_eq := h.mapped_eq
  superblock_eq := by
    rw [← h.superblock_eq]
    exact slice_blit_of_disjoint _ (Or.inl (by simp only [lookupTable]; omega))
  guarded := by
    intro s hs hw
    simp only [Image.mark, Image.put_stores, List.mem_cons] at hs
    rcases hs with rfl | hs
    · exact absurd rfl hw
    · exact h.guarded s hs hw

end Frames

theorem toNat_one_shiftLeft {i : ℕ} (hi : i < 8) :
    ((1 : UInt8) <<< UInt8.ofNat i).toNat = 2 ^ i := by
  interval_cases i <;> rfl

theorem testBit_not_one_shiftLeft {i j : ℕ} (hi : i < 8) (hj : j < 8) :
    (~~~((1 : UInt8) <<< UInt8.ofNat i)).toNat.testBit j = decide (i ≠ j) := by
  interval_cases i <;> interval_cases j <;> rfl

theorem testBit_setBit (cur : UInt8) {i j : ℕ} (hi : i < 8) (hj : j < 8) (v : Bool) :
    (setBit cur i v).toNat.testBit j = if j = i then v else cur.toNat.testBit j := by
  cases v with
  | true =>
    rw [setBit, if_pos rfl, UInt8.toNat_or, Nat.testBit_or, toNat_one_shiftLeft hi,
      Nat.testBit_two_pow]
    by_cases h : j = i
    · simp [h]
    · simp [h, Ne.symm h]
  | false =>
    rw [setBit, if_neg (by simp), UInt8.toNat_and, Nat.testBit_and,
      testBit_not_one_shiftLeft hi hj]
    by_cases h : j = i
    · simp [h]
    · simp [h, Ne.symm h]

theorem marked_mark (img : Image) (b x : ℕ) (v : Bool) :
    marked (img.mark b v) x = if x = b then v else marked img x := by
  simp only [marked, Image.mark, Image.put_bytes]
  by_cases hbyte : x / 8 = b / 8
  · rw [hbyte]
    have hb := blit_add img.bytes (lookupTable + b / 8) 0
      [setBit (img.bytes (lookupTable + b / 8)) (b % 8) v]
    rw [Nat.add_zero] at hb
    rw [hb]
    simp only [List.getElem?_cons_zero, Option.getD_some]
    rw [testBit_setBit _ (Nat.mod_lt _ (by omega)) (Nat.mod_lt _ (by omega))]
    by_cases hx : x = b
    · simp [hx]
    · rw [if_neg hx, if_neg (by omega)]
  · rw [if_neg (by rintro rfl; exact hbyte rfl)]
    rcases Nat.lt_or_gt_of_ne hbyte with h | h
    · rw [blit_of_lt _ _ (by omega)]
    · rw [blit_of_le _ _ (by simp; omega)]

/-! ## The primitive operations on a volume -/

theorem getInode_zero (img : Image) : getInode 0 img = .ok none img := rfl

section Runs

variable {g : Geometry} {img : Image} (h : OnVolume g img)
include h

theorem superblock_fits : sizeofSuperblock ≤ img.mapped := by
  have h1 := g.metadata_le
  have h2 := g.block_range (o := 0) (n := 0) g.root_lt (Nat.zero_le _)
  rw [h.mapped_eq]
  omega

theorem superblock_words : leNat (slice img.bytes blockSizeField 8) = g.blockSize ∧
    leNat (slice img.bytes blocksCountField 8) = g.blocksCount := by
  have hs : slice img.bytes blockSizeField 8 = leBytes 8 g.blockSize := by
    have htake := congrArg (List.take 8) h.superblock_eq
    rw [slice_take] at htake
    simpa [Geometry.superblock, sizeofSuperblock, blockSizeField] using htake
  have hc : slice img.bytes blocksCountField 8 = leBytes 8 g.blocksCount := by
    have htake := congrArg (fun l => (l.drop 8).take 8) h.superblock_eq
    simp only [slice_drop, slice_take] at htake
    simpa [Geometry.superblock, sizeofSuperblock, blocksCountField] using htake
  rw [hs, hc]
  exact ⟨leNat_leBytes g.blockSize_lt, leNat_leBytes g.blocksCount_lt⟩

theorem blockSize_run : blockSize img = .ok g.blockSize img := by
  have hfit := superblock_fits h
  simp only [sizeofSuperblock] at hfit
  rw [blockSize, loadSize_run (by simp only [blockSizeField]; omega), (superblock_words h).1]

theorem blocksCount_run : blocksCount img = .ok g.blocksCount img := by
  have hfit := superblock_fits h
  simp only [sizeofSuperblock] at hfit
  rw [blocksCount, loadSize_run (by simp only [blocksCountField]; omega), (superblock_words h).2]

theorem blockAddress_run {b : ℕ} (hb : b < g.blocksCount) :
    blockAddress b img = .ok (b * g.blockSize) img := by
  have hlt : b * g.blockSize < wordSize :=
    Nat.lt_of_le_of_lt (Nat.mul_le_mul_right _ hb.le) g.mapped_lt
  rw [blockAddress, bind_of_ok (blockSize_run h), pure_run, wmul, Nat.mod_eq_of_lt hlt]

theorem getInode_run {b : ℕ} (h0 : 0 < b) (hb : b < g.blocksCount) :
    getInode b img = .ok (some (b * g.blockSize)) img := by
  rw [getInode, if_neg (by omega), bind_of_ok (blocksCount_run h), if_neg (by omega),
    bind_of_ok (blockAddress_run h hb), pure_run]

theorem getInode_past {b : ℕ} (hb : g.blocksCount ≤ b) :
    getInode b img = .error (.die .getInode) img := by
  have hpos := Nat.lt_of_le_of_lt (Nat.zero_le _) g.root_lt
  rw [getInode, if_neg (by omega), bind_of_ok (blocksCount_run h), if_pos hb, dieFatal_run]

theorem getField_run {b o : ℕ} (hb : b < g.blocksCount) (ho : o + 8 ≤ g.blockSize) :
    getField (some (b * g.blockSize)) o img = .ok (fieldOf g img b o) img := by
  have hr := g.block_range hb ho
  rw [getField, bind_of_ok (deref_some _ _), loadSize_run (by rw [h.mapped_eq]; omega)]
  rfl

theorem setField_run {b o : ℕ} (v : ℕ) (hb : b < g.blocksCount) (ho : o + 8 ≤ g.blockSize) :
    setField (some (b * g.blockSize)) o v img =
      .ok () (img.putBlock g .field b o (leBytes 8 v)) := by
  have hr := g.block_range hb ho
  rw [setField, bind_of_ok (deref_some _ _), storeSize_run _ (by rw [h.mapped_eq]; omega)]
  rfl

theorem getFlags_run {b : ℕ} (hb : b < g.blocksCount) :
    getFlags (some (b * g.blockSize)) img = .ok (flagsOf g img b) img := by
  have hh := g.header_lt
  simp only [sizeofINodeMain] at hh
  have hr := g.block_range (o := flagsField) (n := 1) hb (by simp only [flagsField]; omega)
  rw [getFlags, bind_of_ok (deref_some _ _), loadByte_run (by rw [h.mapped_eq]; omega)]
  rfl

theorem getNextInode_run {b : ℕ} (hb : b < g.blocksCount) :
    getNextInode (some (b * g.blockSize)) img = getInode (linkOf g img b) img := by
  have hh := g.header_lt
  simp only [sizeofINodeMain] at hh
  rw [getNextInode, bind_of_ok (getField_run h hb (by simp only [continuationInode]; omega))]
  rfl

theorem mark_run {b : ℕ} (v : Bool) (hb : b < g.blocksCount) :
    markBlockInLookupTable b v img = .ok () (img.mark b v) := by
  have h1 := g.metadata_byte hb
  have h2 := g.block_range (o := 0) (n := 0) g.root_lt (Nat.zero_le _)
  have hle : lookupTable + b / 8 + 1 ≤ img.mapped := by
    rw [h.mapped_eq]
    simp only [lookupTable]
    omega
  rw [markBlockInLookupTable, bind_of_ok (blocksCount_run h), if_neg (by omega),
    bind_of_ok (loadByte_run hle), store_run (by simpa using hle)]
  rfl

theorem mark_past {b : ℕ} (v : Bool) (hb : g.blocksCount ≤ b) :
    markBlockInLookupTable b v img = .error (.die .markBlock) img := by
  rw [markBlockInLookupTable, bind_of_ok (blocksCount_run h), if_pos hb, dieFatal_run]

/-- The size formula of the code is the one without wrap-around as long as the
rounding does not reach the top of `size_t`. -/
theorem getBlocksRequired_run {size : ℕ} (hs : size + 21 ≤ wordSize) :
    getBlocksRequired size img = .ok (g.blocksRequired size) img := by
  have hlt := g.blockSize_lt
  have hfb := g.firstBlockSize_eq
  have hcb := g.commonBlockSize_eq
  have hcb' := g.commonBlockSize_add
  have hfpos := g.firstBlockSize_pos
  have hf : wsub g.blockSize sizeofINodeMain = g.firstBlockSize := by
    simp only [wsub, sizeofINodeMain, wordSize] at *
    omega
  have hc : wsub g.blockSize sizeofINode = g.commonBlockSize := by
    simp only [wsub, sizeofINodeMain, sizeofINode, wordSize] at *
    omega
  rw [getBlocksRequired, bind_of_ok (blockSize_run h)]
  simp only [hf, hc]
  by_cases hle : size ≤ g.firstBlockSize
  · rw [if_pos hle, Geometry.blocksRequired, if_pos hle, pure_run]
  · have hsub : wsub (wadd (wsub size g.firstBlockSize) g.commonBlockSize) 1 =
        size - g.firstBlockSize + g.commonBlockSize - 1 := by
      simp only [wsub, wadd, wordSize] at *
      omega
    have hq : (size - g.firstBlockSize + g.commonBlockSize - 1) / g.commonBlockSize + 1 <
        wordSize := by
      have hmul := Nat.div_mul_le_self (size - g.firstBlockSize + g.commonBlockSize - 1)
        g.commonBlockSize
      have htwo := Nat.mul_le_mul_left
        ((size - g.firstBlockSize + g.commonBlockSize - 1) / g.commonBlockSize)
        (show 2 ≤ g.commonBlockSize by omega)
      simp only [wordSize] at *
      omega
    rw [if_neg hle, if_neg (by omega), Geometry.blocksRequired, if_neg hle, hsub, wadd,
      Nat.mod_eq_of_lt hq, pure_run]

end Runs

end KisLinux.Fs
