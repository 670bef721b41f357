import KisLinux.ByteMemory
import KisLinux.StateRun

/-!
# The mapped volume image

The daemon works on a file mapped into memory. Addresses below are offsets from
`container`; a null pointer is `none`. Every access is checked against the
mapped length, so that leaving the mapping or following a null pointer stops the
run with `Stop.fault`. The field offsets are those of the packed structures of
`rfscore/fs.h`.

`stores` is a ghost record of the stores made into the mapping, apart from those
that format it: the code never reads the record, it only lets statements speak
about who wrote where.
-/
namespace KisLinux.Fs
open ByteMemory StateRun

/-- `size_t` arithmetic is modulo `2 ^ 64`. -/
def wordSize : ℕ := 2 ^ 64

def wadd (a b : ℕ) : ℕ := (a + b) % wordSize
def wsub (a b : ℕ) : ℕ := (a + wordSize - b) % wordSize
def wmul (a b : ℕ) : ℕ := (a * b) % wordSize

/-- One less than a sum, as long as that fits. -/
theorem wsub_wadd_one {a b : ℕ} (hb : 0 < b) (h : a + b - 1 < wordSize) :
    wsub (wadd a b) 1 = a + b - 1 := by
  simp only [wsub, wadd, wordSize] at *
  omega

def sizeofINode : ℕ := 8
def sizeofINodeMain : ℕ := 29
def fileNameLength : ℕ := 256
def sizeofDirectoryItem : ℕ := 264
def sizeofSuperblock : ℕ := 36

theorem sizeofDirectoryItem_pos : 0 < sizeofDirectoryItem := Nat.succ_pos 263

/-- Offsets inside `INodeMain`; `continuationInode` also is the one of `INode`. -/
def continuationInode : ℕ := 0
def sizeField : ℕ := 8
def linksCount : ℕ := 16
def flagsField : ℕ := 20
def lastInodeField : ℕ := 21

/-- Offsets inside `Superblock`. -/
def blockSizeField : ℕ := 0
def blocksCountField : ℕ := 8
def portabilityField : ℕ := 16

/-- `lookup_table` follows the superblock. -/
def lookupTable : ℕ := sizeofSuperblock

def flgDirectory : UInt8 := 1
def flgFile : UInt8 := 2

/-- The messages given to `die_fatal` and, for mapping and allocation, to `die`. -/
inductive FsError
  | openFile
  | prepareFile
  | markBlock
  | noSpace
  | incompatible
  | initFs
  | getInode
  | invalidPosition
  | notFile
  | notDirectory
  | readDirectory
  | noSuchFile
  | invalidPath
  | tooLongName
  | memory
  deriving DecidableEq, Repr

def FsError.text : FsError → String
  | openFile => "Error occurred while opening file"
  | prepareFile => "Error occurred while preparing file"
  | markBlock => "Internal error (mark_block_in_lookup_table)"
  | noSpace => "No space"
  | incompatible => "The filesystem is incompatible with your platfrom"
  | initFs => "Internal error (init_fs)"
  | getInode => "Internal error (get_inode)"
  | invalidPosition => "Invalid position in file"
  | notFile => "It is not file"
  | notDirectory => "It is not directory"
  | readDirectory => "Internal error (read_directory)"
  | noSuchFile => "No such file or directory"
  | invalidPath => "Invalid path"
  | tooLongName => "Too long file name"
  | memory => "Memory allocation failed"

/-- Why a run ended early: an error report, an access outside every object or a signal
(what the process does then is not defined by the code, or it is at its end), or a
loop that used up the number of rounds it was given. -/
inductive Stop
  | die (e : FsError)
  | fault
  | diverged
  deriving DecidableEq, Repr

/-- Which piece of code made a store. -/
inductive Writer
  | mark
  | field
  | memcpy
  deriving DecidableEq, Repr

structure Store where
  writer : Writer
  address : ℕ
  length : ℕ
  deriving DecidableEq, Repr

structure Image where
  bytes : Memory
  mapped : ℕ
  stores : List Store

/-- The image after one store. -/
def Image.put (img : Image) (w : Writer) (a : ℕ) (d : List UInt8) : Image :=
  { img with bytes := blit img.bytes a d, stores := ⟨w, a, d.length⟩ :: img.stores }

@[simp] theorem Image.put_bytes (img : Image) (w : Writer) (a : ℕ) (d : List UInt8) :
    (img.put w a d).bytes = blit img.bytes a d := rfl

@[simp] theorem Image.put_mapped (img : Image) (w : Writer) (a : ℕ) (d : List UInt8) :
    (img.put w a d).mapped = img.mapped := rfl

@[simp] theorem Image.put_stores (img : Image) (w : Writer) (a : ℕ) (d : List UInt8) :
    (img.put w a d).stores = ⟨w, a, d.length⟩ :: img.stores := rfl

abbrev FsM := EStateM Stop Image

/-- Pointers into the mapping. -/
abbrev Ptr := Option ℕ

def dieFatal {α : Type} (e : FsError) : FsM α := throw (.die e)

@[simp] theorem dieFatal_run {α : Type} (e : FsError) (img : Image) :
    (dieFatal e : FsM α) img = .error (.die e) img := rfl

/-- `memcpy` out of the mapping. -/
def load (a n : ℕ) : FsM (List UInt8) := fun img =>
  if a + n ≤ img.mapped then .ok (slice img.bytes a n) img else .error .fault img

/-- `memcpy` into the mapping. -/
def store (w : Writer) (a : ℕ) (d : List UInt8) : FsM Unit := fun img =>
  if a + d.length ≤ img.mapped then .ok () (img.put w a d) else .error .fault img

/-- A store that formats the volume; it is not recorded. -/
def formatStore (a : ℕ) (d : List UInt8) : FsM Unit := fun img =>
  if a + d.length ≤ img.mapped then .ok () { img with bytes := blit img.bytes a d }
  else .error .fault img

theorem load_run {img : Image} {a n : ℕ} (h : a + n ≤ img.mapped) :
    load a n img = .ok (slice img.bytes a n) img := if_pos h

theorem store_run {img : Image} {w : Writer} {a : ℕ} {d : List UInt8}
    (h : a + d.length ≤ img.mapped) : store w a d img = .ok () (img.put w a d) := if_pos h

/-- A `size_t` in memory. -/
def loadSize (a : ℕ) : FsM ℕ := do
  let b ← load a 8
  pure (leNat b)

def storeSize (a v : ℕ) : FsM Unit := store .field a (leBytes 8 v)

def loadByte (a : ℕ) : FsM UInt8 := do
  let b ← load a 1
  pure (b.headD 0)

/-- The address a pointer names; a null pointer must not be followed. -/
def deref : Ptr → FsM ℕ
  | some a => pure a
  | none => throw .fault

@[simp] theorem deref_some (a : ℕ) (img : Image) : deref (some a) img = .ok a img := rfl

@[simp] theorem deref_none (img : Image) : deref none img = .error .fault img := rfl

theorem loadSize_run {img : Image} {a : ℕ} (h : a + 8 ≤ img.mapped) :
    loadSize a img = .ok (leNat (slice img.bytes a 8)) img := by
  rw [loadSize, bind_of_ok (load_run h), pure_run]

theorem storeSize_run {img : Image} {a : ℕ} (v : ℕ) (h : a + 8 ≤ img.mapped) :
    storeSize a v img = .ok () (img.put .field a (leBytes 8 v)) :=
  store_run (by simpa using h)

theorem loadByte_run {img : Image} {a : ℕ} (h : a + 1 ≤ img.mapped) :
    loadByte a img = .ok (img.bytes a) img := by
  rw [loadByte, bind_of_ok (load_run h), pure_run]
  rfl

theorem load_readOnly (a n : ℕ) : ReadOnly (load a n) := fun img => by
  unfold load
  split <;> rfl

theorem loadSize_readOnly (a : ℕ) : ReadOnly (loadSize a) :=
  (load_readOnly a 8).bind fun _ => ReadOnly.pure _

theorem loadByte_readOnly (a : ℕ) : ReadOnly (loadByte a) :=
  (load_readOnly a 1).bind fun _ => ReadOnly.pure _

theorem deref_readOnly (p : Ptr) : ReadOnly (deref p) := by
  cases p with
  | none => exact ReadOnly.throw _
  | some a => exact ReadOnly.pure a

theorem load_ok {img img' : Image} {a n : ℕ} {b : List UInt8} (h : load a n img = .ok b img') :
    b = slice img.bytes a n ∧ img' = img := by
  unfold load at h
  split at h
  · obtain ⟨rfl, rfl⟩ := pure_eq_ok.mp h
    exact ⟨rfl, rfl⟩
  · cases h

theorem loadSize_ok {img img' : Image} {a v : ℕ} (h : loadSize a img = .ok v img') :
    v = leNat (slice img.bytes a 8) ∧ img' = img := by
  obtain ⟨b, s, hload, hpure⟩ := bind_eq_ok.mp h
  obtain ⟨rfl, rfl⟩ := load_ok hload
  obtain ⟨rfl, rfl⟩ := pure_eq_ok.mp hpure
  exact ⟨rfl, rfl⟩

/-- `fs.superblock->block_size`, read anew at every use. -/
def blockSize : FsM ℕ := loadSize blockSizeField

/-- `fs.superblock->blocks_count`. -/
def blocksCount : FsM ℕ := loadSize blocksCountField

theorem blockSize_readOnly : ReadOnly blockSize := loadSize_readOnly _

theorem blocksCount_readOnly : ReadOnly blocksCount := loadSize_readOnly _

/-- `PortabilityControlValues`, five `unsigned int`s. -/
structure PortabilityControlValues where
  sizeTypeSize : ℕ
  superblockTypeSize : ℕ
  inodeTypeSize : ℕ
  inodemainTypeSize : ℕ
  directoryitemTypeSize : ℕ
  deriving DecidableEq, Repr

def getPlatformValues : PortabilityControlValues where
  sizeTypeSize := 8
  superblockTypeSize := sizeofSuperblock
  inodeTypeSize := sizeofINode
  inodemainTypeSize := sizeofINodeMain
  directoryitemTypeSize := sizeofDirectoryItem

def isPlatformCompatible (vals : PortabilityControlValues) : Bool :=
  getPlatformValues.sizeTypeSize == vals.sizeTypeSize &&
    getPlatformValues.superblockTypeSize == vals.superblockTypeSize &&
    getPlatformValues.inodeTypeSize == vals.inodeTypeSize &&
    getPlatformValues.inodemainTypeSize == vals.inodemainTypeSize &&
    getPlatformValues.directoryitemTypeSize == vals.directoryitemTypeSize

def PortabilityControlValues.encode (v : PortabilityControlValues) : List UInt8 :=
  leBytes 4 v.sizeTypeSize ++ leBytes 4 v.superblockTypeSize ++ leBytes 4 v.inodeTypeSize ++
    leBytes 4 v.inodemainTypeSize ++ leBytes 4 v.directoryitemTypeSize

def PortabilityControlValues.decode (b : List UInt8) : PortabilityControlValues where
  sizeTypeSize := leNat (b.take 4)
  superblockTypeSize := leNat ((b.drop 4).take 4)
  inodeTypeSize := leNat ((b.drop 8).take 4)
  inodemainTypeSize := leNat ((b.drop 12).take 4)
  directoryitemTypeSize := leNat ((b.drop 16).take 4)

theorem platformValues_compatible :
    isPlatformCompatible (.decode getPlatformValues.encode) = true := by decide

end KisLinux.Fs
