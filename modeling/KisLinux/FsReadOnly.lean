import KisLinux.FsManage

/-!
# Functions that only read

Lookups, reads and the search for a free block leave the image as it is, whether
they return or stop.
-/
namespace KisLinux.Fs
open StateRun

theorem scanTable_readOnly (n i : ℕ) : ReadOnly (scanTable n i) := by
  induction n generalizing i with
  | zero => exact ReadOnly.throw _
  | succ n ih =>
    refine (loadByte_readOnly _).bind fun cur => ?_
    cases scanByte cur 8 0 with
    | none => exact ih (i + 1)
    | some k => exact ReadOnly.pure _

theorem getNextFreeBlockIndex_readOnly : ReadOnly getNextFreeBlockIndex :=
  blocksCount_readOnly.bind fun _ => scanTable_readOnly _ _

theorem dieFatal_readOnly {α : Type} (e : FsError) : ReadOnly (dieFatal e : FsM α) :=
  ReadOnly.throw _

theorem blockAddress_readOnly (b : ℕ) : ReadOnly (blockAddress b) :=
  blockSize_readOnly.bind fun _ => ReadOnly.pure _

theorem getInode_readOnly (b : ℕ) : ReadOnly (getInode b) :=
  (ReadOnly.pure _).ite (blocksCount_readOnly.bind fun _ => (dieFatal_readOnly _).ite
    ((blockAddress_readOnly b).bind fun _ => ReadOnly.pure _))

theorem getField_readOnly (inode : Ptr) (field : ℕ) : ReadOnly (getField inode field) :=
  (deref_readOnly inode).bind fun _ => loadSize_readOnly _

theorem getFlags_readOnly (inode : Ptr) : ReadOnly (getFlags inode) :=
  (deref_readOnly inode).bind fun _ => loadByte_readOnly _

theorem getNextInode_readOnly (inode : Ptr) : ReadOnly (getNextInode inode) :=
  (getField_readOnly inode _).bind fun next => getInode_readOnly next

theorem getBlocksRequired_readOnly (size : ℕ) : ReadOnly (getBlocksRequired size) :=
  blockSize_readOnly.bind fun _ => (ReadOnly.pure _).ite ((ReadOnly.throw _).ite (ReadOnly.pure _))

theorem skipLoop_readOnly (common fuel : ℕ) (c : Cursor) : ReadOnly (skipLoop common fuel c) := by
  induction fuel generalizing c with
  | zero => exact (ReadOnly.throw _).ite (ReadOnly.pure _)
  | succ fuel ih =>
    exact ((getField_readOnly _ _).bind fun _ => (getNextInode_readOnly _).bind fun _ => ih _).ite
      (ReadOnly.pure _)

theorem skipBlocks_readOnly (b : ℕ) (inode : Ptr) (offset : ℕ) :
    ReadOnly (skipBlocks b inode offset) :=
  blockSize_readOnly.bind fun _ => ((getField_readOnly _ _).bind fun _ =>
    (getNextInode_readOnly _).bind fun _ => skipLoop_readOnly _ _ _).ite (skipLoop_readOnly _ _ _)

theorem readLoop_readOnly (fuel : ℕ) (c : Cursor) (len : ℕ) : ReadOnly (readLoop fuel c len) := by
  induction fuel generalizing c len with
  | zero => exact (ReadOnly.pure _).ite (ReadOnly.throw _)
  | succ fuel ih =>
    exact (ReadOnly.pure _).ite (blockSize_readOnly.bind fun _ => (blockAddress_readOnly _).bind
      fun _ => (load_readOnly _ _).bind fun _ => (ReadOnly.pure _).ite ((getField_readOnly _ _).bind
        fun _ => (getNextInode_readOnly _).bind fun _ => (ih _ _).bind fun _ => ReadOnly.pure _))

theorem readFile_readOnly (b offset length : ℕ) : ReadOnly (readFile b offset length) :=
  (ReadOnly.pure _).ite ((getInode_readOnly b).bind fun _ => (getField_readOnly _ _).bind fun _ =>
    (ReadOnly.pure _).ite ((dieFatal_readOnly _).ite ((skipBlocks_readOnly _ _ _).bind fun _ =>
      readLoop_readOnly _ _ _)))

theorem readDirectory_readOnly (b : ℕ) : ReadOnly (readDirectory b) :=
  (getInode_readOnly b).bind fun _ => (getFlags_readOnly _).bind fun _ => (dieFatal_readOnly _).ite
    ((getField_readOnly _ _).bind fun _ => (dieFatal_readOnly _).ite
      ((readFile_readOnly _ _ _).bind fun _ => ReadOnly.pure _))

theorem liftExcept_readOnly {α : Type} (x : Except Stop α) : ReadOnly (liftExcept x) := by
  cases x with
  | ok a => exact ReadOnly.pure a
  | error e => exact ReadOnly.throw e

theorem findItem_readOnly (name : List UInt8) (items : List DirectoryItem) (i : ℕ) :
    ReadOnly (findItem name items i) := by
  induction items generalizing i with
  | nil => exact ReadOnly.throw _
  | cons item items ih =>
    rw [findItem]
    split
    · exact ReadOnly.throw _
    · exact ReadOnly.pure _
    · exact ih _

theorem findComponent_readOnly (root : DirectoryContent) (path : Path) (i : ℕ) :
    ReadOnly (findComponent root path i) :=
  (dieFatal_readOnly _).ite ((liftExcept_readOnly _).bind fun _ => findItem_readOnly _ _ _)

theorem locateLoop_readOnly (path : Path) (n i inode : ℕ) : ReadOnly (locateLoop path n i inode) := by
  induction n generalizing i inode with
  | zero => exact ReadOnly.pure _
  | succ n ih =>
    exact (readDirectory_readOnly _).bind fun _ => (findComponent_readOnly _ _ _).bind fun _ =>
      (liftExcept_readOnly _).bind fun _ => ih _ _

theorem locatePath_readOnly (fs : FsDescriptors) (path : Path) : ReadOnly (locatePath fs path) :=
  locateLoop_readOnly _ _ _ _

theorem getFileSize_readOnly (b : ℕ) : ReadOnly (getFileSize b) :=
  (getInode_readOnly b).bind fun _ => getField_readOnly _ _

theorem traceLoop_readOnly (n : ℕ) (inode : Ptr) : ReadOnly (traceLoop n inode) := by
  induction n generalizing inode with
  | zero => exact ReadOnly.pure _
  | succ n ih =>
    exact (getField_readOnly _ _).bind fun _ => (getNextInode_readOnly _).bind fun _ =>
      (ih _).bind fun _ => ReadOnly.pure _

theorem traceFileBlocks_readOnly (b : ℕ) : ReadOnly (traceFileBlocks b) :=
  (getInode_readOnly b).bind fun _ => (getField_readOnly _ _).bind fun _ =>
    (getBlocksRequired_readOnly _).bind fun _ => (traceLoop_readOnly _ _).bind fun _ =>
      ReadOnly.pure _

end KisLinux.Fs
