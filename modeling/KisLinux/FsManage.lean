import KisLinux.PathSplit

/-!
# The block file system

`manage.c`, function by function. Loops are recursive functions named after the
function they belong to. Loops that only stop at a zero link take the number of
rounds they may still run as `fuel` and stop with `Stop.diverged` when it is
used up; the copy and skip loops get a number of rounds that covers every run
in which they make progress.
-/
namespace KisLinux.Fs
open ByteMemory StateRun

structure FsDescriptors where
  rootInode : ℕ
  deriving DecidableEq, Repr

structure DirectoryItem where
  inode : ℕ
  name : List UInt8
  deriving DecidableEq, Repr

structure DirectoryContent where
  items : List DirectoryItem
  deriving DecidableEq, Repr

def DirectoryItem.encode (item : DirectoryItem) : List UInt8 := leBytes 8 item.inode ++ item.name

def DirectoryItem.decode (b : List UInt8) : DirectoryItem where
  inode := leNat (b.take 8)
  name := (b.drop 8).take fileNameLength

/-- A buffer read as an array of items. -/
def decodeItems : ℕ → List UInt8 → List DirectoryItem
  | 0, _ => []
  | n + 1, b => .decode (b.take sizeofDirectoryItem) :: decodeItems n (b.drop sizeofDirectoryItem)

/-- `container + block_index * block_size`. -/
def blockAddress (blockIndex : ℕ) : FsM ℕ := do
  let bs ← blockSize
  pure (wmul blockIndex bs)

/-- The byte with one bit set or cleared. -/
def setBit (cur : UInt8) (bit : ℕ) (occupied : Bool) : UInt8 :=
  if occupied then cur ||| (1 <<< UInt8.ofNat bit) else cur &&& ~~~(1 <<< UInt8.ofNat bit)

def markBlockInLookupTable (blockIndex : ℕ) (occupied : Bool) : FsM Unit := do
  let byteIndex := blockIndex / 8
  let bitIndex := blockIndex % 8
  let count ← blocksCount
  if count ≤ blockIndex then dieFatal .markBlock
  else do
    let cur ← loadByte (lookupTable + byteIndex)
    store .mark (lookupTable + byteIndex) [setBit cur bitIndex occupied]

/-- The inner loop of `get_next_free_block_index`. -/
def scanByte (curByte : UInt8) : ℕ → ℕ → Option ℕ
  | 0, _ => none
  | n + 1, k => if curByte.toNat.testBit k then scanByte curByte n (k + 1) else some k

/-- The outer loop. The test `~cur_byte == 0` of the source never holds, since
the byte is widened to `int` first; full bytes fall through the inner loop. -/
def scanTable : ℕ → ℕ → FsM ℕ
  | 0, _ => dieFatal .noSpace
  | n + 1, i => do
    let curByte ← loadByte (lookupTable + i)
    match scanByte curByte 8 0 with
    | some k => pure (i * 8 + k)
    | none => scanTable n (i + 1)

def getNextFreeBlockIndex : FsM ℕ := do
  let count ← blocksCount
  scanTable (wadd count 7 / 8) 0

def getInode (blockIndex : ℕ) : FsM Ptr := do
  if blockIndex = 0 then pure none
  else do
    let count ← blocksCount
    if count ≤ blockIndex then dieFatal .getInode
    else do
      let a ← blockAddress blockIndex
      pure (some a)

/-- `inode->field` for the `size_t` fields. -/
def getField (inode : Ptr) (field : ℕ) : FsM ℕ := do
  let a ← deref inode
  loadSize (a + field)

def setField (inode : Ptr) (field v : ℕ) : FsM Unit := do
  let a ← deref inode
  storeSize (a + field) v

def getFlags (inode : Ptr) : FsM UInt8 := do
  let a ← deref inode
  loadByte (a + flagsField)

def getNextInode (inode : Ptr) : FsM Ptr := do
  let next ← getField inode continuationInode
  getInode next

def initNewFile (flags : UInt8) : FsM ℕ := do
  let blockIndex ← getNextFreeBlockIndex
  markBlockInLookupTable blockIndex true
  let block ← blockAddress blockIndex
  storeSize (block + sizeField) 0
  storeSize (block + continuationInode) 0
  store .field (block + linksCount) (leBytes 4 0)
  storeSize (block + lastInodeField) blockIndex
  store .field (block + flagsField) [flags]
  pure blockIndex

/-- The loop of `purge_blocks`. -/
def purgeWalk : ℕ → ℕ → Ptr → FsM Unit
  | _, _, none => pure ()
  | 0, _, some _ => throw .diverged
  | fuel + 1, blockIndex, some a => do
    markBlockInLookupTable blockIndex false
    let next ← getField (some a) continuationInode
    let inode ← getNextInode (some a)
    purgeWalk fuel next inode

def purgeBlocks (fuel blockIndex : ℕ) : FsM Unit := do
  let inode ← getInode blockIndex
  purgeWalk fuel blockIndex inode

def getBlocksRequired (size : ℕ) : FsM ℕ := do
  let bs ← blockSize
  let firstBlockSize := wsub bs sizeofINodeMain
  let commonBlockSize := wsub bs sizeofINode
  if size ≤ firstBlockSize then pure 1
  else if commonBlockSize = 0 then throw .fault
  else pure (wadd (wsub (wadd (wsub size firstBlockSize) commonBlockSize) 1 / commonBlockSize) 1)

/-- The loop that extends a file; the argument counts the blocks still missing. -/
def extendLoop : ℕ → ℕ → FsM ℕ
  | 0, blockIndex => pure blockIndex
  | n + 1, blockIndex => do
    let nextBlock ← getNextFreeBlockIndex
    markBlockInLookupTable nextBlock true
    let currentInode ← getInode blockIndex
    setField currentInode continuationInode nextBlock
    extendLoop n nextBlock

/-- The loop that walks to the last block a shrunk file keeps. -/
def shrinkLoop : ℕ → ℕ → Ptr → FsM (ℕ × Ptr)
  | 0, blockIndex, currentInode => pure (blockIndex, currentInode)
  | n + 1, _, currentInode => do
    let next ← getField currentInode continuationInode
    let inode ← getNextInode currentInode
    shrinkLoop n next inode

def truncateFile (fuel blockIndex newSize : ℕ) : FsM Unit := do
  let inode ← getInode blockIndex
  let oldSize ← getField inode sizeField
  let oldBlocksRequired ← getBlocksRequired oldSize
  let newBlocksRequired ← getBlocksRequired newSize
  setField inode sizeField newSize
  if oldBlocksRequired < newBlocksRequired then do
    let last ← getField inode lastInodeField
    let last ← extendLoop (newBlocksRequired - oldBlocksRequired) last
    setField inode lastInodeField last
  else if newBlocksRequired < oldBlocksRequired then do
    let (last, currentInode) ← shrinkLoop (newBlocksRequired - 1) blockIndex inode
    let next ← getField currentInode continuationInode
    purgeBlocks fuel next
    setField inode lastInodeField last
  else pure ()

/-- Where a copy loop stands: the block, its inode pointer, the size of the
header it skips and the offset behind it. -/
structure Cursor where
  blockIndex : ℕ
  currentInode : Ptr
  blockInodeOffset : ℕ
  offset : ℕ
  deriving DecidableEq, Repr

/-- `while (offset > common_block_size)`. A round takes `common_block_size` off
the offset, so `offset` rounds are enough unless that size is zero. -/
def skipLoop (commonBlockSize : ℕ) : ℕ → Cursor → FsM Cursor
  | fuel, c =>
    if commonBlockSize < c.offset then
      match fuel with
      | 0 => throw .diverged
      | fuel + 1 => do
        let next ← getField c.currentInode continuationInode
        let inode ← getNextInode c.currentInode
        skipLoop commonBlockSize fuel
          { c with
            offset := c.offset - commonBlockSize, blockIndex := next, currentInode := inode }
    else pure c

/-- The block marked "TODO rewrite this block" in the read and write functions. -/
def skipBlocks (blockIndex : ℕ) (inode : Ptr) (offset : ℕ) : FsM Cursor := do
  let bs ← blockSize
  let firstBlockSize := wsub bs sizeofINodeMain
  let commonBlockSize := wsub bs sizeofINode
  let start : Cursor := ⟨blockIndex, inode, sizeofINodeMain, offset⟩
  if firstBlockSize < offset then do
    let next ← getField inode continuationInode
    let nextInode ← getNextInode inode
    skipLoop commonBlockSize offset ⟨next, nextInode, sizeofINode, offset - firstBlockSize⟩
  else skipLoop commonBlockSize offset start

/-- The copy loop of `read_file`: the bytes put into the buffer. -/
def readLoop : ℕ → Cursor → ℕ → FsM (List UInt8)
  | fuel, c, len =>
    if len = 0 then pure []
    else
      match fuel with
      | 0 => throw .diverged
      | fuel + 1 => do
        let bs ← blockSize
        let availableLen := wsub (wsub bs c.blockInodeOffset) c.offset
        let copyLen := min availableLen len
        let block ← blockAddress c.blockIndex
        let chunk ← load (block + c.offset + c.blockInodeOffset) copyLen
        if len - copyLen = 0 then pure chunk
        else do
          let next ← getField c.currentInode continuationInode
          let inode ← getNextInode c.currentInode
          let rest ← readLoop fuel ⟨next, inode, sizeofINode, 0⟩ (len - copyLen)
          pure (chunk ++ rest)

/-- The result is the filled part of the buffer; its length is the value that
`read_file` returns. -/
def readFile (blockIndex offset length : ℕ) : FsM (List UInt8) :=
  if length = 0 then pure []
  else do
    let inode ← getInode blockIndex
    let size ← getField inode sizeField
    if offset = size then pure []
    else if size < offset then dieFatal .invalidPosition
    else do
      let length := if size < wadd offset length then size - offset else length
      let c ← skipBlocks blockIndex inode offset
      readLoop (length + 1) c length

/-- The copy loop of `write_file_unchecked`. -/
def writeLoop : ℕ → Cursor → List UInt8 → FsM Unit
  | fuel, c, buffer =>
    if buffer = [] then pure ()
    else
      match fuel with
      | 0 => throw .diverged
      | fuel + 1 => do
        let bs ← blockSize
        let availableLen := wsub (wsub bs c.blockInodeOffset) c.offset
        let copyLen := min availableLen buffer.length
        let block ← blockAddress c.blockIndex
        store .memcpy (block + c.offset + c.blockInodeOffset) (buffer.take copyLen)
        if buffer.drop copyLen = [] then pure ()
        else do
          let next ← getField c.currentInode continuationInode
          let inode ← getNextInode c.currentInode
          writeLoop fuel ⟨next, inode, sizeofINode, 0⟩ (buffer.drop copyLen)

def writeFileUnchecked (fuel blockIndex offset : ℕ) (buffer : List UInt8) : FsM Unit :=
  if buffer = [] then pure ()
  else do
    let inode ← getInode blockIndex
    let size ← getField inode sizeField
    if size < offset then dieFatal .invalidPosition
    else do
      if size < wadd buffer.length offset then
        truncateFile fuel blockIndex (wadd buffer.length offset)
      let c ← skipBlocks blockIndex inode offset
      writeLoop (buffer.length + 1) c buffer

def writeFile (fuel blockIndex offset : ℕ) (buffer : List UInt8) : FsM Unit := do
  let inode ← getInode blockIndex
  let flags ← getFlags inode
  if flags &&& flgFile = 0 then dieFatal .notFile
  else writeFileUnchecked fuel blockIndex offset buffer

def appendFileUnchecked (fuel blockIndex : ℕ) (buffer : List UInt8) : FsM Unit := do
  let inode ← getInode blockIndex
  let size ← getField inode sizeField
  writeFileUnchecked fuel blockIndex size buffer

def readDirectory (dirBlockIndex : ℕ) : FsM DirectoryContent := do
  let inode ← getInode dirBlockIndex
  let flags ← getFlags inode
  if flags &&& flgDirectory = 0 then dieFatal .notDirectory
  else do
    let curDirSize ← getField inode sizeField
    if curDirSize % sizeofDirectoryItem ≠ 0 then dieFatal .readDirectory
    else do
      let buffer ← readFile dirBlockIndex 0 curDirSize
      pure ⟨decodeItems (curDirSize / sizeofDirectoryItem) buffer⟩

def appendDirectory (fuel dirBlockIndex : ℕ) (item : DirectoryItem) : FsM Unit := do
  let inode ← getInode dirBlockIndex
  let flags ← getFlags inode
  if flags &&& flgDirectory = 0 then dieFatal .notDirectory
  else appendFileUnchecked fuel dirBlockIndex item.encode

/-- `strcmp` of a NUL-free name with the string in a buffer, up to the end of the
buffer: `none` when the comparison runs off its end. -/
def strcmpEq : List UInt8 → List UInt8 → Option Bool
  | _, [] => none
  | [], b :: _ => some (b == 0)
  | c :: name, b :: rest => if c = b then strcmpEq name rest else some false

/-- The bytes from `items[i].name` to the end of the array, for the list from `i` on. -/
def nameBytes (items : List DirectoryItem) : List UInt8 :=
  (items.flatMap DirectoryItem.encode).drop 8

/-- The loop of `find_directory_item` from index `i` on. -/
def findItem (name : List UInt8) : List DirectoryItem → ℕ → FsM ℕ
  | [], _ => dieFatal .noSuchFile
  | item :: items, i =>
    match strcmpEq name (nameBytes (item :: items)) with
    | none => throw .fault
    | some true => pure i
    | some false => findItem name items (i + 1)

def findDirectoryItem (content : DirectoryContent) (name : List UInt8) : FsM ℕ :=
  findItem name content.items 0

def liftExcept {α : Type} : Except Stop α → FsM α
  | .ok a => pure a
  | .error e => throw e

/-- `find_directory_item(root, path.parts[i])`. The component is only read when
there is an item to compare it with. -/
def findComponent (root : DirectoryContent) (path : Path) (i : ℕ) : FsM ℕ :=
  if root.items = [] then dieFatal .noSuchFile
  else liftExcept (path.part i) >>= findDirectoryItem root

/-- The loop of `locate_path`: `n` rounds are left and `i` is the next component. -/
def locateLoop (path : Path) : ℕ → ℕ → ℕ → FsM ℕ
  | 0, _, nextInode => pure nextInode
  | n + 1, i, nextInode => do
    let root ← readDirectory nextInode
    let itemIndex ← findComponent root path i
    let item ← liftExcept (root.items[itemIndex]?.elim (.error .fault) .ok)
    locateLoop path n (i + 1) item.inode

def locatePath (fs : FsDescriptors) (path : Path) : FsM ℕ :=
  locateLoop path path.count 0 fs.rootInode

/-- The loop of `remove_from_directory`. -/
def rebuildLoop (fuel dirBlockIndex itemIndex : ℕ) : List DirectoryItem → ℕ → FsM Unit
  | [], _ => pure ()
  | item :: items, i => do
    if i ≠ itemIndex then appendDirectory fuel dirBlockIndex item
    rebuildLoop fuel dirBlockIndex itemIndex items (i + 1)

def removeFromDirectory (fuel dirBlockIndex : ℕ) (name : List UInt8) : FsM ℕ := do
  let root ← readDirectory dirBlockIndex
  let itemIndex ← findDirectoryItem root name
  truncateFile fuel dirBlockIndex 0
  rebuildLoop fuel dirBlockIndex itemIndex root.items 0
  pure itemIndex

/-- `purge_file`; the loop over the entries is a `forM` over the items read
before anything is freed. -/
def purgeFile : ℕ → ℕ → FsM Unit
  | 0, _ => throw .diverged
  | fuel + 1, blockIndex => do
    let inode ← getInode blockIndex
    let flags ← getFlags inode
    if flags &&& flgDirectory ≠ 0 then do
      let content ← readDirectory blockIndex
      content.items.forM fun item => purgeFile fuel item.inode
    purgeBlocks fuel blockIndex

def getFileSize (blockIndex : ℕ) : FsM ℕ := do
  let inode ← getInode blockIndex
  getField inode sizeField

/-- The do-while loop of `trace_file_blocks`: the values it stores. -/
def traceLoop : ℕ → Ptr → FsM (List ℕ)
  | 0, _ => pure []
  | n + 1, inode => do
    let next ← getField inode continuationInode
    let nextInode ← getNextInode inode
    let rest ← traceLoop n nextInode
    pure (next :: rest)

/-- The array of `trace_file_blocks`: how many entries were allocated and the
values stored from its start on. The array is on the heap, outside the mapping;
its first `capacity` entries are what callers read. -/
structure BlockTrace where
  capacity : ℕ
  stores : List ℕ
  deriving DecidableEq, Repr

def traceFileBlocks (blockIndex : ℕ) : FsM BlockTrace := do
  let inode ← getInode blockIndex
  let size ← getField inode sizeField
  let count ← getBlocksRequired size
  let rest ← traceLoop count inode
  pure ⟨count, blockIndex :: rest⟩

/-- The system the daemon runs on: the page size, whether `ftruncate` grants a
length, and whether a mapping of that length can be made. A page is larger than
a file header, and `ftruncate` takes a signed length. -/
structure Platform where
  pageSize : ℕ
  canResize : ℕ → Bool
  canMap : ℕ → Bool
  header_lt : sizeofINodeMain < pageSize
  canResize_lt : ∀ size, canResize size = true → size < 2 ^ 63

/-- A fresh mapping of a file. A file that is too short is extended with zeros,
and length 0 asks for the file as it is. Behind its end the mapping goes on with zeros to
the end of the page, of which the superblock is read; an empty mapping is refused. -/
def openAndMap (os : Platform) (file : List UInt8) (size : ℕ) : Except Stop Image :=
  if size ≠ 0 ∧ os.canResize size = false then .error (.die .prepareFile)
  else
    let length := if size = 0 then file.length else size
    if length ≠ 0 ∧ os.canMap length = true then
      .ok ⟨fun a => file.getD a 0, if size = 0 then max length sizeofSuperblock else length, []⟩
    else .error (.die .openFile)

/-- The marking loop of `prepare_descriptors`. -/
def markMetadata : ℕ → ℕ → FsM Unit
  | 0, _ => pure ()
  | n + 1, i => do
    markBlockInLookupTable i true
    markMetadata n (i + 1)

def prepareDescriptors (cleanLookupTable : Bool) : FsM FsDescriptors := do
  let vals ← load portabilityField 20
  if isPlatformCompatible (.decode vals) = false then dieFatal .incompatible
  else do
    let count ← blocksCount
    let bs ← blockSize
    let lookupTableSize := wadd count 7 / 8
    let metadataSize := wadd sizeofSuperblock lookupTableSize
    if bs = 0 then throw .fault
    else do
      let metadataPagesCount := wsub (wadd metadataSize bs) 1 / bs
      if cleanLookupTable then do
        formatStore lookupTable (List.replicate lookupTableSize 0)
        markMetadata metadataPagesCount 0
      pure ⟨metadataPagesCount⟩

/-- `init_fs` behind the mapping call. -/
def formatVolume (pageSize pagesCount : ℕ) : FsM FsDescriptors := do
  formatStore blockSizeField (leBytes 8 pageSize)
  formatStore blocksCountField (leBytes 8 pagesCount)
  formatStore portabilityField getPlatformValues.encode
  let fs ← prepareDescriptors true
  let rootInode ← initNewFile flgDirectory
  if rootInode ≠ fs.rootInode then dieFatal .initFs
  else pure fs

/-- `pages_count` of `init_fs`. -/
def pagesCount (os : Platform) (size : ℕ) : ℕ :=
  let size := if size < sizeofSuperblock then sizeofSuperblock else size
  wsub (wadd size os.pageSize) 1 / os.pageSize

/-- Running on a fresh mapping, when it could be made. -/
def onMapping (x : FsM FsDescriptors) : Except Stop Image → Except Stop (FsDescriptors × Image)
  | .error e => .error e
  | .ok img =>
    match x img with
    | .ok fs img => .ok (fs, img)
    | .error e _ => .error e

def initFs (os : Platform) (file : List UInt8) (size : ℕ) : Except Stop (FsDescriptors × Image) :=
  onMapping (formatVolume os.pageSize (pagesCount os size))
    (openAndMap os file (wmul (pagesCount os size) os.pageSize))

def openFs (os : Platform) (file : List UInt8) : Except Stop (FsDescriptors × Image) :=
  onMapping (prepareDescriptors false) (openAndMap os file 0)

end KisLinux.Fs
