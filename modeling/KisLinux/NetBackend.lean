import KisLinux.FsManage
import KisLinux.NetOperation

/-!
# The server

The handlers of the six operations and the loop body around them. A handler
works on the image, reads nothing more from the connection, and answers on it.
`die` and `die_fatal` end the thread through `fsop_error`; the image stays as it
is at that moment. When the process leaves its memory or writes to a connection
that is closed, a signal ends it, and the image stays as it is as well: no handler
is installed, since `sigaction(SIGSEGV, NULL, &act)` only asks for the old one.
-/
namespace KisLinux.Net
open ByteMemory StateRun ShortTransfer Fs

/-- The state of a server thread, with the image that all threads share. -/
structure Server where
  image : Image
  input : Input
  output : Sink UInt8
  errorIntercepted : Bool

abbrev SrvM := EStateM Stop Server

def onImage {α : Type} (x : FsM α) : SrvM α :=
  onPart Server.image (fun s image => { s with image := image }) x

def onInput {α : Type} (x : InM α) : SrvM α :=
  onPart Server.input (fun s input => { s with input := input }) x

def onOutput {α : Type} (x : OutM α) : SrvM α :=
  onPart Server.output (fun s output => { s with output := output }) x

section Parts

variable {α : Type} {s s' : Server} {a : α}

theorem onImage_of_ok {x : FsM α} {image : Image} (h : x s.image = .ok a image) :
    onImage x s = .ok a { s with image := image } :=
  onPart_of_ok h

theorem onImage_of_error {x : FsM α} {e : Stop} {image : Image} (h : x s.image = .error e image) :
    onImage x s = .error e { s with image := image } :=
  onPart_of_error h

theorem onImage_eq_error {x : FsM α} {e : Stop} (h : onImage x s = .error e s') :
    ∃ image, x s.image = .error e image ∧ s' = { s with image := image } :=
  onPart_eq_error h

theorem onInput_of_ok {x : InM α} {input : Input} (h : x s.input = .ok a input) :
    onInput x s = .ok a { s with input := input } :=
  onPart_of_ok h

theorem onOutput_of_ok {x : OutM α} {output : Sink UInt8} (h : x s.output = .ok a output) :
    onOutput x s = .ok a { s with output := output } :=
  onPart_of_ok h

end Parts

/-- `FsOpStat_response`. -/
structure FsOpStatResponse where
  size : ℕ
  blocksCount : ℕ
  blocks : Buffer
  deriving DecidableEq, Repr

/-- `DirectoryContent` as it travels. -/
structure DirectoryContent where
  itemsCount : ℕ
  items : Buffer
  deriving DecidableEq, Repr

def slzString : Serializer NetString where
  size := 16
  image v := v.image
  ofImage b := .ofImage b
  arrays := [⟨fun v => v.length, fun v => v.string, fun n b _ => ⟨n, b⟩, 1, Nat.one_pos⟩]
  image_length := fun v => v.image_length

def slzFsOpStatResponse : Serializer FsOpStatResponse where
  size := 24
  image v := leBytes 8 v.size ++ leBytes 8 v.blocksCount ++ leBytes 8 v.blocks.address
  ofImage b := ⟨leNat (b.take 8), leNat ((b.drop 8).take 8), .dangling (leNat ((b.drop 16).take 8))⟩
  arrays := [⟨fun v => v.blocksCount, fun v => v.blocks,
    fun n b v => { v with blocksCount := n, blocks := b }, 8, by omega⟩]
  image_length := fun v => by simp

def slzDirectoryContent : Serializer DirectoryContent where
  size := 16
  image v := leBytes 8 v.itemsCount ++ leBytes 8 v.items.address
  ofImage b := ⟨leNat (b.take 8), .dangling (leNat ((b.drop 8).take 8))⟩
  arrays := [⟨fun v => v.itemsCount, fun v => v.items, fun n b _ => ⟨n, b⟩, sizeofDirectoryItem,
    sizeofDirectoryItem_pos⟩]
  image_length := fun v => by rw [List.length_append, leBytes_length, leBytes_length]

/-- A message as the bytes of a C string, without the NUL. -/
def messageBytes (text : String) : List UInt8 := text.toList.map fun c => UInt8.ofNat c.toNat

/-- `strerror(ENOMEM)`. -/
def outOfMemory : String := "Cannot allocate memory"

/-- What `die_fatal` gives to the interceptor, and `die` for a failed allocation. -/
def reported (e : FsError) : List UInt8 :=
  messageBytes (if e = .memory then e.text ++ ": " ++ outOfMemory else e.text)

/-- `to_string`. -/
def toNetString (s : List UInt8) : SrvM NetString := do
  let address ← onInput (malloc (s.length + 1))
  match address with
  | none => throw (.die .memory)
  | some a => pure ⟨s.length + 1, .block a (s ++ [0])⟩

/-- An answer. Writing to a closed connection raises SIGPIPE, which nothing ignores:
the process ends there, and the `shutdown` behind a failed write is not reached. -/
def answer (x : OutM Bool) : SrvM Unit := do
  let ok ← onOutput x
  if ok then pure () else throw .fault

def writeEmptyError : SrvM Unit := do
  let s ← get
  if s.errorIntercepted then pure ()
  else do
    let empty ← toNetString []
    answer (slzString.write empty)

/-- `fsop_error` with the text of an error, up to the end of the thread. -/
def fsopError (e : FsError) : SrvM Unit := do
  let s ← get
  if s.errorIntercepted then pure ()
  else do
    set { s with errorIntercepted := true }
    let str ← toNetString (reported e)
    -- `errno` still tells of the allocation that failed, so `to_string` dies a second
    -- time, and the second call of `fsop_error` ends the thread without a word.
    if e = .memory then throw (.die .memory) else answer (slzString.write str)

/-- The thread is at its end however far `fsop_error` got, unless a signal ended the process. -/
def exited {α : Type} (e : FsError) : EStateM.Result Stop Server Unit → EStateM.Result Stop Server α
  | .ok _ t => .error (.die e) t
  | .error (.die _) t => .error (.die e) t
  | .error stop t => .error stop t

/-- `die` and `die_fatal` inside of `x` go to `fsop_error` and end the thread. -/
def intercepted {α : Type} (x : SrvM α) : SrvM α := fun s =>
  match x s with
  | .ok a t => .ok a t
  | .error (.die e) t => exited e (fsopError e t)
  | .error e t => .error e t

section Intercepted

variable {α : Type} {x : SrvM α} {s s' t : Server} {e : FsError}

theorem finalState_exited (e : FsError) (r : EStateM.Result Stop Server Unit) :
    finalState (exited e r : EStateM.Result Stop Server α) = finalState r := by
  cases r with
  | ok u t => rfl
  | error stop t => cases stop <;> rfl

/-- How `fsop_error` got to the end of the thread. -/
theorem exited_eq_die {r : EStateM.Result Stop Server Unit} {e' : FsError}
    (h : (exited e r : EStateM.Result Stop Server α) = .error (.die e') s') :
    e' = e ∧ s' = finalState r := by
  cases r with
  | ok u t =>
    obtain ⟨he, rfl⟩ := EStateM.Result.error.inj h
    exact ⟨(Stop.die.inj he).symm, rfl⟩
  | error stop t =>
    cases stop with
    | die e₁ =>
      obtain ⟨he, rfl⟩ := EStateM.Result.error.inj h
      exact ⟨(Stop.die.inj he).symm, rfl⟩
    | fault => cases h
    | diverged => cases h

theorem intercepted_of_ok {a : α} (h : x s = .ok a t) : intercepted x s = .ok a t := by
  rw [intercepted, h]

theorem intercepted_of_die (h : x s = .error (.die e) t) :
    intercepted x s = exited e (fsopError e t) := by
  rw [intercepted, h]

theorem exited_ne_ok {r : EStateM.Result Stop Server Unit} {a : α} :
    (exited e r : EStateM.Result Stop Server α) ≠ .ok a s' := by
  cases r with
  | ok u t => exact fun h => by cases h
  | error stop t => cases stop <;> exact fun h => by cases h

end Intercepted

/-- `split_path(args->path.string)`. -/
def splitArg (path : NetString) : SrvM Path :=
  match cString path.string.bytes with
  | none => throw .fault
  | some s => onImage (Fs.liftExcept (splitPath s))

/-- A buffer of the heap that holds `bytes`; its address is not looked at. -/
def heapBlock (bytes : List UInt8) : SrvM Buffer := do
  let address ← onInput (malloc bytes.length)
  match address with
  | some a => pure (.block a bytes)
  | none => if bytes = [] then pure .null else throw .fault

/-- The path without its last component: `--path.count`. -/
def parentPath (path : Path) : Path := { path with count := wsub path.count 1 }

/-- The name field of a new item: zeros behind the characters. -/
def itemName (name : List UInt8) : List UInt8 :=
  name ++ List.replicate (fileNameLength - name.length) 0

def fsopRead (fds : FsDescriptors) (args : FsOpReadArgs) : SrvM Unit := do
  let path ← splitArg args.path
  let inode ← onImage (locatePath fds path)
  let data ← onInput (malloc args.length)
  match data with
  | none => throw (.die .memory)
  | some data => do
    let read ← onImage (readFile inode args.offset args.length)
    writeEmptyError
    answer (slzString.write ⟨read.length, .block data read⟩)

/-- `write_file` with the buffer of the request. When the stream ended in the data, the
buffer is only filled in part; what the rest of it holds is not defined, and the model
stops there. -/
def fsopWrite (fuel : ℕ) (fds : FsDescriptors) (args : FsOpWriteArgs) : SrvM Unit := do
  let path ← splitArg args.path
  let inode ← onImage (locatePath fds path)
  if args.data.bytes.length < args.length then throw .fault
  else do
    onImage (writeFile fuel inode args.offset (args.data.bytes.take args.length))
    writeEmptyError

def fsopCreate (fuel : ℕ) (fds : FsDescriptors) (args : FsOpCreateArgs) : SrvM Unit := do
  let path ← splitArg args.path
  let dirInode ← onImage (locatePath fds (parentPath path))
  let name ← onImage (Fs.liftExcept (path.part (parentPath path).count))
  if fileNameLength ≤ name.length then throw (.die .tooLongName)
  else do
    let fileInode ← onImage (initNewFile args.flags)
    onImage (appendDirectory fuel dirInode ⟨fileInode, itemName name⟩)
    writeEmptyError

/-- The index that `remove_from_directory` returns is what `purge_file` is called with. -/
def fsopRemove (fuel : ℕ) (fds : FsDescriptors) (args : FsOpRemoveArgs) : SrvM Unit := do
  let path ← splitArg args.path
  let dirInode ← onImage (locatePath fds (parentPath path))
  let name ← onImage (Fs.liftExcept (path.part (parentPath path).count))
  let fileInode ← onImage (removeFromDirectory fuel dirInode name)
  onImage (purgeFile fuel fileInode)
  writeEmptyError

/-- `trace_file_blocks` stores one index more than its array holds. The store behind the
array is taken to hit nothing that matters, and only what the array holds is sent. -/
def fsopStat (fds : FsDescriptors) (args : FsOpStatArgs) : SrvM Unit := do
  let path ← splitArg args.path
  let inode ← onImage (locatePath fds path)
  let size ← onImage (getFileSize inode)
  let blocksCount ← onImage (getBlocksRequired size)
  let trace ← onImage (traceFileBlocks inode)
  let blocks ← heapBlock ((trace.stores.take trace.capacity).flatMap (leBytes 8))
  writeEmptyError
  answer (slzFsOpStatResponse.write ⟨size, blocksCount, blocks⟩)

def fsopReadDir (fds : FsDescriptors) (args : FsOpReadDirArgs) : SrvM Unit := do
  let path ← splitArg args.path
  let dirInode ← onImage (locatePath fds path)
  let content ← onImage (readDirectory dirInode)
  let items ← heapBlock (content.items.flatMap DirectoryItem.encode)
  writeEmptyError
  answer (slzDirectoryContent.write ⟨content.items.length, items⟩)

/-- `_FSOP_calls`; a type that is no operation matches none of the tests. -/
def processOperation (fuel : ℕ) (fds : FsDescriptors) : NetFsOperation → SrvM Unit
  | .op .read args => fsopRead fds args
  | .op .write args => fsopWrite fuel fds args
  | .op .create args => fsopCreate fuel fds args
  | .op .remove args => fsopRemove fuel fds args
  | .op .stat args => fsopStat fds args
  | .op .readDir args => fsopReadDir fds args
  | .other _ => pure ()

/-- `process_operation` with the interceptor in place. -/
def dispatch (fuel : ℕ) (fds : FsDescriptors) (op : NetFsOperation) : SrvM Unit := do
  modify fun s => { s with errorIntercepted := false }
  intercepted (processOperation fuel fds op)

/-- `serve_next_operation`; `old` is what the stack holds where the operation is read to. -/
def serveNextOperation (fuel : ℕ) (fds : FsDescriptors) (old : List UInt8) : SrvM Bool := do
  let r ← onInput (slzNetFsOperationRead old)
  if r.1 then do
    dispatch fuel fds r.2
    pure true
  else pure false

/-- The loop of `serve_client`, for so many rounds. -/
def serveClient (fuel : ℕ) (fds : FsDescriptors) (old : ℕ → List UInt8) : ℕ → SrvM Unit
  | 0 => pure ()
  | rounds + 1 => do
    let more ← serveNextOperation fuel fds (old 0)
    if more then serveClient fuel fds (fun i => old (i + 1)) rounds else pure ()

end KisLinux.Net
