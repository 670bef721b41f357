import KisLinux.Phonedir

/-!
# The directory device

The calls of `dev_ops` in `kmodule.c`, each run to its end. `input_offset` and
`output_offset` are machine words, and a store or a copy outside the two buffers
stops with `Stop.fault`. `Trace` is a ghost record of what `process_operation`
does: the code never reads it, it only lets statements speak about the bytes of
`input_buf` that were touched and about the commands that were carried out.
-/
namespace KisLinux.Phonedir
open Fs ByteMemory StateRun

def userBufCap : ℕ := 1024

/-- `enum phonedir_op_type`. -/
def opAdd : UInt8 := 1
def opDelete : UInt8 := 2
def opFind : UInt8 := 3

/-- `struct user_handle`; only `pendingOutput` lives outside of the object. -/
structure Handle where
  pendingOutput : List Record
  inputBuf : Memory
  inputOffset : ℕ
  outputBuf : Memory
  outputOffset : ℕ

def Handle.zeroed : Handle := ⟨[], fun _ => 0, 0, fun _ => 0, 0⟩

/-- `count` bytes of `input_buf` from `first` on were read or written while the
bytes below `bound` were filled. -/
structure Access where
  first : ℕ
  count : ℕ
  bound : ℕ
  deriving DecidableEq, Repr

def Access.Within (a : Access) : Prop := a.first + a.count ≤ a.bound

/-- `indices` are the values of `l_index` and `r_index` behind each operation,
`executed` are the bytes of the commands carried out, as they stood in `input_buf`,
and `spliced` the records put on the pending list. -/
structure Trace where
  accesses : List Access
  indices : List (ℕ × ℕ)
  executed : List (List UInt8)
  spliced : List Record

def Trace.empty : Trace := ⟨[], [], [], []⟩

/-- One open file of the device, and the kernel around it. -/
structure Device where
  kernel : Kernel
  handle : Handle
  trace : Trace

abbrev DeviceM := EStateM Stop Device

def onKernel {α : Type} (x : KernelM α) : DeviceM α :=
  onPart (·.kernel) (fun d k => { d with kernel := k }) x

def modifyHandle (f : Handle → Handle) : DeviceM Unit :=
  modify fun d => { d with handle := f d.handle }

def Device.accessed (d : Device) (a : Access) : Device :=
  { d with trace := { d.trace with accesses := d.trace.accesses ++ [a] } }

/-- The code is about to touch these bytes of `input_buf`. -/
def access (a : Access) : DeviceM Unit := fun d =>
  if a.first + a.count ≤ userBufCap then .ok ⟨⟩ (d.accessed a) else .error .fault (d.accessed a)

/-- `list_splice_tail`. -/
def listSpliceTail (found : List Record) : DeviceM Unit :=
  modify fun d =>
    { d with
      handle := { d.handle with pendingOutput := d.handle.pendingOutput ++ found }
      trace := { d.trace with spliced := d.trace.spliced ++ found } }

def Device.carriedOut (d : Device) (command : List UInt8) : Device :=
  { d with trace := { d.trace with executed := d.trace.executed ++ [command] } }

def carryOut (command : List UInt8) : DeviceM Unit := modify (·.carriedOut command)

def needBytes (op : UInt8) : ℕ := if op = opAdd then recSize else phonedirNameLen

/-- The branch `op == PHONEDIR_ADD` for the command at `buf`. The record is read
behind the allocation. -/
def processAdd (buf len : ℕ) : DeviceM (Except Errno Unit) := do
  let d ← get
  match ← onKernel (phonedirAddRecord (Record.load d.handle.inputBuf (buf + 1))) with
  | .error e => return .error e
  | .ok () =>
    access ⟨buf + 1, recSize, buf + len⟩
    return .ok ()

/-- The branch of the other two commands. `strcmp` reads some of the bytes of
`surname`, and its last byte is overwritten. -/
def processSurname (buf len : ℕ) (op : UInt8) : DeviceM (Except Errno Unit) := do
  access ⟨buf + 1, phonedirNameLen, buf + len⟩
  modifyHandle fun h => { h with inputBuf := blit h.inputBuf (buf + phonedirNameLen) [0] }
  let d ← get
  let surname := slice d.handle.inputBuf (buf + 1) phonedirNameLen
  if op = opDelete then
    onKernel (phonedirDel surname)
    return .ok ()
  else
    match ← onKernel (phonedirFind surname) with
    | none => return .error .enomem
    | some found =>
      listSpliceTail found
      return .ok ()

def runOperation (buf len : ℕ) (op : UInt8) : DeviceM (Except Errno Unit) :=
  if op = opAdd then processAdd buf len
  else if op = opDelete ∨ op = opFind then processSurname buf len op
  else return .ok ()

/-- `buf` is an index into `input_buf`. -/
def processOperation (buf len : ℕ) : DeviceM (Except Errno ℕ) := do
  access ⟨buf, 1, buf + len⟩
  let d ← get
  let op := d.handle.inputBuf buf
  -- the comparison of the source: true for a complete command with bytes behind it
  if needBytes op + 1 < len then return .ok 0
  match ← runOperation buf len op with
  | .error e => return .error e
  | .ok () =>
    carryOut (slice d.handle.inputBuf buf (needBytes op + 1))
    return .ok (needBytes op + 1)

def Device.indexed (d : Device) (l r : ℕ) : Device :=
  { d with trace := { d.trace with indices := d.trace.indices ++ [(l, r)] } }

/-- The loop of `handle_process_input_buffers`, with the value of `l_index` behind it. -/
def processInputLoop : ℕ → ℕ → ℕ → DeviceM (Except Errno Unit × ℕ)
  | 0, _, _ => throw .diverged
  | fuel + 1, l, r =>
    if l < r then do
      match ← processOperation l (r - l) with
      | .error e => return (.error e, l)
      | .ok 0 => return (.ok (), l)
      | .ok (n + 1) =>
        modify (·.indexed (l + (n + 1)) r)
        processInputLoop fuel (l + (n + 1)) r
    else return (.ok (), l)

/-- `memmove` of the bytes from `l` up to `r` to the front of `input_buf`. -/
def moveInput (l r : ℕ) : DeviceM Unit := fun d =>
  if r ≤ userBufCap then
    .ok ⟨⟩ { d with
      handle := { d.handle with inputBuf := blit d.handle.inputBuf 0 (slice d.handle.inputBuf l (r - l)) } }
  else .error .fault d

def handleProcessInputBuffers : DeviceM (Except Errno Unit) := do
  let d ← get
  let r := d.handle.inputOffset
  let (retval, l) ← processInputLoop userBufCap 0 r
  if l < r then moveInput l r
  modifyHandle fun h => { h with inputOffset := wsub r l }
  return retval

/-- The loop of `handle_process_output_buffers`: what stays pending, `i` and the buffer. -/
def outputLoop : List Record → ℕ → Memory → Except Stop (List Record × ℕ × Memory)
  | [], i, buf => .ok ([], i, buf)
  | cursor :: n, i, buf =>
    if wsub userBufCap i < recSize then .ok (cursor :: n, i, buf)
    else if i + recSize ≤ userBufCap then outputLoop n (i + recSize) (blit buf i cursor.bytes)
    else .error .fault

def handleProcessOutputBuffers : DeviceM Unit := fun d =>
  match outputLoop d.handle.pendingOutput d.handle.outputOffset d.handle.outputBuf with
  | .ok (pending, i, buf) =>
    .ok ⟨⟩ { d with
      handle := { d.handle with pendingOutput := pending, outputOffset := i, outputBuf := buf } }
  | .error e => .error e d

def handleProcessBuffers : DeviceM (Except Errno Unit) := do
  if ← onKernel downInterruptible then
    let retIn ← handleProcessInputBuffers
    handleProcessOutputBuffers
    return retIn
  else return .error .eintr

/-- `kfree` ends the life of the handle. -/
def handleFree : DeviceM Unit := do
  let _ ← handleProcessBuffers
  modifyHandle fun h => { h with pendingOutput := [] }

/-- The bytes handed to the user are the value; its length is `retval`. -/
def devRead (len : ℕ) : DeviceM (Except Errno (List UInt8)) := do
  let _ ← handleProcessBuffers
  let d ← get
  let dataRemaining := d.handle.outputOffset
  if dataRemaining = 0 then return .ok []
  if userBufCap < dataRemaining then throw .fault
  let copied := min len dataRemaining
  match ← onKernel (copyUser copied) with
  | some _ => return .error .efault
  | none =>
    modifyHandle fun h =>
      { h with
        outputOffset := wsub dataRemaining copied
        outputBuf :=
          if copied ≠ dataRemaining then
            blit h.outputBuf 0 (slice h.outputBuf copied (dataRemaining - copied))
          else h.outputBuf }
    return .ok (slice d.handle.outputBuf 0 copied)

/-- A store of user data behind `input_offset`. -/
def storeInput (bytes : List UInt8) : DeviceM Unit := fun d =>
  if bytes = [] ∨ d.handle.inputOffset + bytes.length ≤ userBufCap then
    .ok ⟨⟩ { d with
      handle := { d.handle with inputBuf := blit d.handle.inputBuf d.handle.inputOffset bytes } }
  else .error .fault d

/-- `dev_write` from the copy on. Where the copy faults, the rest of the range is
zeroed. -/
def takeInput (data : List UInt8) : DeviceM (Except Errno ℕ) := do
  let d ← get
  let copied := min data.length (wsub userBufCap d.handle.inputOffset)
  match ← onKernel (copyUser copied) with
  | some k =>
    storeInput (data.take k ++ List.replicate (copied - k) 0)
    return .error .efault
  | none =>
    storeInput (data.take copied)
    modifyHandle fun h => { h with inputOffset := wadd h.inputOffset copied }
    if 0 < copied then
      let _ ← handleProcessBuffers
    return .ok copied

def devWrite (data : List UInt8) : DeviceM (Except Errno ℕ) := do
  let d ← get
  if wsub userBufCap d.handle.inputOffset = 0 then
    let _ ← handleProcessBuffers
    let d ← get
    if wsub userBufCap d.handle.inputOffset = 0 then return .error .enospc
    else takeInput data
  else takeInput data

/-- `kzalloc` is not checked, so that `dev_open` follows a null pointer. -/
def handleAlloc : EStateM Stop Kernel Handle := do
  if ← kmalloc then return Handle.zeroed else throw .fault

def devOpen : KernelM (Except Errno Handle) := do
  let handle ← handleAlloc
  return .ok handle

def devRelease : DeviceM Unit := handleFree

end KisLinux.Phonedir
