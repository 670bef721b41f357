import KisLinux.PhonedirBook
import KisLinux.Numerals
import KisLinux.Processes

/-!
# The clients of the phone directory

`ch_dircli` of `lltest.cpp`, which talks to the device, and `sys_dircli` of
`systest.cpp`, which makes the system calls. A shell runs commands one after the other,
each a process of its own, and every system call is one action, so that the commands of
several shells interleave between their calls. The parser of the command line is left
out up to what it hands over: the subcommands with their arguments.
-/
namespace KisLinux.Phonedir
open Fs ByteMemory StateRun Numerals Processes

/-! ## Command lines -/

/-- The bytes of a string. -/
def textBytes (s : String) : List UInt8 := s.toList.map byteOf

/-- A C string. -/
abbrev Text := { w : List UInt8 // 0 ∉ w }

/-- The variables of `main`, which are also what makes up a record. -/
structure Entry where
  surname : Text
  name : Text
  phone : Text
  email : Text
  age : UInt32

def Entry.blank : Entry := ⟨⟨[], List.not_mem_nil⟩, ⟨[], List.not_mem_nil⟩, ⟨[], List.not_mem_nil⟩,
  ⟨[], List.not_mem_nil⟩, 0⟩

inductive Subcommand
  | add
  | del
  | find
  deriving DecidableEq, Repr

/-- A subcommand with its arguments. -/
inductive Parsed
  | add (surname name phone email : Text) (age : UInt32)
  | del (surname : Text)
  | find (surname : Text)

def Parsed.subcommand : Parsed → Subcommand
  | .add _ _ _ _ _ => .add
  | .del _ => .del
  | .find _ => .find

/-- The options are bound to the variables of `main`, and `surname` is bound three times. -/
def Parsed.assign : Parsed → Entry → Entry
  | .add surname name phone email age, _ => ⟨surname, name, phone, email, age⟩
  | .del surname, v => { v with surname := surname }
  | .find surname, v => { v with surname := surname }

inductive Program
  | chDircli
  | sysDircli
  deriving DecidableEq, Repr

/-- A command: a program and its subcommands, each at most once, as they stand on the
command line. -/
structure Command where
  program : Program
  parsed : List Parsed
  required : parsed ≠ []
  once : (parsed.map Parsed.subcommand).Nodup

namespace Command

/-- The variables when the first callback is run. By then the options of all subcommands
are assigned, in the order in which `main` adds the subcommands. -/
def entry (c : Command) : Entry :=
  ([.add, .del, .find].flatMap fun sub => c.parsed.filter (·.subcommand = sub)).foldl
    (fun v p => p.assign v) .blank

/-- The callbacks are run in the order of the command line. -/
def callbacks (c : Command) : List Subcommand := c.parsed.map Parsed.subcommand

end Command

/-! ## Records -/

/-- `strerror`. -/
def strerror : Errno → List UInt8
  | .enomem => textBytes "Cannot allocate memory"
  | .eintr => textBytes "Interrupted system call"
  | .efault => textBytes "Bad address"
  | .einval => textBytes "Invalid argument"
  | .enospc => textBytes "No space left on device"

/-- `CError`. -/
def cError (text : String) (e : Errno) : List UInt8 := textBytes text ++ textBytes ": " ++ strerror e

/-- `copy_normalized`. -/
def copyNormalized (text : List UInt8) (maxlen : ℕ) :
    Except (List UInt8) { field : List UInt8 // field.length = maxlen } :=
  if h : maxlen < text.length + 1 then .error (textBytes "Parameter is too long")
  else .ok ⟨text ++ List.replicate (maxlen - text.length) 0, by
    rw [List.length_append, List.length_replicate]
    omega⟩

/-- The record of `preform_add`. -/
def Entry.toRecord (v : Entry) : Except (List UInt8) Record := do
  let surname ← copyNormalized v.surname phonedirNameLen
  let name ← copyNormalized v.name phonedirNameLen
  let email ← copyNormalized v.email phonedirEmailLen
  let phone ← copyNormalized v.phone phonedirPhoneLen
  return ⟨surname ++ name ++ email ++ phone ++ leBytes 4 v.age.toNat, by
    simp only [List.length_append, surname.2, name.2, email.2, phone.2, leBytes_length]
    rfl⟩

/-- `surname_to_op_string`. -/
def surnameToOpString (surname : List UInt8) : Except (List UInt8) (List UInt8) :=
  if phonedirNameLen < surname.length + 1 then .error (textBytes "Surname is too long")
  else .ok (0 :: (surname ++ List.replicate (phonedirNameLen - surname.length) 0))

/-- `age` in memory. -/
def Record.age (r : Record) : ℕ := leNat (r.bytes.drop (phoneField + phonedirPhoneLen))

/-- `operator<<` with the end of the line. A character array is printed up to a NUL. -/
def Record.line (r : Record) : List UInt8 :=
  cText (r.bytes.drop surnameField) ++ 32 :: cText (r.bytes.drop nameField) ++
    32 :: cText (r.bytes.drop phoneField) ++ 32 :: cText (r.bytes.drop emailField) ++
    32 :: decimal r.age ++ [10]

/-! ## System calls -/

/-- The system calls of the clients; `h` is the open file of the device. -/
inductive SystemCall
  | openDevice (h : ℕ)
  | closeDevice (h : ℕ)
  | write (h : ℕ) (buf : List UInt8)
  | read (h len : ℕ)
  | add (record : Record)
  | del (surname : List UInt8)
  | find (surname : List UInt8)

namespace SystemCall

def Answer : SystemCall → Type
  | openDevice _ => Except Errno Unit
  | closeDevice _ => Unit
  | write _ _ => Except Errno ℕ
  | read _ _ => Except Errno (List UInt8)
  | add _ => Except Errno Unit
  | del _ => Except Errno Unit
  | find _ => Except Errno (Option Record)

def call : (q : SystemCall) → SystemM q.Answer
  | openDevice h => do
    match ← onSystem devOpen with
    | .ok handle =>
      modify fun s => { s with files := Function.update s.files h handle }
      return .ok ()
    | .error e => return .error e
  | closeDevice h => onFile h devRelease
  | write h buf => onFile h (devWrite buf)
  | read h len => onFile h (devRead len)
  | add record => onSystem (sysAdd record)
  | del surname => onSystem (sysDel surname)
  | find surname => onSystem (sysFind surname)

/-- No answer where the kernel breaks down. -/
def serve (q : SystemCall) (s : System) : Option (q.Answer × System) :=
  match q.call s with
  | .ok a s' => some (a, s')
  | .error _ _ => none

end SystemCall

/-! ## Processes -/

/-- What a shell prints. -/
inductive Printed
  | line (text : List UInt8)
  /-- The last words of `std::terminate`. -/
  | terminated (what : List UInt8)
  deriving DecidableEq, Repr

/-- A command that is under way, and the commands behind it. -/
structure Frame where
  command : Command
  /-- The file is open. -/
  opened : Bool
  callbacks : List Subcommand
  later : List Command

/-- Where a shell stands, with the variables that are still needed. -/
inductive Point
  | shell (commands : List Command)
  | callbacks (f : Frame)
  /-- `write_all`, with what is left of the buffer; the answers are read then, or not. -/
  | writeAll (f : Frame) (buf : List UInt8) (search : Bool)
  /-- `read_quant`, with the first bytes of the record. -/
  | readQuant (f : Frame) (read : List UInt8)
  | print (f : Frame) (record : Record)
  /-- An exception that nobody catches. -/
  | thrown (f : Frame) (what : List UInt8)
  | exit (f : Frame)

/-- The bytes that a callback of `ch_dircli` writes. -/
def Subcommand.payload (v : Entry) : Subcommand → Except (List UInt8) (List UInt8)
  | .add => v.toRecord.map fun record => opAdd :: record.bytes
  | .del => (surnameToOpString v.surname).map fun data => data.set 0 opDelete
  | .find => (surnameToOpString v.surname).map fun data => data.set 0 opFind

/-- A callback of `sys_dircli`. -/
def Subcommand.sysCallback (f : Frame) (v : Entry) :
    Subcommand → Act SystemCall SystemCall.Answer Printed Point
  | .add =>
    match v.toRecord with
    | .error what => .move (.thrown f what)
    | .ok record => .call (.add record) fun
      | .ok _ => .callbacks f
      | .error e => .thrown f (cError "Add failed" e)
  | .del => .call (.del v.surname) fun
    | .ok _ => .callbacks f
    | .error e => .thrown f (cError "Delete failed" e)
  | .find => .call (.find v.surname) fun
    | .ok none => .callbacks f
    | .ok (some record) => .print f record
    | .error e => .thrown f (cError "Search failed" e)

/-- What the shell `h` does next. -/
def Point.act (h : ℕ) : Point → Act SystemCall SystemCall.Answer Printed Point
  | .shell [] => .halt
  | .shell (c :: later) =>
    match c.program with
    | .chDircli => .call (.openDevice h) fun
      | .ok _ => .callbacks ⟨c, true, c.callbacks, later⟩
      | .error e => .thrown ⟨c, false, c.callbacks, later⟩ (cError "Cannot open device" e)
    | .sysDircli => .move (.callbacks ⟨c, false, c.callbacks, later⟩)
  | .callbacks ⟨c, opened, [], later⟩ => .move (.exit ⟨c, opened, [], later⟩)
  | .callbacks ⟨c, opened, sub :: todo, later⟩ =>
    match c.program with
    | .chDircli =>
      match sub.payload c.entry with
      | .error what => .move (.thrown ⟨c, opened, todo, later⟩ what)
      | .ok buf => .move (.writeAll ⟨c, opened, todo, later⟩ buf (sub = .find))
    | .sysDircli => sub.sysCallback ⟨c, opened, todo, later⟩ c.entry
  | .writeAll f buf search =>
    if buf = [] then .move (if search then .readQuant f [] else .callbacks f)
    else .call (.write h buf) fun
      | .ok done => .writeAll f (buf.drop done) search
      | .error e => .thrown f (cError "Write failed" e)
  | .readQuant f read =>
    if hfull : read.length = recSize then .move (.print f ⟨read, hfull⟩)
    else .call (.read h (recSize - read.length)) fun
      | .ok bytes =>
        if bytes = [] then
          if read = [] then .callbacks f else .thrown f (textBytes "Cannot read whole quant")
        else .readQuant f (read ++ bytes)
      | .error e => .thrown f (cError "Read failed" e)
  | .print f record => .output (.line record.line)
    (match f.command.program with
      | .chDircli => .readQuant f []
      | .sysDircli => .callbacks f)
  | .thrown f what => .output (.terminated what) (.exit f)
  | .exit f =>
    if f.opened then .call (.closeDevice h) fun _ => .shell f.later else .move (.shell f.later)

/-- The module is loaded, and the shells are in front of their first commands. -/
def shellsAt (k : Kernel) (commands : ℕ → List Command) : World System ℕ Point Printed :=
  ⟨.started k, fun h => .shell (commands h), fun _ => []⟩

end KisLinux.Phonedir
