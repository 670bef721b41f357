import KisLinux.PhonedirOutput
import Mathlib.Logic.Function.Basic

/-!
# The directory behind both interfaces

A book is a list of records in the order in which they were added, and a queue of
bytes for each open file. The system calls and the calls of the device act on one
newest-first list of the kernel; on it they do what the same requests do to a
book.
-/
namespace KisLinux.Phonedir
open Fs ByteMemory StateRun

/-! ## Texts -/

/-- The text that a buffer holds: what stands in front of the first NUL. -/
def cText (bytes : List UInt8) : List UInt8 := bytes.takeWhile (· ≠ 0)

/-- A name argument of the device; its last byte is not looked at. -/
def cutText (name : List UInt8) : List UInt8 := cText (name.take (phonedirNameLen - 1))

def Record.surname (r : Record) : List UInt8 := cutText r.bytes

theorem cString_cText (w rest : List UInt8) : cString (w ++ 0 :: rest) = some (cText w) := by
  induction w with
  | nil => rfl
  | cons c w ih =>
    by_cases hc : c = 0
    · simp [cString, cText, hc]
    · have hcons : cText (c :: w) = c :: cText w := List.takeWhile_cons_of_pos (by simpa using hc)
      rw [hcons, List.cons_append, cString, if_neg hc, ih, Option.map_some]

theorem cString_cut {name : List UInt8} (h : phonedirNameLen ≤ name.length) :
    cString (name.set (phonedirNameLen - 1) 0) = some (cutText name) := by
  have hlt : phonedirNameLen - 1 < name.length := lt_of_lt_of_le (by decide) h
  rw [List.set_eq_take_append_cons_drop, if_pos hlt, cString_cText]
  rfl

/-- The surname of this record ends inside of its field. -/
def Record.Cut (r : Record) : Prop := r.bytes[phonedirNameLen - 1]? = some 0

theorem Record.terminated_cut (r : Record) : r.terminated.Cut := by
  have hlt : (127 : ℕ) < r.bytes.length := by rw [r.length_eq]; decide
  have hset : (r.bytes.set 127 0)[127]? = some 0 := List.getElem?_set_self hlt
  simp only [Cut, terminated, clear, surnameField, nameField, emailField, phoneField,
    phonedirNameLen, phonedirEmailLen, phonedirPhoneLen]
  rw [List.getElem?_set_ne (by decide), List.getElem?_set_ne (by decide),
    List.getElem?_set_ne (by decide)]
  exact hset

theorem Record.cString_bytes {r : Record} (h : r.Cut) : cString r.bytes = some r.surname := by
  have hlen : phonedirNameLen ≤ r.bytes.length := by rw [r.length_eq]; decide
  have hset : r.bytes.set (phonedirNameLen - 1) 0 = r.bytes := by
    obtain ⟨hlt, hzero⟩ := List.getElem?_eq_some_iff.mp h
    rw [← hzero, List.set_getElem_self]
  have hcut := cString_cut hlen
  rwa [hset] at hcut

/-- The comparison of the code is the equality of texts. -/
theorem strcmpEq_surname {a w : List UInt8} {r : Record} (ha : cString a = some w) (hr : r.Cut) :
    strcmpEq a r.bytes = decide (r.surname = w) := by
  have hiff := strcmpEq_iff (b := r.bytes) ha
  rw [r.cString_bytes hr, Option.some.injEq] at hiff
  rw [Bool.eq_iff_iff, hiff, decide_eq_true_eq]

/-! ## The book -/

structure Book where
  entries : List Record
  queues : ℕ → List UInt8

/-- What callers ask for; `h` numbers the open files, and `reopen` closes the file
`h` and opens the device again. -/
inductive Request
  | sysAdd (r : Record)
  | sysDel (surname : List UInt8)
  | sysFind (surname : List UInt8)
  | devAdd (h : ℕ) (r : Record)
  | devDelete (h : ℕ) (name : List UInt8)
  | devFind (h : ℕ) (name : List UInt8)
  | devRead (h len : ℕ)
  | reopen (h : ℕ)

/-- The lengths that the requests come with. -/
def Request.Valid : Request → Prop
  | .sysDel surname => 1 ≤ surname.length ∧ surname.length ≤ phonedirNameLen - 1
  | .sysFind surname => 1 ≤ surname.length ∧ surname.length ≤ phonedirNameLen - 1
  | .devDelete _ name => name.length = phonedirNameLen
  | .devFind _ name => name.length = phonedirNameLen
  | _ => True

/-- What the callers are told: the values of the system calls and of the device's. -/
inductive Answer
  | status (r : Except Errno Unit)
  | found (r : Except Errno (Option Record))
  | wrote (r : Except Errno ℕ)
  | read (r : Except Errno (List UInt8))
  | reopened

namespace Book

def empty : Book := ⟨[], fun _ => []⟩

def add (b : Book) (r : Record) : Book := { b with entries := b.entries ++ [r.terminated] }

def delete (b : Book) (w : List UInt8) : Book :=
  { b with entries := b.entries.filter fun r => r.surname ≠ w }

/-- The matching records, oldest first. -/
def matching (b : Book) (w : List UInt8) : List Record :=
  b.entries.filter fun r => r.surname = w

def setQueue (b : Book) (h : ℕ) (q : List UInt8) : Book :=
  { b with queues := Function.update b.queues h q }

/-- The book `b'` and the answer `a` that the request may lead to from `b`. Reads
may stop short, but not give nothing while there is something. -/
def Answers (b : Book) : Request → Answer → Book → Prop
  | .sysAdd r, a, b' => a = .status (.ok ()) ∧ b' = b.add r
  | .sysDel surname, a, b' => a = .status (.ok ()) ∧ b' = b.delete (cText surname)
  | .sysFind surname, a, b' => a = .found (.ok (b.matching (cText surname)).head?) ∧ b' = b
  | .devAdd _ r, a, b' => a = .wrote (.ok (recSize + 1)) ∧ b' = b.add r
  | .devDelete _ name, a, b' =>
    a = .wrote (.ok (phonedirNameLen + 1)) ∧ b' = b.delete (cutText name)
  | .devFind h name, a, b' => a = .wrote (.ok (phonedirNameLen + 1)) ∧
    b' = b.setQueue h (b.queues h ++ recordBytes (b.matching (cutText name)))
  | .devRead h len, a, b' => ∃ given rest, a = .read (.ok given) ∧ b.queues h = given ++ rest ∧
    b' = b.setQueue h rest ∧ given.length ≤ len ∧ (0 < len → given = [] → rest = [])
  | .reopen h, a, b' => a = .reopened ∧ b' = b.setQueue h []

/-- A run of a book over the requests and their answers. -/
inductive Run : Book → List (Request × Answer) → Book → Prop
  | nil (b : Book) : Run b [] b
  | cons {b b' b'' : Book} {q : Request} {a : Answer} {rest : List (Request × Answer)}
      (answers : b.Answers q a b') (run : Run b' rest b'') : Run b ((q, a) :: rest) b''

end Book

/-! ## The system -/

/-- The module with its open files; all of them are open from the start. -/
structure System where
  kernel : Kernel
  files : ℕ → Handle

abbrev SystemM := EStateM Stop System

def onSystem {α : Type} (x : KernelM α) : SystemM α :=
  onPart (·.kernel) (fun s k => { s with kernel := k }) x

def onFile {α : Type} (h : ℕ) (x : DeviceM α) : SystemM α :=
  onPart (fun s => ⟨s.kernel, s.files h, .empty⟩)
    (fun s d => { kernel := d.kernel, files := Function.update s.files h d.handle }) x

def perform : Request → SystemM Answer
  | .sysAdd r => return .status (← onSystem (sysAdd r))
  | .sysDel surname => return .status (← onSystem (sysDel surname))
  | .sysFind surname => return .found (← onSystem (sysFind surname))
  | .devAdd h r => return .wrote (← onFile h (devWrite (opAdd :: r.bytes)))
  | .devDelete h name => return .wrote (← onFile h (devWrite (opDelete :: name)))
  | .devFind h name => return .wrote (← onFile h (devWrite (opFind :: name)))
  | .devRead h len => return .read (← onFile h (devRead len))
  | .reopen h => do
    onFile h devRelease
    match ← onSystem devOpen with
    | .ok handle =>
      modify fun s => { s with files := Function.update s.files h handle }
      return .reopened
    | .error e => return .wrote (.error e)

def performAll : List Request → SystemM (List Answer)
  | [] => return []
  | q :: rest => do
    let a ← perform q
    let as ← performAll rest
    return a :: as

/-- After `insmod`: nobody is in the directory. -/
def System.started (k : Kernel) : System := ⟨{ k with directory := [] }, fun _ => .zeroed⟩

/-- Nothing that the calls ask of the rest of the kernel fails. -/
structure Calm (k : Kernel) : Prop extends Granted k where
  copies : ∀ n, k.copies n = none

/-- The system stands for the book. -/
structure Represents (s : System) (b : Book) : Prop where
  calm : Calm s.kernel
  directory : s.kernel.directory = b.entries.reverse
  cut : ∀ r ∈ b.entries, r.Cut
  input : ∀ h, (s.files h).inputOffset = 0
  output : ∀ h, (s.files h).outputOffset ≤ userBufCap
  queues : ∀ h, (s.files h).remaining = b.queues h

variable {k : Kernel} {s : System} {b : Book}

theorem onSystem_run {α : Type} {x : KernelM α} {a : α} {k' : Kernel}
    (h : x s.kernel = .ok a k') : onSystem x s = .ok a { s with kernel := k' } := onPart_of_ok h

theorem onFile_run {α : Type} {n : ℕ} {x : DeviceM α} {a : α} {d : Device}
    (h : x ⟨s.kernel, s.files n, .empty⟩ = .ok a d) :
    onFile n x s = .ok a ⟨d.kernel, Function.update s.files n d.handle⟩ := onPart_of_ok h

/-! ## System calls in a calm kernel -/

theorem Calm.alloc (h : Calm k) : Calm { k with allocs := fun n => k.allocs (n + 1) } :=
  ⟨⟨fun n => h.allocs (n + 1), h.locks⟩, h.copies⟩

theorem Calm.lock (h : Calm k) : Calm { k with locks := fun n => k.locks (n + 1) } :=
  ⟨⟨h.allocs, fun n => h.locks (n + 1)⟩, h.copies⟩

theorem Calm.copy (h : Calm k) : Calm { k with copies := fun n => k.copies (n + 1) } :=
  ⟨⟨h.allocs, h.locks⟩, fun n => h.copies (n + 1)⟩

theorem Calm.withDirectory (h : Calm k) (l : List Record) : Calm { k with directory := l } :=
  ⟨⟨h.allocs, h.locks⟩, h.copies⟩

theorem Calm.kmalloc_run (h : Calm k) :
    kmalloc k = .ok true { k with allocs := fun n => k.allocs (n + 1) } := by
  rw [Phonedir.kmalloc_run, h.allocs 0]

theorem Calm.downInterruptible_run (h : Calm k) :
    downInterruptible k = .ok true { k with locks := fun n => k.locks (n + 1) } := by
  rw [Phonedir.downInterruptible_run, h.locks 0]

theorem Calm.copyUser_run (h : Calm k) (n : ℕ) :
    copyUser n k = .ok none { k with copies := fun i => k.copies (i + 1) } := by
  rw [Phonedir.copyUser_run, h.copies 0]
  rfl

theorem devOpen_run (h : Calm k) :
    devOpen k = .ok (.ok .zeroed) { k with allocs := fun n => k.allocs (n + 1) } := by
  have halloc : handleAlloc k = .ok .zeroed { k with allocs := fun n => k.allocs (n + 1) } := by
    unfold handleAlloc
    rw [bind_of_ok h.kmalloc_run, if_pos rfl, pure_run]
  exact (bind_of_ok halloc).trans (pure_run _ _)

theorem sysAdd_run (h : Calm k) (r : Record) :
    ∃ k', sysAdd r k = .ok (.ok ()) k' ∧ Calm k' ∧ k'.directory = r.terminated :: k.directory := by
  unfold sysAdd
  rw [bind_of_ok h.kmalloc_run, if_pos rfl, bind_of_ok (h.alloc.copyUser_run recSize)]
  dsimp only
  rw [bind_of_ok h.alloc.copy.downInterruptible_run, if_pos rfl]
  unfold phonedirAddRecord
  rw [bind_of_ok h.alloc.copy.lock.kmalloc_run, if_pos rfl, bind_of_ok (phonedirAdd_run _ _)]
  exact ⟨_, rfl, h.alloc.copy.lock.alloc.withDirectory _, rfl⟩

theorem surnameFromUser_run (h : Calm k) {w : List UInt8} (hpos : 1 ≤ w.length)
    (hlt : w.length ≤ phonedirNameLen - 1) :
    ∃ k', surnameFromUser w k = .ok (.ok (w ++ [0])) k' ∧ Calm k' ∧
      k'.directory = k.directory := by
  have hlen : ¬ (phonedirNameLen ≤ w.length ∨ w.length = 0) := by
    unfold phonedirNameLen at *
    omega
  unfold surnameFromUser
  rw [if_neg hlen]
  refine ⟨_, (bind_of_ok h.kmalloc_run).trans ?_, h.alloc.copy, rfl⟩
  rw [if_pos rfl, bind_of_ok (h.alloc.copyUser_run w.length)]
  rfl

theorem sysDel_run (h : Calm k) {w : List UInt8} (hpos : 1 ≤ w.length)
    (hlt : w.length ≤ phonedirNameLen - 1) :
    ∃ k', sysDel w k = .ok (.ok ()) k' ∧ Calm k' ∧
      k'.directory = k.directory.filter fun r => !strcmpEq (w ++ [0]) r.bytes := by
  obtain ⟨k₁, hrun, hk, hdir⟩ := surnameFromUser_run h hpos hlt
  unfold sysDel
  rw [bind_of_ok hrun]
  dsimp only
  rw [bind_of_ok hk.downInterruptible_run, if_pos rfl, bind_of_ok (phonedirDel_run _ _)]
  exact ⟨_, rfl, hk.lock.withDirectory _, by rw [← hdir]⟩

theorem sysFind_run (h : Calm k) {w : List UInt8} (hpos : 1 ≤ w.length)
    (hlt : w.length ≤ phonedirNameLen - 1) :
    ∃ k', sysFind w k = .ok
        (.ok (k.directory.filter fun r => strcmpEq (w ++ [0]) r.bytes).reverse.head?) k' ∧
      Calm k' ∧ k'.directory = k.directory := by
  obtain ⟨k₁, hrun, hk, hdir⟩ := surnameFromUser_run h hpos hlt
  obtain ⟨found, k₂, hfind, halloc, hfound⟩ :=
    phonedirFind_run (w ++ [0]) { k₁ with locks := fun n => k₁.locks (n + 1) }
  have hk₂ : Calm k₂ := ⟨⟨halloc.allocs hk.allocs, by
    rw [halloc.locks]; exact hk.lock.locks⟩, by rw [halloc.copies]; exact hk.copies⟩
  have hdir₂ : k₂.directory = k.directory := halloc.directory.trans hdir
  have hsome := hfound hk.allocs
  dsimp only at hsome
  rw [hdir] at hsome
  unfold sysFind
  rw [bind_of_ok hrun]
  dsimp only
  rw [bind_of_ok hk.downInterruptible_run, if_pos rfl, bind_of_ok hfind, hsome]
  cases (k.directory.filter fun r => strcmpEq (w ++ [0]) r.bytes).reverse with
  | nil => exact ⟨k₂, rfl, hk₂, hdir₂⟩
  | cons firstEntry rest =>
    dsimp only
    rw [bind_of_ok (hk₂.copyUser_run recSize)]
    exact ⟨_, rfl, hk₂.copy, hdir₂⟩

/-! ## The system does what the book does -/

theorem Record.load_getD (r : Record) : Record.load (fun i => r.bytes.getD i 0) 0 = r := by
  have h := slice_getD_append r.bytes []
  rw [List.append_nil, r.length_eq] at h
  unfold Record.load
  cases r
  simp only [h]

namespace Represents

/-- The list runs backwards, and so does what `phonedir_find` builds from it. -/
theorem found (h : Represents s b) {a w : List UInt8} (ha : cString a = some w) :
    (s.kernel.directory.filter fun r => strcmpEq a r.bytes).reverse = b.matching w := by
  rw [h.directory, List.filter_reverse, List.reverse_reverse]
  exact List.filter_congr fun r hr => strcmpEq_surname ha (h.cut r hr)

theorem kept (h : Represents s b) {a w : List UInt8} (ha : cString a = some w) :
    (s.kernel.directory.filter fun r => !strcmpEq a r.bytes) =
      (b.delete w).entries.reverse := by
  rw [h.directory, List.filter_reverse]
  refine congrArg List.reverse (List.filter_congr fun r hr => ?_)
  rw [strcmpEq_surname ha (h.cut r hr), decide_not]

theorem cut_add (h : Represents s b) (r : Record) : ∀ r' ∈ (b.add r).entries, r'.Cut := by
  intro r' hr'
  rcases List.mem_append.mp hr' with hr' | hr'
  · exact h.cut r' hr'
  · rw [List.mem_singleton.mp hr']
    exact r.terminated_cut

theorem cut_delete (h : Represents s b) (w : List UInt8) : ∀ r ∈ (b.delete w).entries, r.Cut :=
  fun r hr => h.cut r (List.mem_of_mem_filter hr)

/-- A step of the kernel alone. -/
theorem withKernel {b' : Book} (h : Represents s b) (hk : Calm k)
    (hdir : k.directory = b'.entries.reverse) (hcut : ∀ r ∈ b'.entries, r.Cut)
    (hqueues : b'.queues = b.queues) : Represents { s with kernel := k } b' where
  calm := hk
  directory := hdir
  cut := hcut
  input := h.input
  output := h.output
  queues := hqueues ▸ h.queues

/-- A step of one file. -/
theorem withFile {b' : Book} {n : ℕ} {handle : Handle} (h : Represents s b) (hk : Calm k)
    (hdir : k.directory = b'.entries.reverse) (hcut : ∀ r ∈ b'.entries, r.Cut)
    (hin : handle.inputOffset = 0) (hout : handle.outputOffset ≤ userBufCap)
    (hqueues : b'.queues = Function.update b.queues n handle.remaining) :
    Represents ⟨k, Function.update s.files n handle⟩ b' where
  calm := hk
  directory := hdir
  cut := hcut
  input m := by
    dsimp only
    by_cases hm : m = n
    · rw [hm, Function.update_self, hin]
    · rw [Function.update_of_ne hm, h.input m]
  output m := by
    dsimp only
    by_cases hm : m = n
    · rw [hm, Function.update_self]
      exact hout
    · rw [Function.update_of_ne hm]
      exact h.output m
  queues m := by
    dsimp only
    rw [hqueues]
    by_cases hm : m = n
    · rw [hm, Function.update_self, Function.update_self]
    · rw [Function.update_of_ne hm, Function.update_of_ne hm, h.queues m]

/-- A command through the file `n`. -/
theorem command {b' : Book} (h : Represents s b) (n : ℕ) {op : UInt8} {args : List UInt8}
    (hlen : args.length = needBytes op)
    (hdir : directoryAfter op args s.kernel.directory = b'.entries.reverse)
    (hcut : ∀ r ∈ b'.entries, r.Cut)
    (hqueues : b'.queues = Function.update b.queues n
      (b.queues n ++ recordBytes (answerTo op args s.kernel.directory))) :
    ∃ s', onFile n (devWrite (op :: args)) s = .ok (.ok (needBytes op + 1)) s' ∧
      Represents s' b' := by
  obtain ⟨d', hrun, hd⟩ := devWrite_command (d := ⟨s.kernel, s.files n, .empty⟩)
    h.calm.toGranted (h.input n) (h.output n) hlen (by rw [Device.refuses, h.calm.copies 0]; rfl)
  refine ⟨_, onFile_run (hrun.trans (by rw [List.length_cons, hlen])), ?_⟩
  refine h.withFile ⟨hd.granted, hd.copies h.calm.copies⟩ (hd.directory.trans hdir) hcut
    hd.inputOffset hd.outputOffset ?_
  rw [hqueues, hd.remaining, h.queues n]

theorem devAdd (h : Represents s b) (n : ℕ) (r : Record) :
    ∃ s', onFile n (devWrite (opAdd :: r.bytes)) s = .ok (.ok (recSize + 1)) s' ∧
      Represents s' (b.add r) := by
  refine h.command n (show r.bytes.length = needBytes opAdd from r.length_eq) ?_ (h.cut_add r) ?_
  · rw [directoryAfter, if_pos rfl, r.load_getD, h.directory, Book.add, List.reverse_append]
    rfl
  · rw [answerTo, if_neg (by decide), recordBytes_nil, List.append_nil, Function.update_eq_self]
    rfl

theorem devDelete (h : Represents s b) (n : ℕ) {name : List UInt8}
    (hname : name.length = phonedirNameLen) :
    ∃ s', onFile n (devWrite (opDelete :: name)) s = .ok (.ok (phonedirNameLen + 1)) s' ∧
      Represents s' (b.delete (cutText name)) := by
  refine h.command n (show name.length = needBytes opDelete from hname) ?_ (h.cut_delete _) ?_
  · rw [directoryAfter, if_neg (by decide), if_pos rfl]
    exact h.kept (cString_cut hname.ge)
  · rw [answerTo, if_neg (by decide), recordBytes_nil, List.append_nil, Function.update_eq_self]
    rfl

theorem devFind (h : Represents s b) (n : ℕ) {name : List UInt8}
    (hname : name.length = phonedirNameLen) :
    ∃ s', onFile n (devWrite (opFind :: name)) s = .ok (.ok (phonedirNameLen + 1)) s' ∧
      Represents s' (b.setQueue n (b.queues n ++ recordBytes (b.matching (cutText name)))) := by
  refine h.command n (show name.length = needBytes opFind from hname) ?_ h.cut ?_
  · rw [directoryAfter, if_neg (by decide), if_neg (by decide)]
    exact h.directory
  · rw [answerTo, if_pos rfl, h.found (cString_cut hname.ge)]
    rfl

/-- Nothing waits in a file whose commands are all carried out. -/
theorem process (h : Represents s b) (n : ℕ) :
    ∃ res d', handleProcessBuffers ⟨s.kernel, s.files n, .empty⟩ = .ok res d' ∧
      Settled ⟨s.kernel, s.files n, .empty⟩ d' ∧ Calm d'.kernel := by
  obtain ⟨res, d', hrun, hd⟩ := handleProcessBuffers_settled (d := ⟨s.kernel, s.files n, .empty⟩)
    (by rw [h.input n]; exact Nat.zero_le _) (h.output n) (Or.inl (h.input n))
  refine ⟨res, d', hrun, hd, ⟨⟨?_, ?_⟩, ?_⟩⟩
  · rw [hd.allocs]
    exact h.calm.allocs
  · rw [hd.locks]
    exact fun i => h.calm.locks (i + 1)
  · rw [hd.copies]
    exact h.calm.copies

theorem devRead (h : Represents s b) (n len : ℕ) :
    ∃ given rest s', onFile n (devRead len) s = .ok (.ok given) s' ∧
      b.queues n = given ++ rest ∧ given.length ≤ len ∧ (0 < len → given = [] → rest = []) ∧
      Represents s' (b.setQueue n rest) := by
  obtain ⟨res, d₁, hprocess, hsettled, hcalm⟩ := h.process n
  obtain ⟨r, d', hrun, hd⟩ := devRead_run len hprocess hsettled.outputOffset
  obtain ⟨given, rfl⟩ := hd.copied hcalm.copies
  have hqueue : b.queues n = given ++ d'.handle.remaining := by
    rw [← h.queues n]
    exact (hd.remaining.trans hsettled.remaining).symm
  have hempty : 0 < len → given = [] → d'.handle.remaining = [] := by
    rintro hlen rfl
    obtain ⟨hfilled, hleft⟩ := hd.empty hlen rfl
    rw [Handle.remaining, hleft, hd.pendingOutput, hsettled.empty (h.calm.locks 0) hfilled]
    rfl
  refine ⟨given, d'.handle.remaining, _, onFile_run hrun, hqueue, hd.length_le, hempty, ?_⟩
  refine h.withFile ⟨⟨?_, ?_⟩, hd.copies hcalm.copies⟩ ?_ h.cut ?_ hd.outputOffset rfl
  · rw [hd.allocs]
    exact hcalm.allocs
  · rw [hd.locks]
    exact hcalm.locks
  · rw [hd.directory, hsettled.directory]
    exact h.directory
  · rw [hd.inputOffset, hsettled.inputOffset]
    exact h.input n

theorem reopen (h : Represents s b) (n : ℕ) :
    ∃ s', perform (.reopen n) s = .ok .reopened s' ∧ Represents s' (b.setQueue n []) := by
  obtain ⟨res, d', hprocess, hsettled, hcalm⟩ := h.process n
  have hfree := devRelease_run hprocess
  refine ⟨_, (bind_of_ok (onFile_run hfree)).trans
    ((bind_of_ok (onSystem_run (devOpen_run hcalm))).trans rfl), ?_⟩
  dsimp only
  rw [Function.update_idem]
  exact h.withFile hcalm.alloc (hsettled.directory.trans h.directory) h.cut rfl (Nat.zero_le _) rfl

/-- One request. -/
theorem step (h : Represents s b) {q : Request} (hq : q.Valid) :
    ∃ a s' b', perform q s = .ok a s' ∧ b.Answers q a b' ∧ Represents s' b' := by
  cases q with
  | sysAdd r =>
    obtain ⟨k', hrun, hk, hdir⟩ := sysAdd_run h.calm r
    refine ⟨_, _, b.add r, (bind_of_ok (onSystem_run hrun)).trans (pure_run _ _), ⟨rfl, rfl⟩, ?_⟩
    refine h.withKernel hk ?_ (h.cut_add r) rfl
    rw [hdir, h.directory, Book.add, List.reverse_append]
    rfl
  | sysDel surname =>
    obtain ⟨k', hrun, hk, hdir⟩ := sysDel_run h.calm hq.1 hq.2
    refine ⟨_, _, b.delete (cText surname), (bind_of_ok (onSystem_run hrun)).trans (pure_run _ _),
      ⟨rfl, rfl⟩, ?_⟩
    exact h.withKernel hk (hdir.trans (h.kept (cString_cText surname []))) (h.cut_delete _) rfl
  | sysFind surname =>
    obtain ⟨k', hrun, hk, hdir⟩ := sysFind_run h.calm hq.1 hq.2
    refine ⟨_, _, b, (bind_of_ok (onSystem_run hrun)).trans (pure_run _ _), ⟨?_, rfl⟩, ?_⟩
    · rw [h.found (cString_cText surname [])]
    · exact h.withKernel hk (hdir.trans h.directory) h.cut rfl
  | devAdd n r =>
    obtain ⟨s', hrun, hs'⟩ := h.devAdd n r
    exact ⟨_, s', _, (bind_of_ok hrun).trans (pure_run _ _), ⟨rfl, rfl⟩, hs'⟩
  | devDelete n name =>
    obtain ⟨s', hrun, hs'⟩ := h.devDelete n hq
    exact ⟨_, s', _, (bind_of_ok hrun).trans (pure_run _ _), ⟨rfl, rfl⟩, hs'⟩
  | devFind n name =>
    obtain ⟨s', hrun, hs'⟩ := h.devFind n hq
    exact ⟨_, s', _, (bind_of_ok hrun).trans (pure_run _ _), ⟨rfl, rfl⟩, hs'⟩
  | devRead n len =>
    obtain ⟨given, rest, s', hrun, hqueue, hlen, hempty, hs'⟩ := h.devRead n len
    exact ⟨_, s', _, (bind_of_ok hrun).trans (pure_run _ _),
      ⟨given, rest, rfl, hqueue, rfl, hlen, hempty⟩, hs'⟩
  | reopen n =>
    obtain ⟨s', hrun, hs'⟩ := h.reopen n
    exact ⟨_, s', _, hrun, ⟨rfl, rfl⟩, hs'⟩

theorem run {qs : List Request} (h : Represents s b) (hqs : ∀ q ∈ qs, q.Valid) :
    ∃ as s' b', performAll qs s = .ok as s' ∧ as.length = qs.length ∧
      Book.Run b (qs.zip as) b' ∧ Represents s' b' := by
  induction qs generalizing s b with
  | nil => exact ⟨[], s, b, rfl, rfl, .nil b, h⟩
  | cons q qs ih =>
    obtain ⟨hq, hrest⟩ := List.forall_mem_cons.mp hqs
    obtain ⟨a, s₁, b₁, hrun, hanswers, h₁⟩ := h.step hq
    obtain ⟨as, s', b', hruns, hlen, hbook, h'⟩ := ih h₁ hrest
    refine ⟨a :: as, s', b', ?_, congrArg (· + 1) hlen, .cons hanswers hbook, h'⟩
    exact (bind_of_ok hrun).trans ((bind_of_ok hruns).trans (pure_run _ _))

end Represents

theorem started_represents (hk : Calm k) : Represents (.started k) .empty where
  calm := hk.withDirectory []
  directory := rfl
  cut _ hr := by cases hr
  input _ := rfl
  output _ := Nat.zero_le _
  queues _ := rfl

/-- Whatever mix of the two interfaces is used, the answers are those of one book,
and the list of the kernel is that book backwards. -/
theorem two_interfaces (k : Kernel) (hk : Calm k) (qs : List Request) (hqs : ∀ q ∈ qs, q.Valid) :
    ∃ as s b, performAll qs (.started k) = .ok as s ∧ as.length = qs.length ∧
      Book.Run .empty (qs.zip as) b ∧ s.kernel.directory = b.entries.reverse := by
  obtain ⟨as, s, b, hrun, hlen, hbook, h⟩ := (started_represents hk).run hqs
  exact ⟨as, s, b, hrun, hlen, hbook, h.directory⟩

theorem calmKernel_calm (l : List Record) : Calm (calmKernel l) :=
  ⟨calmKernel_granted l, fun _ => rfl⟩

theorem two_interfaces_mixed :
    ∃ as s b, performAll [.sysAdd (shortRecord 65), .devAdd 0 (shortRecord 65),
        .devFind 1 (shortName 65), .devRead 1 400, .sysFind [65], .devDelete 0 (shortName 65),
        .sysFind [65]] (.started (calmKernel [])) = .ok as s ∧ as.length = 7 ∧
      Book.Run .empty ([.sysAdd (shortRecord 65), .devAdd 0 (shortRecord 65),
        .devFind 1 (shortName 65), .devRead 1 400, .sysFind [65], .devDelete 0 (shortName 65),
        .sysFind [65]].zip as) b ∧ s.kernel.directory = b.entries.reverse := by
  refine two_interfaces (calmKernel []) (calmKernel_calm []) _ fun q hq => ?_
  simp only [List.mem_cons, List.not_mem_nil, or_false] at hq
  rcases hq with rfl | rfl | rfl | rfl | rfl | rfl | rfl
  · trivial
  · trivial
  · exact rfl
  · trivial
  · exact ⟨by decide, by decide⟩
  · exact rfl
  · exact ⟨by decide, by decide⟩

end KisLinux.Phonedir
