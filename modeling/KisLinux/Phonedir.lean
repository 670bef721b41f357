import KisLinux.PathSplit

/-!
# The phone directory

`directory.c` and the system calls of the directory module. What the code gets
from the rest of the kernel is fixed call by call: whether `kmalloc` finds
memory, whether the lock is taken or the wait for it interrupted, and after how
many bytes a copy between the kernel and the user runs into a fault. One call is
over before the next begins, so that a lock is always free when it is asked for.
-/
namespace KisLinux.Phonedir
open Fs ByteMemory StateRun

inductive Errno
  | enomem
  | eintr
  | efault
  | einval
  | enospc
  deriving DecidableEq, Repr

def phonedirNameLen : ℕ := 128
def phonedirEmailLen : ℕ := 64
def phonedirPhoneLen : ℕ := 64

/-- Offsets inside `struct phonedir_record`; `age` takes the last four bytes. -/
def surnameField : ℕ := 0
def nameField : ℕ := 128
def emailField : ℕ := 256
def phoneField : ℕ := 320
def recSize : ℕ := 388

structure Record where
  bytes : List UInt8
  length_eq : bytes.length = recSize
  deriving DecidableEq

namespace Record

/-- The record that a pointer into memory shows. -/
def load (m : Memory) (a : ℕ) : Record := ⟨slice m a recSize, slice_length m a recSize⟩

@[simp] theorem load_bytes (m : Memory) (a : ℕ) : (load m a).bytes = slice m a recSize := rfl

def clear (r : Record) (i : ℕ) : Record :=
  ⟨r.bytes.set i 0, by rw [List.length_set, r.length_eq]⟩

/-- Ensure strings null terminated. -/
def terminated (r : Record) : Record :=
  (((r.clear (surnameField + phonedirNameLen - 1)).clear
    (nameField + phonedirNameLen - 1)).clear
      (phoneField + phonedirPhoneLen - 1)).clear
        (emailField + phonedirEmailLen - 1)

end Record

/-- `strcmp(a, b) == 0`, where `a` and `b` are the memory behind the pointers. -/
def strcmpEq : List UInt8 → List UInt8 → Bool
  | c :: a, d :: b => c == d && (c == 0 || strcmpEq a b)
  | _, _ => false

theorem strcmpEq_iff {a b w : List UInt8} (h : cString a = some w) :
    strcmpEq a b = true ↔ cString b = some w := by
  induction a generalizing b w with
  | nil => cases h
  | cons c a ih =>
    cases b with
    | nil => simp [strcmpEq, cString]
    | cons d b =>
      by_cases hc : c = 0
      · obtain rfl : [] = w := by simpa [cString, hc] using h
        by_cases hd : d = 0
        · simp [strcmpEq, cString, hc, hd]
        · simp [strcmpEq, cString, hc, hd, Ne.symm hd]
      · simp only [cString, if_neg hc, Option.map_eq_some_iff] at h
        obtain ⟨v, hv, rfl⟩ := h
        by_cases hcd : c = d
        · subst hcd
          simp [strcmpEq, cString, hc, ih hv]
        · by_cases hd : d = 0
          · simp [strcmpEq, cString, hc, hd]
          · simp [strcmpEq, cString, hcd, hd, Ne.symm hcd]

/-- The list `phone_directory`, newest first, and the answers that the rest of the
kernel is going to give. A copy answered with `some k` faults behind `k` bytes. -/
structure Kernel where
  directory : List Record
  allocs : ℕ → Bool
  locks : ℕ → Bool
  copies : ℕ → Option ℕ

/-- A kernel in which nothing fails, around the given directory. -/
def calmKernel (directory : List Record) : Kernel :=
  ⟨directory, fun _ => true, fun _ => true, fun _ => none⟩

/-- The surname of one letter `c`, and a record that has it and nothing else. -/
def shortName (c : UInt8) : List UInt8 := c :: List.replicate 127 0

def shortRecord (c : UInt8) : Record :=
  ⟨c :: List.replicate 387 0, by rw [List.length_cons, List.length_replicate]; rfl⟩

abbrev KernelM := EStateM Stop Kernel

def kmalloc : KernelM Bool := fun k =>
  .ok (k.allocs 0) { k with allocs := fun n => k.allocs (n + 1) }

/-- Whether the lock was taken. -/
def downInterruptible : KernelM Bool := fun k =>
  .ok (k.locks 0) { k with locks := fun n => k.locks (n + 1) }

/-- A copy of `n` bytes: `some k` when it ran into a fault with `k` bytes done. -/
def copyUser (n : ℕ) : KernelM (Option ℕ) := fun k =>
  .ok ((k.copies 0).filter (· < n)) { k with copies := fun i => k.copies (i + 1) }

def phonedirAdd (newEntry : Record) : KernelM Unit :=
  modify fun k => { k with directory := newEntry :: k.directory }

def phonedirAddRecord (newRecord : Record) : KernelM (Except Errno Unit) := do
  if ← kmalloc then
    phonedirAdd newRecord.terminated
    return .ok ()
  else return .error .enomem

/-- The loop of `phonedir_find`; `result` is the list built so far. -/
def phonedirFindLoop (surname : List UInt8) : List Record → List Record → KernelM (List Record)
  | [], result => pure result
  | cursor :: rest, result => do
    if strcmpEq surname cursor.bytes then
      if ← kmalloc then phonedirFindLoop surname rest (cursor :: result)
      else phonedirFindLoop surname rest result
    else phonedirFindLoop surname rest result

/-- `none` is a null pointer. -/
def phonedirFind (surname : List UInt8) : KernelM (Option (List Record)) := do
  if ← kmalloc then
    let k ← get
    return some (← phonedirFindLoop surname k.directory [])
  else return none

def phonedirDel (surname : List UInt8) : KernelM Unit :=
  modify fun k =>
    { k with directory := k.directory.filter fun cursor => !strcmpEq surname cursor.bytes }

/-! ## System calls -/

/-- `ptr` shows the `len` bytes that the caller points to. -/
def surnameFromUser (ptr : List UInt8) : KernelM (Except Errno (List UInt8)) := do
  if phonedirNameLen ≤ ptr.length ∨ ptr.length = 0 then return .error .einval
  if ← kmalloc then
    match ← copyUser ptr.length with
    | some _ => return .error .efault
    | none => return .ok (ptr ++ [0])
  else return .error .enomem

def sysAdd (ptr : Record) : KernelM (Except Errno Unit) := do
  if ← kmalloc then
    match ← copyUser recSize with
    | some _ => return .error .efault
    | none =>
      if ← downInterruptible then phonedirAddRecord ptr
      else return .error .eintr
  else return .error .enomem

def sysDel (ptr : List UInt8) : KernelM (Except Errno Unit) := do
  match ← surnameFromUser ptr with
  | .error e => return .error e
  | .ok surname =>
    if ← downInterruptible then
      phonedirDel surname
      return .ok ()
    else return .error .eintr

/-- `some record` is the value 1 with the record stored through `ptr1`, `none` the
value 0. -/
def sysFind (ptr0 : List UInt8) : KernelM (Except Errno (Option Record)) := do
  match ← surnameFromUser ptr0 with
  | .error e => return .error e
  | .ok surname =>
    if ← downInterruptible then
      match ← phonedirFind surname with
      | none => return .error .enomem
      | some [] => return .ok none
      | some (firstEntry :: _) =>
        match ← copyUser recSize with
        | some _ => return .error .efault
        | none => return .ok (some firstEntry)
    else return .error .eintr

/-! ## What the operations on the list do -/

variable {k k' : Kernel}

@[simp] theorem kmalloc_run (k : Kernel) :
    kmalloc k = .ok (k.allocs 0) { k with allocs := fun n => k.allocs (n + 1) } := rfl

@[simp] theorem downInterruptible_run (k : Kernel) :
    downInterruptible k = .ok (k.locks 0) { k with locks := fun n => k.locks (n + 1) } := rfl

@[simp] theorem copyUser_run (n : ℕ) (k : Kernel) :
    copyUser n k =
      .ok ((k.copies 0).filter (· < n)) { k with copies := fun i => k.copies (i + 1) } := rfl

@[simp] theorem phonedirAdd_run (r : Record) (k : Kernel) :
    phonedirAdd r k = .ok ⟨⟩ { k with directory := r :: k.directory } := rfl

@[simp] theorem phonedirDel_run (w : List UInt8) (k : Kernel) :
    phonedirDel w k = .ok ⟨⟩
      { k with directory := k.directory.filter fun cursor => !strcmpEq w cursor.bytes } := rfl

/-- `k'` comes from `k` by calls of `kmalloc` only. -/
structure Kernel.Allocated (k k' : Kernel) : Prop where
  directory : k'.directory = k.directory
  locks : k'.locks = k.locks
  copies : k'.copies = k.copies
  allocs : (∀ n, k.allocs n = true) → ∀ n, k'.allocs n = true

theorem Kernel.allocated_shift (k : Kernel) :
    k.Allocated { k with allocs := fun n => k.allocs (n + 1) } :=
  ⟨rfl, rfl, rfl, fun h n => h (n + 1)⟩

/-- The records with this surname, in the order of the list. -/
def matchingRecords (surname : List UInt8) (list : List Record) : List Record :=
  list.filter fun cursor => strcmpEq surname cursor.bytes

/-- Those among the records that memory is found for, with one request for each. -/
def copiedRecords : List Record → (ℕ → Bool) → List Record
  | [], _ => []
  | r :: rest, allocs =>
    if allocs 0 then r :: copiedRecords rest fun n => allocs (n + 1)
    else copiedRecords rest fun n => allocs (n + 1)

theorem copiedRecords_length_le (l : List Record) (allocs : ℕ → Bool) :
    (copiedRecords l allocs).length ≤ l.length := by
  induction l generalizing allocs with
  | nil => exact Nat.le_refl 0
  | cons r l ih =>
    have hrest := ih fun n => allocs (n + 1)
    unfold copiedRecords
    split
    · rw [List.length_cons, List.length_cons]
      omega
    · rw [List.length_cons]
      omega

/-- No record is missing exactly when no request failed. -/
theorem copiedRecords_length_eq {l : List Record} {allocs : ℕ → Bool} :
    (copiedRecords l allocs).length = l.length ↔ ∀ i < l.length, allocs i = true := by
  induction l generalizing allocs with
  | nil => simp [copiedRecords]
  | cons r l ih =>
    unfold copiedRecords
    by_cases ha : allocs 0 = true
    · rw [if_pos ha, List.length_cons, List.length_cons, Nat.add_right_cancel_iff, ih]
      constructor
      · intro h i hi
        cases i with
        | zero => exact ha
        | succ i => exact h i (Nat.lt_of_succ_lt_succ hi)
      · exact fun h i hi => h (i + 1) (Nat.succ_lt_succ hi)
    · have hle := copiedRecords_length_le l fun n => allocs (n + 1)
      rw [if_neg ha, List.length_cons]
      exact ⟨fun h => by omega, fun h => absurd (h 0 (Nat.succ_pos _)) ha⟩

theorem copiedRecords_eq {l : List Record} {allocs : ℕ → Bool} (h : ∀ i < l.length, allocs i = true) :
    copiedRecords l allocs = l := by
  induction l generalizing allocs with
  | nil => rfl
  | cons r l ih =>
    unfold copiedRecords
    rw [if_pos (h 0 (Nat.succ_pos _)), ih fun i hi => h (i + 1) (Nat.succ_lt_succ hi)]

/-- The loop prepends a copy of every match that it gets memory for. -/
theorem phonedirFindLoop_run (w : List UInt8) (l result : List Record) (k : Kernel) :
    phonedirFindLoop w l result k =
      .ok ((copiedRecords (matchingRecords w l) k.allocs).reverse ++ result)
        { k with allocs := fun n => k.allocs (n + (matchingRecords w l).length) } := by
  induction l generalizing result k with
  | nil => rfl
  | cons r l ih =>
    unfold phonedirFindLoop
    by_cases hr : strcmpEq w r.bytes = true
    · have hcons : matchingRecords w (r :: l) = r :: matchingRecords w l :=
        List.filter_cons_of_pos hr
      have hallocs : (fun n => k.allocs (n + (matchingRecords w l).length + 1)) =
          fun n => k.allocs (n + (r :: matchingRecords w l).length) := by
        funext n
        rw [List.length_cons, Nat.add_assoc]
      rw [if_pos hr, bind_of_ok (kmalloc_run k), hcons, copiedRecords, ← hallocs]
      by_cases ha : k.allocs 0 = true
      · rw [if_pos ha, if_pos ha, ih, List.reverse_cons, List.append_assoc, List.singleton_append]
      · rw [if_neg ha, if_neg ha, ih]
    · have hcons : matchingRecords w (r :: l) = matchingRecords w l := List.filter_cons_of_neg hr
      rw [if_neg hr, hcons]
      exact ih result k

/-- The list head takes the first request, and without it there is nothing to return. -/
theorem phonedirFind_eq (w : List UInt8) (k : Kernel) :
    phonedirFind w k = if k.allocs 0 = true then
      .ok (some (copiedRecords (matchingRecords w k.directory) fun n => k.allocs (n + 1)).reverse)
        { k with allocs := fun n => k.allocs (n + (matchingRecords w k.directory).length + 1) }
    else .ok none { k with allocs := fun n => k.allocs (n + 1) } := by
  unfold phonedirFind
  rw [bind_of_ok (kmalloc_run k)]
  by_cases ha : k.allocs 0 = true
  · rw [if_pos ha, if_pos ha, bind_of_ok (get_run _), bind_of_ok (phonedirFindLoop_run _ _ _ _),
      List.append_nil]
    rfl
  · rw [if_neg ha, if_neg ha, pure_run]

theorem phonedirFind_run (w : List UInt8) (k : Kernel) :
    ∃ found k', phonedirFind w k = .ok found k' ∧ k.Allocated k' ∧
      ((∀ n, k.allocs n = true) →
        found = some (k.directory.filter fun r => strcmpEq w r.bytes).reverse) := by
  rw [phonedirFind_eq]
  by_cases ha : k.allocs 0 = true
  · rw [if_pos ha]
    refine ⟨_, _, rfl, ⟨rfl, rfl, rfl, fun h n => h _⟩, fun h => ?_⟩
    rw [copiedRecords_eq fun i _ => h (i + 1)]
    rfl
  · rw [if_neg ha]
    exact ⟨_, _, rfl, k.allocated_shift, fun h => absurd (h 0) ha⟩

end KisLinux.Phonedir
