import KisLinux.FsImage
import KisLinux.ShortTransfer

/-!
# Whole transfers

`safe_read` and `safe_write` repeat a call until everything was moved. `catch`,
the error handler of all serializers, clears `errno`, so that a failed call ends
one transfer and leaves nothing behind for the next one. `Sends` says that a
writer offers certain bytes, and what it returns when the peer stops taking them.
-/
namespace KisLinux.Net
open ByteMemory StateRun ShortTransfer Fs

/-- The allocator answers one request after another with an address or not. No
object is longer than a signed length can say. -/
structure Heap where
  answers : ℕ → ℕ → Option ℕ+
  granted_lt : ∀ i n a, answers i n = some a → n < 2 ^ 63

def Heap.next (h : Heap) : Heap where
  answers i := h.answers (i + 1)
  granted_lt i := h.granted_lt (i + 1)

/-- No request for at most `bound` bytes fails. -/
def Heap.Grants (h : Heap) (bound : ℕ) : Prop := ∀ i, ∀ n ≤ bound, ∃ a, h.answers i n = some a

theorem Heap.Grants.next {h : Heap} {bound : ℕ} (hg : h.Grants bound) : h.next.Grants bound :=
  fun i n hn => hg (i + 1) n hn

/-- A pointer: its value and the bytes that are known to lie behind it. A null
pointer has none. -/
structure Buffer where
  address : ℕ
  bytes : List UInt8
  nonnull : address = 0 → bytes = []
  deriving DecidableEq, Repr

namespace Buffer

def null : Buffer := ⟨0, [], fun _ => rfl⟩

/-- A pointer value that came from somewhere else. -/
def dangling (address : ℕ) : Buffer := ⟨address, [], fun _ => rfl⟩

def block (address : ℕ+) (bytes : List UInt8) : Buffer :=
  ⟨address, bytes, fun h => absurd h address.ne_zero⟩

end Buffer

/-- The reading half of a process: its stream and its allocator. -/
structure Input where
  source : Source UInt8
  heap : Heap

abbrev InM := EStateM Stop Input

abbrev OutM := EStateM Stop (Sink UInt8)

/-- `read`; `none` sets `errno`. -/
def readCall (n : ℕ) : InM (Option (List UInt8)) := fun s =>
  .ok (s.source.read n).1 { s with source := (s.source.read n).2 }

/-- `write`; `none` sets `errno`. -/
def writeCall (d : List UInt8) : OutM (Option ℕ) := fun s => .ok (s.write d).1 (s.write d).2

def malloc (size : ℕ) : InM (Option ℕ+) := fun s =>
  .ok (s.heap.answers 0 size) { s with heap := s.heap.next }

/-- The loop of `safe_read` with `n` bytes to go: what it returns and the bytes
it stored. A round moves at least one byte, so `n` rounds are enough. -/
def safeReadLoop : ℕ → ℕ → InM (Bool × List UInt8)
  | _, 0 => pure (true, [])
  | 0, _ + 1 => throw .diverged
  | rounds + 1, n + 1 => do
    let got ← readCall (n + 1)
    match got with
    | none => pure (false, [])
    | some got =>
      if got = [] then pure (false, [])
      else do
        let r ← safeReadLoop rounds (n + 1 - got.length)
        pure (r.1, got ++ r.2)

def safeRead (len : ℕ) : InM (Bool × List UInt8) := safeReadLoop len len

/-- The loop of `safe_write` with the bytes `d` to go. -/
def safeWriteLoop : ℕ → List UInt8 → OutM Bool
  | _, [] => pure true
  | 0, _ :: _ => throw .diverged
  | rounds + 1, b :: d => do
    let put ← writeCall (b :: d)
    match put with
    | none => pure false
    | some k => safeWriteLoop rounds ((b :: d).drop k)

def safeWrite (d : List UInt8) : OutM Bool := safeWriteLoop d.length d

/-- `s'` is `s` behind the bytes `d`, with the same allocator. -/
structure Input.Gave (s s' : Input) (d : List UInt8) : Prop where
  source : s.source.Gave s'.source d
  heap : s'.heap = s.heap

theorem Input.Gave.trans {s s' s'' : Input} {d d' : List UInt8} (h : s.Gave s' d)
    (h' : s'.Gave s'' d') : s.Gave s'' (d ++ d') :=
  ⟨h.source.trans h'.source, h'.heap.trans h.heap⟩

/-- A transfer returns the bytes that were to come, whatever the cuts. -/
theorem safeReadLoop_run {rounds n : ℕ} (hr : n ≤ rounds) (s : Input) :
    ∃ s', safeReadLoop rounds n s =
      .ok (decide (n ≤ s.source.pending.length), s.source.pending.take n) s' ∧
      s.Gave s' (s.source.pending.take n) := by
  induction rounds generalizing n s with
  | zero =>
    obtain rfl : n = 0 := by omega
    exact ⟨s, by simp [safeReadLoop], Source.Gave.refl _, rfl⟩
  | succ rounds ih =>
    cases n with
    | zero => exact ⟨s, by simp [safeReadLoop], Source.Gave.refl _, rfl⟩
    | succ n =>
      by_cases hs : s.source.pending = []
      · obtain ⟨r, t, hread, hgave, hnil⟩ := Source.read_end (n := n + 1) hs
        have hcall : readCall (n + 1) s = .ok r { s with source := t } := by rw [readCall, hread]
        rw [safeReadLoop, bind_of_ok hcall]
        refine ⟨{ s with source := t }, ?_, by rw [hs]; exact ⟨hgave, rfl⟩⟩
        cases r with
        | none => simp [hs]
        | some d => simp [hs, hnil d rfl]
      · obtain ⟨d, t, hread, hgave, hne, hlen⟩ := Source.read_some (Nat.succ_pos n) hs
        have hcall : readCall (n + 1) s = .ok (some d) { s with source := t } := by
          rw [readCall, hread]
        have hpos := List.length_pos_iff.mpr hne
        have hfirst : s.Gave { s with source := t } d := ⟨hgave, rfl⟩
        obtain ⟨s', hrec, hgave'⟩ := ih (n := n + 1 - d.length) (by omega) { s with source := t }
        simp only at hrec hgave'
        have htake : s.source.pending.take (n + 1) = d ++ t.pending.take (n + 1 - d.length) := by
          rw [hgave.pending, List.take_append, List.take_of_length_le hlen]
        refine ⟨s', ?_, ?_⟩
        · rw [safeReadLoop, bind_of_ok hcall]
          simp only [hne, if_false]
          rw [bind_of_ok hrec, pure_run, htake, hgave.pending, List.length_append]
          congr 3
          rw [decide_eq_decide]
          omega
        · rw [htake]
          exact hfirst.trans hgave'

theorem safeRead_run (n : ℕ) (s : Input) :
    ∃ s', safeRead n s = .ok (decide (n ≤ s.source.pending.length), s.source.pending.take n) s' ∧
      s.Gave s' (s.source.pending.take n) := safeReadLoop_run (Nat.le_refl n) s

/-- With enough bytes to come a transfer gets them. -/
theorem safeRead_of_pending {s : Input} {d rest : List UInt8} (h : s.source.pending = d ++ rest) :
    ∃ s', safeRead d.length s = .ok (true, d) s' ∧ s.Gave s' d ∧ s'.source.pending = rest := by
  obtain ⟨s', hrun, hgave⟩ := safeRead_run d.length s
  rw [h, List.take_left, List.length_append, decide_eq_true (Nat.le_add_right _ _)] at hrun
  rw [h, List.take_left] at hgave
  refine ⟨s', hrun, hgave, ?_⟩
  have hp := hgave.source.pending
  rw [h] at hp
  exact (List.append_cancel_left hp).symm

/-- The program offers the bytes `d`: it takes as many as fit and tells whether
these were all. -/
def Sends (x : OutM Bool) (d : List UInt8) : Prop :=
  ∀ s, ∃ s', x s = .ok (decide (s.fit d.length = d.length)) s' ∧ s.Took s' (d.take (s.fit d.length))

theorem fit_nil (s : Sink UInt8) : s.fit ([] : List UInt8).length = 0 :=
  Nat.le_zero.mp (s.fit_le 0)

theorem sends_nil : Sends (pure true) [] := fun s =>
  ⟨s, by rw [fit_nil]; rfl, by rw [List.take_nil]; exact Sink.Took.refl s⟩

/-- A part that was not taken in full ends the message. -/
theorem Sends.seq {x y : OutM Bool} {d d' : List UInt8} (hx : Sends x d) (hy : Sends y d') :
    Sends (do
      let ok ← x
      if ok then y else pure false) (d ++ d') := by
  intro s
  obtain ⟨t, hrun, htook⟩ := hx s
  have hle := s.fit_le d.length
  by_cases hfit : s.fit d.length = d.length
  · rw [hfit, List.take_length] at htook
    obtain ⟨s', hrun', htook'⟩ := hy t
    have hsum := htook.fit_eq d'.length
    refine ⟨s', ?_, ?_⟩
    · rw [bind_of_ok hrun, decide_eq_true hfit, if_pos rfl, hrun', List.length_append, hsum]
      congr 1
      rw [decide_eq_decide]
      omega
    · rw [List.length_append, hsum, List.take_length_add_append]
      exact htook.trans htook'
  · have hall : s.fit (d ++ d').length = s.fit d.length := by
      rw [List.length_append]
      cases hr : s.room with
      | none => exact absurd (by simp [Sink.fit, hr]) hfit
      | some r =>
        simp only [Sink.fit, hr, Option.elim] at hfit hle ⊢
        omega
    refine ⟨t, ?_, ?_⟩
    · rw [bind_of_ok hrun, decide_eq_false hfit, if_neg (by simp), pure_run, hall,
        List.length_append]
      congr 1
      rw [eq_comm, decide_eq_false_iff_not]
      omega
    · rw [hall, List.take_append_of_le_length hle]
      exact htook

theorem safeWriteLoop_sends {rounds : ℕ} {d : List UInt8} (hr : d.length ≤ rounds) :
    Sends (safeWriteLoop rounds d) d := by
  induction rounds generalizing d with
  | zero =>
    obtain rfl : d = [] := List.eq_nil_of_length_eq_zero (by omega)
    exact sends_nil
  | succ rounds ih =>
    cases d with
    | nil => exact sends_nil
    | cons b d =>
      intro s
      by_cases hroom : s.room = some 0
      · have hcall : writeCall (b :: d) s = .ok none s := by simp [writeCall, Sink.write, hroom]
        have hfit : s.fit (b :: d).length = 0 := by simp [Sink.fit, hroom]
        refine ⟨s, ?_, ?_⟩
        · rw [safeWriteLoop, bind_of_ok hcall, hfit]
          rfl
        · rw [hfit, List.take_zero]
          exact Sink.Took.refl s
      · obtain ⟨k, t, hwrite, htook, hk, hlen⟩ := Sink.write_some (List.cons_ne_nil b d) hroom
        have hcall : writeCall (b :: d) s = .ok (some k) t := by rw [writeCall, hwrite]
        have hl : (b :: d).length = d.length + 1 := List.length_cons
        obtain ⟨s', hrun, htook'⟩ := ih (d := (b :: d).drop k)
          (by rw [List.length_drop]; omega) t
        have hsum := htook.fit_eq ((b :: d).drop k).length
        rw [List.length_take, Nat.min_eq_left hlen, List.length_drop, Nat.add_sub_cancel' hlen] at hsum
        rw [List.length_drop] at hrun htook'
        refine ⟨s', ?_, ?_⟩
        · rw [safeWriteLoop, bind_of_ok hcall]
          simp only
          rw [hrun, hsum]
          congr 1
          rw [decide_eq_decide]
          omega
        · rw [hsum, List.take_add]
          exact htook.trans htook'

theorem safeWrite_sends (d : List UInt8) : Sends (safeWrite d) d :=
  safeWriteLoop_sends (Nat.le_refl _)

/-- On a connection without a limit everything is taken. -/
theorem Sends.run_open {x : OutM Bool} {d : List UInt8} (hx : Sends x d) {s : Sink UInt8}
    (hs : s.room = none) :
    ∃ s', x s = .ok true s' ∧ s'.accepted = s.accepted ++ d ∧ s'.room = none := by
  obtain ⟨s', hrun, htook⟩ := hx s
  have hfit : s.fit d.length = d.length := by simp [Sink.fit, hs]
  rw [hfit] at htook hrun
  rw [List.take_length] at htook
  exact ⟨s', by rw [hrun]; simp, htook.accepted, by rw [htook.room, hs]; rfl⟩

end KisLinux.Net
