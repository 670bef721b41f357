import KisLinux.EventRun
import Mathlib.Algebra.BigOperators.Group.List.Basic
import Mathlib.Algebra.Order.Ring.Int
import Mathlib.Data.List.TakeWhile

/-!
# The keystroke statistics module

`keystats` counts keyboard interrupts in an atomic word, and a timer reports the
count once a minute. `first_module_exit` stores a stop marker into the same word.
Interrupt handlers, the timer's `collect_stats` and the exit run as steps of one
event system, so that a run is any interleaving of them.
-/
namespace KisLinux.Keystats
open EventRun

/-- `STOPPED_VALUE`, as the counter holds it. -/
def stoppedValue : BitVec 32 := -(1 <<< 20)

def minute : ℕ := 60

/-- `time_after`: the difference is taken as a signed number. -/
def timeAfter (a b : BitVec 64) : Bool := (b - a).slt 0

/-- The new `tmr->expires`; `hz` is what the kernel was configured with. -/
def reschedule (hz : ℕ) (expires jiffies : BitVec 64) (delaySec : ℕ) : BitVec 64 :=
  let j1 := expires + BitVec.ofNat 64 (delaySec * hz)
  let j2 := jiffies + BitVec.ofNat 64 hz
  if timeAfter j1 j2 then j1 else j2

/-- How far `collect_stats` is; a second call waits for the first one, which runs
on the same processor. -/
inductive Collector
  | idle
  | entered
  | reporting
  | returning
  deriving DecidableEq, Repr

/-- How far `first_module_exit` is. -/
inductive ExitStage
  | loaded
  | freeingIrq
  | irqFreed
  | stopped
  | timerDeleted
  | returned
  deriving DecidableEq, Repr

def ExitStage.rank : ExitStage → ℕ
  | loaded => 0
  | freeingIrq => 1
  | irqFreed => 2
  | stopped => 3
  | timerDeleted => 4
  | returned => 5

/-- `entered` handlers are in front of `atomic_inc`, `leaving` ones behind it. -/
structure State where
  counter : BitVec 32
  entered : ℕ
  leaving : ℕ
  started : Bool
  pending : Bool
  expires : BitVec 64
  jiffies : BitVec 64
  collector : Collector
  exit : ExitStage
  deriving DecidableEq, Repr

/-- `first_module_init` has requested the interrupt, and not armed the timer yet. -/
def State.initial (jiffies : BitVec 64) : State where
  counter := 0
  entered := 0
  leaving := 0
  started := false
  pending := false
  expires := 0
  jiffies := jiffies
  collector := .idle
  exit := .loaded

inductive Event
  | tick
  | irqEnter
  | irqIncrement
  | irqReturn
  /-- The end of `first_module_init`. -/
  | armTimer
  | expire
  /-- The exchange in `collect_stats` and the report of the value it gave. -/
  | collect (value : BitVec 32)
  | rearm
  | collectReturn
  | exitBegin
  | irqFreed
  | storeStopped
  | timerDeleted
  | exitReturn
  deriving DecidableEq, Repr

/-- `reschedule` and `add_timer`. -/
def State.arm (hz : ℕ) (s : State) (expires : BitVec 64) : State :=
  { s with expires := reschedule hz expires s.jiffies minute, pending := true }

/-- `free_irq` returns when no handler runs, and no handler is entered from then
on. `del_timer_sync` waits for `collect_stats` and then takes the timer off the
queue, in one step as far as the timer is concerned. -/
def step (hz : ℕ) (s : State) : Event → Option State
  | .tick => some { s with jiffies := s.jiffies + 1 }
  | .irqEnter =>
    if s.exit = .loaded ∨ s.exit = .freeingIrq then some { s with entered := s.entered + 1 } else none
  | .irqIncrement =>
    if 0 < s.entered then
      some { s with counter := s.counter + 1, entered := s.entered - 1, leaving := s.leaving + 1 }
    else none
  | .irqReturn => if 0 < s.leaving then some { s with leaving := s.leaving - 1 } else none
  | .armTimer => if s.started then none else some { s.arm hz s.jiffies with started := true }
  | .expire =>
    if s.pending ∧ s.collector = .idle ∧ timeAfter s.expires s.jiffies = false then
      some { s with pending := false, collector := .entered }
    else none
  | .collect value =>
    if s.collector = .entered ∧ value = s.counter then
      some { s with counter := 0, collector := if value.slt 0 then .returning else .reporting }
    else none
  | .rearm =>
    if s.collector = .reporting then some { s.arm hz s.expires with collector := .returning } else none
  | .collectReturn => if s.collector = .returning then some { s with collector := .idle } else none
  | .exitBegin => if s.started ∧ s.exit = .loaded then some { s with exit := .freeingIrq } else none
  | .irqFreed =>
    if s.exit = .freeingIrq ∧ s.entered = 0 ∧ s.leaving = 0 then some { s with exit := .irqFreed }
    else none
  | .storeStopped =>
    if s.exit = .irqFreed then some { s with counter := stoppedValue, exit := .stopped } else none
  | .timerDeleted =>
    if s.exit = .stopped ∧ s.collector = .idle then some { s with pending := false, exit := .timerDeleted }
    else none
  | .exitReturn => if s.exit = .timerDeleted then some { s with exit := .returned } else none

/-- What `collect_stats` reported: a negative value is the stop marker to it. -/
def reports : List Event → List ℤ :=
  List.filterMap fun
    | .collect value => if value.slt 0 then none else some value.toInt
    | _ => none

def Event.isCollect : Event → Bool
  | .collect _ => true
  | _ => false

/-- Less than `2 ^ 31` interrupts are counted between two expirations, from one
exchange to the next. -/
def FewInterrupts (es : List Event) : Prop :=
  ∀ l, l <:+: es → (∀ e ∈ l, e.isCollect = false) → l.count .irqIncrement < 2 ^ 31

/-- The interrupts that were counted since the last exchange. -/
def sinceCollect (es : List Event) : ℕ :=
  (es.reverse.takeWhile fun e => !e.isCollect).count .irqIncrement

section Accounting

variable {hz : ℕ} {s t : State} {e : Event} {es : List Event} {j : BitVec 64}

theorem sinceCollect_snoc (es : List Event) (e : Event) : sinceCollect (es ++ [e]) =
    if e.isCollect then 0 else sinceCollect es + [e].count .irqIncrement := by
  rw [sinceCollect, List.reverse_append, List.reverse_singleton, List.singleton_append,
    List.takeWhile_cons]
  cases he : e.isCollect with
  | true => rfl
  | false =>
    simp only [Bool.not_false, if_true, Bool.false_eq_true, if_false, sinceCollect]
    rw [List.count_cons, List.count_singleton]

theorem FewInterrupts.since_lt (h : FewInterrupts es) : sinceCollect es < 2 ^ 31 := by
  have hinfix : (es.reverse.takeWhile fun e => !e.isCollect).reverse <:+: es := by
    rw [← List.reverse_infix, List.reverse_reverse]
    exact (List.takeWhile_prefix _).isInfix
  have hlt := h _ hinfix fun e he => by
    simpa using List.mem_takeWhile_imp (List.mem_reverse.mp he)
  rwa [List.count_reverse] at hlt

theorem FewInterrupts.init (h : FewInterrupts (es ++ [e])) : FewInterrupts es := fun l hl =>
  h l (hl.trans (List.prefix_append es [e]).isInfix)

/-- A count below `2 ^ 31` is what the word says. -/
theorem toInt_ofNat_small {n : ℕ} (h : n < 2 ^ 31) : (BitVec.ofNat 32 n).toInt = n := by
  rw [BitVec.toInt_ofNat', Int.bmod_eq_of_le] <;> omega

theorem slt_ofNat_small {n : ℕ} (h : n < 2 ^ 31) : (BitVec.ofNat 32 n).slt 0 = false := by
  rw [BitVec.slt, toInt_ofNat_small h]
  simp

/-- What was reported and what was counted since are all the interrupts there were. -/
structure Accounts (es : List Event) (s : State) : Prop where
  counter : s.counter = BitVec.ofNat 32 (sinceCollect es)
  total : (reports es).sum + sinceCollect es = es.count .irqIncrement

theorem reports_snoc (es : List Event) (e : Event) : reports (es ++ [e]) = reports es ++ reports [e] :=
  List.filterMap_append

namespace Accounts

theorem initial (j : BitVec 64) : Accounts [] (State.initial j) := ⟨rfl, rfl⟩

/-- Events that have nothing to do with the counter. -/
theorem other (h : Accounts es s) (he : e.isCollect = false) (hne : e ≠ .irqIncrement)
    (hcounter : t.counter = s.counter) : Accounts (es ++ [e]) t := by
  have hsince : sinceCollect (es ++ [e]) = sinceCollect es := by
    rw [sinceCollect_snoc, he, if_neg Bool.false_ne_true, List.count_singleton,
      if_neg (by simpa using hne), Nat.add_zero]
  have hreports : reports [e] = [] := by
    cases e <;> first | rfl | cases he
  refine ⟨by rw [hcounter, hsince, h.counter], ?_⟩
  rw [reports_snoc, hreports, List.append_nil, hsince, h.total, List.count_append,
    List.count_singleton, if_neg (by simpa using hne), Nat.add_zero]

theorem increment (h : Accounts es s) (hcounter : t.counter = s.counter + 1) :
    Accounts (es ++ [.irqIncrement]) t := by
  have hsince : sinceCollect (es ++ [.irqIncrement]) = sinceCollect es + 1 := by
    rw [sinceCollect_snoc, if_neg (by decide), List.count_singleton_self]
  have htotal := h.total
  refine ⟨?_, ?_⟩
  · rw [hcounter, hsince, h.counter, BitVec.ofNat_add]
    rfl
  · rw [reports_snoc, hsince, List.count_append, List.count_singleton_self]
    simp only [reports, List.filterMap_cons, List.filterMap_nil, List.append_nil] at htotal ⊢
    omega

/-- The exchange takes all that was counted, and it is no stop marker. -/
theorem collect (hfew : FewInterrupts es) (h : Accounts es s) (hcounter : t.counter = 0) :
    Accounts (es ++ [.collect s.counter]) t := by
  have hsince : sinceCollect (es ++ [.collect s.counter]) = 0 := by
    rw [sinceCollect_snoc]
    rfl
  have hreports : reports [.collect s.counter] = [(sinceCollect es : ℤ)] := by
    rw [h.counter]
    simp only [reports, List.filterMap_cons, List.filterMap_nil, slt_ofNat_small hfew.since_lt,
      toInt_ofNat_small hfew.since_lt, Bool.false_eq_true, if_false]
  refine ⟨by rw [hcounter, hsince]; rfl, ?_⟩
  rw [reports_snoc, hreports, hsince, List.sum_append, List.sum_singleton, h.total,
    List.count_append, List.count_singleton, if_neg (by simp)]
  simp only [Nat.cast_zero, Int.add_zero, Nat.add_zero]

end Accounts

/-- `first_module_exit` never goes back. -/
theorem step_rank (h : step hz s e = some t) : s.exit.rank ≤ t.exit.rank := by
  cases e <;> simp only [step, Option.ite_none_right_eq_some, Option.ite_none_left_eq_some,
    Option.some.injEq] at h
  case tick =>
    obtain rfl := h
    exact le_rfl
  case exitBegin | irqFreed | storeStopped | timerDeleted | exitReturn =>
    obtain ⟨hguard, rfl⟩ := h
    simp only [hguard, ExitStage.rank]
    decide
  all_goals
    obtain ⟨-, rfl⟩ := h
    exact le_rfl

theorem step_counter (h : step hz s e = some t) (he : e.isCollect = false) (hne : e ≠ .irqIncrement)
    (ht : t.exit.rank < 3) : t.counter = s.counter := by
  cases e <;> simp only [step, Option.ite_none_right_eq_some, Option.ite_none_left_eq_some,
    Option.some.injEq] at h
  case tick =>
    obtain rfl := h
    rfl
  case collect => cases he
  case irqIncrement => exact absurd rfl hne
  case storeStopped =>
    obtain ⟨-, rfl⟩ := h
    exact absurd ht (Nat.lt_irrefl 3)
  all_goals
    obtain ⟨-, rfl⟩ := h
    rfl

theorem Accounts.step (hfew : FewInterrupts es) (h : Accounts es s) (ht : t.exit.rank < 3)
    (hstep : Keystats.step hz s e = some t) : Accounts (es ++ [e]) t := by
  by_cases hcollect : e.isCollect = true
  · cases e with
    | collect value =>
      simp only [Keystats.step, Option.ite_none_right_eq_some, Option.some.injEq] at hstep
      obtain ⟨⟨-, rfl⟩, rfl⟩ := hstep
      exact h.collect hfew rfl
    | _ => cases hcollect
  by_cases hinc : e = .irqIncrement
  · subst hinc
    simp only [Keystats.step, Option.ite_none_right_eq_some, Option.some.injEq] at hstep
    obtain ⟨-, rfl⟩ := hstep
    exact h.increment rfl
  · have he : e.isCollect = false := by simpa using hcollect
    exact h.other he hinc (step_counter hstep he hinc ht)

/-- Until the stop marker is stored, no interrupt is lost or counted twice. -/
theorem accounts_of_run (hrun : run (Keystats.step hz) (.initial j) es = some s)
    (hfew : FewInterrupts es) (hs : s.exit.rank < 3) : Accounts es s :=
  run_induction (motive := fun es s => FewInterrupts es → s.exit.rank < 3 → Accounts es s)
    (fun _ _ => .initial j)
    (fun _ _ _ _ _ ih hstep hfew hu =>
      (ih hfew.init ((step_rank hstep).trans_lt hu)).step hfew.init hu hstep)
    hrun hfew hs

end Accounting

/-! ## Shutdown -/

section Shutdown

variable {hz : ℕ} {s t : State} {e : Event} {es : List Event} {j : BitVec 64}

/-- No handler runs, and the timer will not start one. -/
structure State.Quiet (s : State) : Prop where
  pending : s.pending = false
  collector : s.collector = .idle
  entered : s.entered = 0
  leaving : s.leaving = 0

/-- What has been waited for by the time `first_module_exit` is at a stage. -/
structure Waited (s : State) : Prop where
  init : 1 ≤ s.exit.rank → s.started = true
  irq : 2 ≤ s.exit.rank → s.entered = 0 ∧ s.leaving = 0
  timer : 4 ≤ s.exit.rank → s.pending = false ∧ s.collector = .idle

theorem Waited.initial (j : BitVec 64) : Waited (.initial j) :=
  ⟨fun h => absurd h (Nat.not_succ_le_zero 0), fun _ => ⟨rfl, rfl⟩, fun _ => ⟨rfl, rfl⟩⟩

/-- While handlers are entered, `free_irq` has not returned. -/
theorem Waited.early (hinit : 1 ≤ t.exit.rank → t.started = true) (h : t.exit.rank < 2) :
    Waited t := ⟨hinit, fun _ => by omega, fun _ => by omega⟩

/-- While the timer is armed or running, `del_timer_sync` has not returned. -/
theorem Waited.running (hinit : 1 ≤ t.exit.rank → t.started = true)
    (hirq : 2 ≤ t.exit.rank → t.entered = 0 ∧ t.leaving = 0) (h : t.exit.rank < 4) : Waited t :=
  ⟨hinit, hirq, fun _ => by omega⟩

theorem Waited.step (h : Waited s) (hstep : Keystats.step hz s e = some t) : Waited t := by
  obtain ⟨hinit, hirq, htimer⟩ := h
  cases e <;> simp only [Keystats.step, Option.ite_none_right_eq_some, Option.ite_none_left_eq_some,
    Option.some.injEq] at hstep
  case tick =>
    obtain rfl := hstep
    exact ⟨hinit, hirq, htimer⟩
  case irqEnter =>
    obtain ⟨hguard, rfl⟩ := hstep
    refine .early hinit ?_
    rcases hguard with h | h <;> simp only [h, ExitStage.rank] <;> decide
  case irqIncrement | irqReturn =>
    obtain ⟨hguard, rfl⟩ := hstep
    have hrank : s.exit.rank < 2 := by
      by_contra hr
      have := hirq (by omega)
      omega
    exact .early hinit hrank
  case armTimer =>
    obtain ⟨hguard, rfl⟩ := hstep
    have hrank : s.exit.rank < 1 := by
      by_contra hr
      exact hguard (hinit (by omega))
    exact .early (fun _ => rfl) (hrank.trans (by decide))
  case expire | collect | rearm | collectReturn =>
    obtain ⟨hguard, rfl⟩ := hstep
    have hrank : s.exit.rank < 4 := by
      by_contra hr
      have := htimer (by omega)
      simp_all
    exact .running hinit hirq hrank
  case exitBegin =>
    obtain ⟨⟨hstarted, -⟩, rfl⟩ := hstep
    exact .early (fun _ => hstarted) (show ExitStage.freeingIrq.rank < 2 by decide)
  case irqFreed =>
    obtain ⟨⟨hexit, hidle⟩, rfl⟩ := hstep
    exact .running (fun _ => hinit (by rw [hexit]; decide)) (fun _ => hidle)
      (show ExitStage.irqFreed.rank < 4 by decide)
  case storeStopped =>
    obtain ⟨hexit, rfl⟩ := hstep
    exact .running (fun _ => hinit (by rw [hexit]; decide)) (fun _ => hirq (by rw [hexit]; decide))
      (show ExitStage.stopped.rank < 4 by decide)
  case timerDeleted =>
    obtain ⟨⟨hexit, hidle⟩, rfl⟩ := hstep
    exact ⟨fun _ => hinit (by rw [hexit]; decide), fun _ => hirq (by rw [hexit]; decide),
      fun _ => ⟨rfl, hidle⟩⟩
  case exitReturn =>
    obtain ⟨hexit, rfl⟩ := hstep
    exact ⟨fun _ => hinit (by rw [hexit]; decide), fun _ => hirq (by rw [hexit]; decide),
      fun _ => htimer (by rw [hexit]; decide)⟩

/-- Events that start a handler. -/
def Event.starts : Event → Bool
  | .irqEnter => true
  | .expire => true
  | _ => false

theorem Waited.quiet (h : Waited s) (hs : s.exit = .returned) : s.Quiet := by
  obtain ⟨hentered, hleaving⟩ := h.irq (by rw [hs]; decide)
  obtain ⟨hpending, hcollector⟩ := h.timer (by rw [hs]; decide)
  exact ⟨hpending, hcollector, hentered, hleaving⟩

/-- Once `first_module_exit` has returned, only time passes. -/
theorem Waited.returned (h : Waited s) (hs : s.exit = .returned)
    (hstep : Keystats.step hz s e = some t) : t.exit = .returned ∧ e.starts = false := by
  have hstarted : s.started = true := h.init (by rw [hs]; decide)
  obtain ⟨hpending, hcollector, hentered, hleaving⟩ := h.quiet hs
  cases e <;> simp only [Keystats.step, hs, hstarted, hpending, hcollector, hentered, hleaving,
    reduceCtorEq, or_self, and_false, false_and, Nat.lt_irrefl, Bool.false_eq_true, if_true, if_false,
    Option.some.injEq] at hstep
  case tick =>
    obtain rfl := hstep
    exact ⟨rfl, rfl⟩

/-- The module's accounts hold until the stop marker is stored, and nothing of it
is left running or waiting when `first_module_exit` has returned. -/
theorem keystats_run (hrun : run (Keystats.step hz) (.initial j) es = some s) :
    (FewInterrupts es → s.exit.rank < ExitStage.stopped.rank →
      (reports es).sum + s.counter.toInt = es.count .irqIncrement) ∧
    (s.exit = .returned → s.Quiet ∧ ∀ es' s', run (Keystats.step hz) s es' = some s' →
      s'.Quiet ∧ ∀ e ∈ es', e.starts = false) := by
  refine ⟨fun hfew hs => ?_, fun hs => ?_⟩
  · have h := accounts_of_run hrun hfew hs
    rw [h.counter, toInt_ofNat_small hfew.since_lt, h.total]
  · have hwaited : Waited s :=
      run_invariant (fun _ _ _ ht hstep => ht.step hstep) (.initial j) hrun
    refine ⟨hwaited.quiet hs, fun es' s' hrun' => ?_⟩
    obtain ⟨hs', hwaited', hstarts⟩ := run_induction
      (motive := fun es' s' => s'.exit = .returned ∧ Waited s' ∧ ∀ e ∈ es', e.starts = false)
      ⟨hs, hwaited, fun e he => absurd he List.not_mem_nil⟩
      (fun es t e u _ ⟨ht, hw, hall⟩ hstep => by
        obtain ⟨hu, he⟩ := hw.returned ht hstep
        refine ⟨hu, hw.step hstep, fun e' he' => ?_⟩
        rcases List.mem_append.mp he' with he' | he'
        · exact hall e' he'
        · exact List.mem_singleton.mp he' ▸ he) hrun'
    exact ⟨hwaited'.quiet hs', hstarts⟩

end Shutdown

/-- `collect_stats` reports one interrupt, another one comes, and the timer is armed
again after the stop marker was stored. -/
def rearmedRun : List Event :=
  [.armTimer, .irqEnter, .irqIncrement, .irqReturn] ++ List.replicate 60 .tick ++
    [.expire, .collect 1, .irqEnter, .irqIncrement, .irqReturn, .exitBegin, .irqFreed, .storeStopped,
      .rearm, .collectReturn, .timerDeleted, .exitReturn]

/-- Behind the second interrupt one is reported and one is in the counter. -/
theorem keystats_run_rearmed : ∃ s t, run (step 1) (.initial 0) (rearmedRun.take 69) = some s ∧
    (reports (rearmedRun.take 69)).sum + s.counter.toInt = 2 ∧
    run (step 1) (.initial 0) rearmedRun = some t ∧ t.Quiet := by
  have hpart : (run (step 1) (.initial 0) (rearmedRun.take 69)).any
      (fun s => s.exit.rank < ExitStage.stopped.rank) = true := by decide +kernel
  obtain ⟨s, hs, hrank⟩ := (Option.any_eq_true _ _).mp hpart
  have hfew : FewInterrupts (rearmedRun.take 69) := fun l hl _ =>
    (hl.sublist.count_le _).trans_lt (by decide)
  have hrun : run (step 1) (.initial 0) rearmedRun =
      some ⟨stoppedValue, 0, 0, true, false, 120, 60, .idle, .returned⟩ := by decide +kernel
  exact ⟨s, _, hs, (keystats_run hs).1 hfew (of_decide_eq_true hrank), hrun, ((keystats_run hrun).2 rfl).1⟩

end KisLinux.Keystats
