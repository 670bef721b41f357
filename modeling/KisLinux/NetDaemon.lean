import KisLinux.EventRun
import KisLinux.NetConversation

/-!
# The daemon

Every connection is served by a thread of its own. The threads share the image,
the flag `error_intercepted` and the mutex; whatever else they work on is theirs.
An operation runs with the mutex held, so that it is one step here. A thread ends
by returning from `serve_client` or by `pthread_exit` in `fsop_error`. The handler for
`SIGSEGV` is never installed: `sigaction` gets the action where it stores the old one.
A fault, like the `SIGPIPE` of a write to a closed connection, ends the whole process.
-/
namespace KisLinux.Net
open ByteMemory StateRun ShortTransfer EventRun Fs

/-- Where the thread of a connection is. -/
inductive Stage
  | reading
  /-- In front of `pthread_mutex_lock`. -/
  | waiting (op : NetFsOperation)
  | locked (op : NetFsOperation)
  /-- `process_operation` has returned. -/
  | operated (op : NetFsOperation)
  /-- `fsop_error` has reported, and not unlocked the mutex yet. -/
  | failed
  /-- In front of `_FSOP_clear`. -/
  | clearing (op : NetFsOperation)
  | closing
  | freeing
  /-- In front of `pthread_exit`. -/
  | exiting
  | ended

/-- The thread is between `pthread_mutex_lock` and `pthread_mutex_unlock`. -/
def Stage.inside : Stage → Bool
  | .locked _ => true
  | .operated _ => true
  | .failed => true
  | _ => false

/-- A connection, its thread, and its `ServeClientRequest`. -/
structure Connection where
  stage : Stage
  input : Input
  output : Sink UInt8
  sockOpen : Bool
  requestLive : Bool

structure Daemon where
  image : Image
  errorIntercepted : Bool
  mutex : Option ℕ
  connections : List Connection
  /-- No signal has ended the process. -/
  running : Bool

inductive Action
  /-- `slz_NetFsOperation_read` into stack memory that holds `old`. -/
  | read (old : List UInt8)
  | lock
  | operate
  | unlock
  | clear
  | close
  | free
  | exit
  deriving DecidableEq, Repr

inductive DaemonEvent
  | accept (input : Input) (output : Sink UInt8)
  | act (i : ℕ) (a : Action)
  /-- A signal that the operation of the connection `i` raises. -/
  | signal (i : ℕ)

def Daemon.put (s : Daemon) (i : ℕ) (c : Connection) : Daemon :=
  { s with connections := s.connections.set i c }

/-- What the thread of `c` and the image look like to the operation. -/
def Daemon.server (s : Daemon) (c : Connection) : Server :=
  ⟨s.image, c.input, c.output, s.errorIntercepted⟩

/-- The daemon after an operation of the connection `i`. -/
def Daemon.operated (s : Daemon) (i : ℕ) (c : Connection) (t : Server) (stage : Stage) : Daemon :=
  { s with image := t.image, errorIntercepted := t.errorIntercepted }.put i
    { c with input := t.input, output := t.output, stage := stage }

/-- One step of `serve_client`, `serve_next_operation` or `fsop_error` in the thread of
the connection `c`. -/
def threadStep (fuel : ℕ) (fds : FsDescriptors) (s : Daemon) (i : ℕ) (c : Connection) :
    Action → Option Daemon
  | .read old =>
    match c.stage, slzNetFsOperationRead old c.input with
    | .reading, .ok r input =>
      some (s.put i { c with input := input, stage := if r.1 then .waiting r.2 else .closing })
    | _, _ => none
  | .lock =>
    match c.stage, s.mutex with
    | .waiting op, none => some ({ s with mutex := some i }.put i { c with stage := .locked op })
    | _, _ => none
  | .operate =>
    match c.stage with
    | .locked op =>
      match dispatch fuel fds op (s.server c) with
      | .ok _ t => some (s.operated i c t (.operated op))
      | .error (.die _) t => some (s.operated i c t .failed)
      | .error _ _ => none
    | _ => none
  | .unlock =>
    match c.stage with
    | .operated op => some ({ s with mutex := none }.put i { c with stage := .clearing op })
    | .failed => some ({ s with mutex := none }.put i { c with stage := .exiting })
    | _ => none
  | .clear =>
    match c.stage with
    | .clearing _ => some (s.put i { c with stage := .reading })
    | _ => none
  | .close =>
    match c.stage with
    | .closing => some (s.put i { c with stage := .freeing, sockOpen := false })
    | _ => none
  | .free =>
    match c.stage with
    | .freeing => some (s.put i { c with stage := .ended, requestLive := false })
    | _ => none
  | .exit =>
    match c.stage with
    | .exiting => some (s.put i { c with stage := .ended })
    | _ => none

/-- The end of the process, which closes all sockets and gives all memory back. -/
def Daemon.killed (s : Daemon) : Daemon :=
  { s with
    mutex := none
    connections := s.connections.map fun c =>
      { c with stage := .ended, sockOpen := false, requestLive := false }
    running := false }

/-- The signal of an operation; where the code leaves all objects the model stops, and
to end the process is what the code may do there. -/
def signalStep (fuel : ℕ) (fds : FsDescriptors) (s : Daemon) (i : ℕ) (c : Connection) :
    Option Daemon :=
  match c.stage with
  | .locked op =>
    match dispatch fuel fds op (s.server c) with
    | .error .fault t => some (s.operated i c t c.stage).killed
    | _ => none
  | _ => none

def daemonStep (fuel : ℕ) (fds : FsDescriptors) (s : Daemon) : DaemonEvent → Option Daemon
  | .accept input output =>
    if s.running then
      some { s with connections := s.connections ++ [⟨.reading, input, output, true, true⟩] }
    else none
  | .act i a => s.connections[i]?.bind fun c => threadStep fuel fds s i c a
  | .signal i => s.connections[i]?.bind fun c => signalStep fuel fds s i c

/-- The daemon before the first connection. -/
def Daemon.initial (image : Image) : Daemon := ⟨image, false, none, [], true⟩

/-- The operation that connection `i` is about to run ends in `die` or `die_fatal`. -/
def OperationDies (fuel : ℕ) (fds : FsDescriptors) (s : Daemon) (i : ℕ) : Prop :=
  ∃ c op e t, s.connections[i]? = some c ∧ c.stage = .locked op ∧
    dispatch fuel fds op (s.server c) = .error (.die e) t

section Steps

variable {fuel : ℕ} {fds : FsDescriptors} {s s' : Daemon} {i : ℕ} {c : Connection} {a : Action}

/-- What the thread still has to give back, by the place where it is. A thread
that ended holds both things or none. -/
def Connection.Sound (c : Connection) : Prop :=
  match c.stage with
  | .freeing => c.sockOpen = false ∧ c.requestLive = true
  | .ended => c.sockOpen = c.requestLive
  | _ => c.sockOpen = true ∧ c.requestLive = true

/-- The thread ends, or ended, in `fsop_error`. -/
def Connection.doomed (c : Connection) : Bool :=
  match c.stage with
  | .failed => true
  | .exiting => true
  | .ended => c.sockOpen
  | _ => false

/-- How a step of a thread changes who holds the mutex. -/
inductive MutexStep (i : ℕ) : Option ℕ → Bool → Option ℕ → Bool → Prop
  | keep (m : Option ℕ) (inside : Bool) : MutexStep i m inside m inside
  | lock : MutexStep i none false (some i) true
  | unlock (m : Option ℕ) : MutexStep i m true none false

/-- The step of a thread. -/
structure Moved (fuel : ℕ) (fds : FsDescriptors) (s s' : Daemon) (i : ℕ) (c : Connection) (a : Action)
    (c' : Connection) : Prop where
  connections : s'.connections = s.connections.set i c'
  running : s'.running = s.running
  mutex : MutexStep i s.mutex c.stage.inside s'.mutex c'.stage.inside
  sound : c'.Sound
  doomed : c'.doomed = true ↔ c.doomed = true ∨ a = .operate ∧ OperationDies fuel fds s i

/-- A step that is not an operation. -/
theorem Moved.of_ne {c' : Connection} (hconn : s'.connections = s.connections.set i c')
    (hrunning : s'.running = s.running)
    (hmutex : MutexStep i s.mutex c.stage.inside s'.mutex c'.stage.inside) (hsound : c'.Sound)
    (hdoomed : c'.doomed = c.doomed) (ha : a ≠ .operate) : Moved fuel fds s s' i c a c' :=
  ⟨hconn, hrunning, hmutex, hsound, by simp [hdoomed, ha]⟩

theorem operate_moved {op : NetFsOperation} (hc : s.connections[i]? = some c)
    (hstage : c.stage = .locked op) (hs : c.Sound)
    (h : threadStep fuel fds s i c .operate = some s') : ∃ c', Moved fuel fds s s' i c .operate c' := by
  have hopen : c.sockOpen = true ∧ c.requestLive = true := by simpa [Connection.Sound, hstage] using hs
  have hnot : c.doomed = false := by simp [Connection.doomed, hstage]
  have hdies : OperationDies fuel fds s i ↔
      ∃ e t, dispatch fuel fds op (s.server c) = .error (.die e) t := by
    constructor
    · rintro ⟨c', op', e, t, hc', hstage', hrun⟩
      obtain rfl := Option.some.inj (hc.symm.trans hc')
      obtain rfl := Stage.locked.inj (hstage.symm.trans hstage')
      exact ⟨e, t, hrun⟩
    · rintro ⟨e, t, hrun⟩
      exact ⟨c, op, e, t, hc, hstage, hrun⟩
  simp only [threadStep, hstage] at h
  split at h
  · next t hrun =>
    obtain rfl := Option.some.inj h
    refine ⟨_, rfl, rfl, ?_, hopen, ?_⟩
    · rw [hstage]
      exact .keep _ _
    · rw [hnot, hdies, hrun]
      simp [Connection.doomed]
  · next e t hrun =>
    obtain rfl := Option.some.inj h
    refine ⟨_, rfl, rfl, ?_, hopen, ?_⟩
    · rw [hstage]
      exact .keep _ _
    · rw [hnot, hdies, hrun]
      simp [Connection.doomed]
  · cases h

theorem threadStep_moved (hc : s.connections[i]? = some c) (hs : c.Sound)
    (h : threadStep fuel fds s i c a = some s') : ∃ c', Moved fuel fds s s' i c a c' := by
  cases a with
  | operate =>
    cases hstage : c.stage with
    | locked op => exact operate_moved hc hstage hs h
    | _ =>
      rw [threadStep, hstage] at h
      cases h
  | read old =>
    cases c with
    | mk stage input output sockOpen requestLive =>
    simp only [threadStep] at h
    split at h
    · next r input' hread =>
      obtain rfl := Option.some.inj h
      obtain ⟨more, op⟩ := r
      cases more with
      | true => exact ⟨_, .of_ne rfl rfl (.keep _ _) hs rfl (by simp)⟩
      | false => exact ⟨_, .of_ne rfl rfl (.keep _ _) hs rfl (by simp)⟩
    · cases h
  | lock =>
    cases c with
    | mk stage input output sockOpen requestLive =>
    simp only [threadStep] at h
    split at h
    · next op hmutex =>
      obtain rfl := Option.some.inj h
      refine ⟨_, .of_ne rfl rfl ?_ hs rfl (by simp)⟩
      rw [hmutex]
      exact .lock
    · cases h
  | unlock =>
    cases c with
    | mk stage input output sockOpen requestLive =>
    simp only [threadStep] at h
    split at h
    · obtain rfl := Option.some.inj h
      exact ⟨_, .of_ne rfl rfl (.unlock _) hs rfl (by simp)⟩
    · obtain rfl := Option.some.inj h
      exact ⟨_, .of_ne rfl rfl (.unlock _) hs rfl (by simp)⟩
    · cases h
  | clear =>
    cases c with
    | mk stage input output sockOpen requestLive =>
    simp only [threadStep] at h
    split at h
    · obtain rfl := Option.some.inj h
      exact ⟨_, .of_ne rfl rfl (.keep _ _) hs rfl (by simp)⟩
    · cases h
  | close =>
    cases c with
    | mk stage input output sockOpen requestLive =>
    simp only [threadStep] at h
    split at h
    · obtain rfl := Option.some.inj h
      exact ⟨_, .of_ne rfl rfl (.keep _ _) ⟨rfl, hs.2⟩ rfl (by simp)⟩
    · cases h
  | free =>
    cases c with
    | mk stage input output sockOpen requestLive =>
    simp only [threadStep] at h
    split at h
    · obtain rfl := Option.some.inj h
      obtain ⟨rfl, rfl⟩ : sockOpen = false ∧ requestLive = true := hs
      exact ⟨_, .of_ne rfl rfl (.keep _ _) rfl rfl (by simp)⟩
    · cases h
  | exit =>
    cases c with
    | mk stage input output sockOpen requestLive =>
    simp only [threadStep] at h
    split at h
    · obtain rfl := Option.some.inj h
      obtain ⟨rfl, rfl⟩ : sockOpen = true ∧ requestLive = true := hs
      exact ⟨_, .of_ne rfl rfl (.keep _ _) rfl rfl (by simp)⟩
    · cases h

end Steps

/-! ## Runs -/

/-- The thread of the connection `i` is between lock and unlock. -/
def Daemon.Inside (s : Daemon) (i : ℕ) : Prop :=
  ∃ c, s.connections[i]? = some c ∧ c.stage.inside = true

structure Daemon.Sound (s : Daemon) : Prop where
  holder : ∀ i, s.mutex = some i ↔ s.Inside i
  connections : ∀ c ∈ s.connections, c.Sound

section Runs

variable {fuel : ℕ} {fds : FsDescriptors} {s s' : Daemon} {i j : ℕ} {c c' : Connection} {a : Action}
  {image : Image} {es : List DaemonEvent} {e : DaemonEvent}

theorem Moved.lookup (h : Moved fuel fds s s' i c a c') (hc : s.connections[i]? = some c) (j : ℕ) :
    s'.connections[j]? = if j = i then some c' else s.connections[j]? := by
  have hlt : i < s.connections.length := (List.getElem?_eq_some_iff.mp hc).1
  rw [h.connections, List.getElem?_set]
  by_cases hji : j = i
  · subst hji
    simp [hlt]
  · simp [hji, Ne.symm hji]

theorem Moved.inside_of_ne (h : Moved fuel fds s s' i c a c') (hc : s.connections[i]? = some c)
    (hne : j ≠ i) : s'.Inside j ↔ s.Inside j := by
  simp only [Daemon.Inside, h.lookup hc, hne, if_false]

theorem Moved.inside_self (h : Moved fuel fds s s' i c a c') (hc : s.connections[i]? = some c) :
    s'.Inside i ↔ c'.stage.inside = true := by
  simp [Daemon.Inside, h.lookup hc]

/-- The mutex still tells which thread is inside. -/
theorem Moved.holder (h : Moved fuel fds s s' i c a c') (hc : s.connections[i]? = some c)
    (hs : s.Sound) (j : ℕ) : s'.mutex = some j ↔ s'.Inside j := by
  have hself : s.Inside i ↔ c.stage.inside = true := by simp [Daemon.Inside, hc]
  have holderi := hs.holder i
  have holderj := hs.holder j
  have hmutex := h.mutex
  by_cases hji : j = i
  · subst hji
    rw [h.inside_self hc]
    rw [hself] at holderi
    generalize s.mutex = m, c.stage.inside = b, s'.mutex = m', c'.stage.inside = b' at *
    cases hmutex with
    | keep => exact holderi
    | lock => simp
    | unlock => simp
  · rw [h.inside_of_ne hc hji, ← holderj]
    rw [hself] at holderi
    generalize s.mutex = m, c.stage.inside = b, s'.mutex = m', c'.stage.inside = b' at *
    cases hmutex with
    | keep => exact Iff.rfl
    | lock => simp [Ne.symm hji]
    | unlock =>
      rw [holderi.mpr rfl]
      simp [Ne.symm hji]

theorem Moved.daemon_sound (h : Moved fuel fds s s' i c a c') (hc : s.connections[i]? = some c)
    (hs : s.Sound) : s'.Sound where
  holder := h.holder hc hs
  connections := by
    intro d hd
    rw [h.connections] at hd
    rcases List.mem_or_eq_of_mem_set hd with hd | rfl
    · exact hs.connections d hd
    · exact h.sound

/-- A step of the daemon is a new connection, a step of one thread, or the end of all. -/
theorem daemonStep_cases (hs : s.Sound) (h : daemonStep fuel fds s e = some s') :
    (∃ input output, e = .accept input output ∧ s.running = true ∧
      s' = { s with connections := s.connections ++ [⟨.reading, input, output, true, true⟩] }) ∨
    (∃ i a c c', e = .act i a ∧ s.connections[i]? = some c ∧ Moved fuel fds s s' i c a c') ∨
    ∃ i c t, e = .signal i ∧ s.connections[i]? = some c ∧ s' = (s.operated i c t c.stage).killed := by
  cases e with
  | accept input output =>
    simp only [daemonStep] at h
    split at h
    · next hrunning => exact Or.inl ⟨input, output, rfl, hrunning, (Option.some.inj h).symm⟩
    · cases h
  | act i a =>
    obtain ⟨c, hc, hstep⟩ := Option.bind_eq_some_iff.mp h
    have hsound := hs.connections c (List.mem_of_getElem? hc)
    obtain ⟨c', hmoved⟩ := threadStep_moved hc hsound hstep
    exact Or.inr (Or.inl ⟨i, a, c, c', rfl, hc, hmoved⟩)
  | signal i =>
    obtain ⟨c, hc, hstep⟩ := Option.bind_eq_some_iff.mp h
    simp only [signalStep] at hstep
    split at hstep
    · split at hstep
      · next t _ => exact Or.inr (Or.inr ⟨i, c, t, rfl, hc, (Option.some.inj hstep).symm⟩)
      · cases hstep
    · cases hstep

/-- A new connection is not among those with a property that it lacks. -/
theorem accept_iff {P : Connection → Prop} (hc : ¬ P c) (l : List Connection) (i : ℕ) :
    (∃ d, (l ++ [c])[i]? = some d ∧ P d) ↔ ∃ d, l[i]? = some d ∧ P d := by
  constructor
  · rintro ⟨d, hd, hP⟩
    rcases Nat.lt_or_ge i l.length with hlt | hge
    · rw [List.getElem?_append_left hlt] at hd
      exact ⟨d, hd, hP⟩
    · rw [List.getElem?_append_right hge] at hd
      obtain rfl := List.mem_singleton.mp (List.mem_of_getElem? hd)
      exact absurd hP hc
  · rintro ⟨d, hd, hP⟩
    have hlt := (List.getElem?_eq_some_iff.mp hd).1
    exact ⟨d, by rwa [List.getElem?_append_left hlt], hP⟩

/-- What is left of a process. -/
theorem killed_connection (hc : s.killed.connections[i]? = some c) :
    c.stage = .ended ∧ c.sockOpen = false ∧ c.requestLive = false := by
  simp only [Daemon.killed, List.getElem?_map] at hc
  obtain ⟨d, -, rfl⟩ := Option.map_eq_some_iff.mp hc
  exact ⟨rfl, rfl, rfl⟩

theorem killed_sound (s : Daemon) : s.killed.Sound where
  holder j := by
    refine iff_of_false (by simp [Daemon.killed]) ?_
    rintro ⟨c, hc, hinside⟩
    rw [(killed_connection hc).1] at hinside
    cases hinside
  connections := by
    intro c hc
    obtain ⟨j, hj⟩ := List.getElem?_of_mem hc
    obtain ⟨hstage, hsock, hreq⟩ := killed_connection hj
    simp [Connection.Sound, hstage, hsock, hreq]

theorem daemonStep_sound (hs : s.Sound) (h : daemonStep fuel fds s e = some s') : s'.Sound := by
  rcases daemonStep_cases hs h with ⟨input, output, -, -, rfl⟩ | ⟨i, a, c, c', -, hc, hmoved⟩ |
    ⟨i, c, t, -, -, rfl⟩
  · refine ⟨fun j => ?_, fun d hd => ?_⟩
    · exact (hs.holder j).trans (accept_iff (P := fun d => d.stage.inside = true) (by simp [Stage.inside])
        s.connections j).symm
    · rcases List.mem_append.mp hd with hd | hd
      · exact hs.connections d hd
      · obtain rfl := List.mem_singleton.mp hd
        exact ⟨rfl, rfl⟩
  · exact hmoved.daemon_sound hc hs
  · exact killed_sound _

theorem initial_sound (image : Image) : (Daemon.initial image).Sound :=
  ⟨fun i => ⟨fun h => (by cases h), fun ⟨c, hc, _⟩ => by simp [Daemon.initial] at hc⟩,
    fun c hc => absurd hc List.not_mem_nil⟩

/-- An operation of connection `i` ended in `die` or `die_fatal` in the run. -/
def DiedIn (fuel : ℕ) (fds : FsDescriptors) (image : Image) (es : List DaemonEvent) (i : ℕ) : Prop :=
  HappenedIn (daemonStep fuel fds) (OperationDies fuel fds · i) (.act i .operate) (.initial image) es

/-- The thread of the connection `i` is on its way through `fsop_error`, or has gone it. -/
def Daemon.Doomed (s : Daemon) (i : ℕ) : Prop := ∃ c, s.connections[i]? = some c ∧ c.doomed = true

/-- What a run has led to: every thread that died has left its things behind, or the
process has ended and nothing is left. -/
structure Accounted (fuel : ℕ) (fds : FsDescriptors) (image : Image) (es : List DaemonEvent)
    (s : Daemon) : Prop where
  sound : s.Sound
  doomed : s.running = true → ∀ i : ℕ, s.Doomed i ↔ DiedIn fuel fds image es i
  signals : s.running = true → ∀ j : ℕ, .signal j ∉ es
  killed : s.running = false → (∃ j : ℕ, .signal j ∈ es) ∧
    ∀ (i : ℕ) (c : Connection), s.connections[i]? = some c →
      c.stage = .ended ∧ c.sockOpen = false ∧ c.requestLive = false

theorem initial_accounted (fuel : ℕ) (fds : FsDescriptors) (image : Image) :
    Accounted fuel fds image [] (.initial image) where
  sound := initial_sound image
  doomed := fun _ i =>
    iff_of_false (fun ⟨c, hc, _⟩ => by simp [Daemon.initial] at hc) not_happenedIn_nil
  signals := fun _ j => List.not_mem_nil
  killed := fun h => by cases h

/-- Behind the end of the process nothing happens. -/
theorem Accounted.running (h : Accounted fuel fds image es s) (hstep : daemonStep fuel fds s e = some s') :
    s.running = true := by
  by_contra hnot
  obtain ⟨-, hended⟩ := h.killed (Bool.eq_false_of_not_eq_true hnot)
  cases e with
  | accept input output =>
    rw [daemonStep, if_neg hnot] at hstep
    cases hstep
  | act i a =>
    obtain ⟨c, hc, hthread⟩ := Option.bind_eq_some_iff.mp hstep
    have hstage := (hended i c hc).1
    cases a <;> simp [threadStep, hstage] at hthread
  | signal i =>
    obtain ⟨c, hc, hsignal⟩ := Option.bind_eq_some_iff.mp hstep
    simp [signalStep, (hended i c hc).1] at hsignal

theorem Accounted.step (h : Accounted fuel fds image es s)
    (hrun : run (daemonStep fuel fds) (.initial image) es = some s)
    (hstep : daemonStep fuel fds s e = some s') : Accounted fuel fds image (es ++ [e]) s' := by
  have hrunning := h.running hstep
  have hdoomed := h.doomed hrunning
  have hsignals := h.signals hrunning
  have hsound := daemonStep_sound h.sound hstep
  rcases daemonStep_cases h.sound hstep with ⟨input, output, rfl, -, rfl⟩ |
    ⟨i, a, c, c', rfl, hc, hmoved⟩ | ⟨i, c, t, rfl, -, rfl⟩
  · refine ⟨hsound, fun _ j => ?_, fun _ j => ?_, fun hnot => ?_⟩
    · rw [DiedIn, happenedIn_snoc hrun, ← DiedIn, ← hdoomed]
      simp only [reduceCtorEq, false_and, or_false]
      exact accept_iff (P := fun d => d.doomed = true) (by simp [Connection.doomed]) s.connections j
    · simpa using hsignals j
    · cases hrunning.symm.trans hnot
  · have hstill : s'.running = true := hmoved.running.trans hrunning
    refine ⟨hsound, fun _ j => ?_, fun _ j => ?_, fun hnot => ?_⟩
    · rw [DiedIn, happenedIn_snoc hrun, ← DiedIn, ← hdoomed]
      by_cases hji : j = i
      · subst hji
        have hnew : s'.Doomed j ↔ c'.doomed = true := by simp [Daemon.Doomed, hmoved.lookup hc]
        have hold : s.Doomed j ↔ c.doomed = true := by simp [Daemon.Doomed, hc]
        rw [hnew, hmoved.doomed, hold]
        simp
      · have hother : s'.Doomed j ↔ s.Doomed j := by simp [Daemon.Doomed, hmoved.lookup hc, hji]
        rw [hother]
        simp [Ne.symm hji]
    · simpa using hsignals j
    · cases hstill.symm.trans hnot
  · refine ⟨hsound, fun hnot => ?_, fun hnot => ?_, fun _ => ⟨⟨i, by simp⟩, fun j d hd => ?_⟩⟩
    · cases hnot
    · cases hnot
    · exact killed_connection hd

theorem accounted_run (hrun : run (daemonStep fuel fds) (.initial image) es = some s) :
    Accounted fuel fds image es s :=
  run_induction (motive := Accounted fuel fds image) (initial_accounted fuel fds image)
    (fun _ _ _ _ ht ih hstep => ih.step ht hstep) hrun

/-- The mutex is held by the thread inside, and a thread that ended has cleaned up
exactly when none of its operations died or the whole process has come to its end. -/
theorem daemon_run (hrun : run (daemonStep fuel fds) (.initial image) es = some s) :
    (∀ i, s.mutex = some i ↔ s.Inside i) ∧
    ∀ i c, s.connections[i]? = some c → c.stage = .ended →
      (c.sockOpen = false ∧ c.requestLive = false ↔
        ¬ DiedIn fuel fds image es i ∨ ∃ j, .signal j ∈ es) := by
  have haccounted := accounted_run hrun
  refine ⟨haccounted.sound.holder, fun i c hc hended => ?_⟩
  have hsound := haccounted.sound.connections c (List.mem_of_getElem? hc)
  have hopen : c.sockOpen = c.requestLive := by simpa [Connection.Sound, hended] using hsound
  cases hrunning : s.running with
  | false =>
    obtain ⟨hsignal, hclean⟩ := haccounted.killed hrunning
    exact iff_of_true (hclean i c hc).2 (Or.inr hsignal)
  | true =>
    have hdied : DiedIn fuel fds image es i ↔ c.sockOpen = true := by
      rw [← haccounted.doomed hrunning i]
      simp [Daemon.Doomed, hc, Connection.doomed, hended]
    have hnone : ¬ ∃ j, DaemonEvent.signal j ∈ es := fun ⟨j, hj⟩ => haccounted.signals hrunning j hj
    rw [hdied, ← hopen, or_iff_left hnone]
    simp

end Runs

/-- A client asks for the state of a path without a slash, and the thread goes
through `fsop_error`. The one of another client waits for the mutex in the meantime, has
an operation that does nothing, and returns. -/
def refusedRun : List DaemonEvent :=
  [.accept (byteByByte statWithoutSlash.wire) byteSink,
    .accept (byteByByte (NetFsOperation.other 9).wire) byteSink, .act 0 (.read []), .act 0 .lock,
    .act 1 (.read []), .act 0 .operate, .act 0 .unlock, .act 1 .lock, .act 0 .exit, .act 1 .operate,
    .act 1 .unlock, .act 1 .clear, .act 1 (.read []), .act 1 .close, .act 1 .free]

/-- The thread of the connection `i` has ended, and its things are there as `left` says. -/
def Daemon.endedWith (s : Daemon) (i : ℕ) (left : Bool) : Bool :=
  s.connections[i]?.any fun c =>
    (match c.stage with | .ended => true | _ => false) && c.sockOpen == left && c.requestLive == left

theorem endedWith_spec {s : Daemon} {i : ℕ} {left : Bool} (h : s.endedWith i left = true) :
    ∃ c, s.connections[i]? = some c ∧ c.stage = .ended ∧ c.sockOpen = left ∧ c.requestLive = left := by
  obtain ⟨c, hc, hleft⟩ := (Option.any_eq_true _ _).mp h
  simp only [Bool.and_eq_true, beq_iff_eq] at hleft
  obtain ⟨⟨hstage, hopen⟩, hlive⟩ := hleft
  refine ⟨c, hc, ?_, hopen, hlive⟩
  split at hstage
  · next hended => exact hended
  · cases hstage

theorem refusedRun_ends : ∃ s, run (daemonStep 0 ⟨1⟩) (.initial ⟨fun _ => 0, 0, []⟩) refusedRun = some s ∧
    s.mutex = none ∧ s.endedWith 0 true = true ∧ s.endedWith 1 false = true := by
  have hrun : (run (daemonStep 0 ⟨1⟩) (.initial ⟨fun _ => 0, 0, []⟩) refusedRun).any (fun s =>
      s.mutex == none && s.endedWith 0 true && s.endedWith 1 false) = true := by decide +kernel
  obtain ⟨s, hs, hany⟩ := (Option.any_eq_true _ _).mp hrun
  simp only [Bool.and_eq_true, beq_iff_eq] at hany
  exact ⟨s, hs, hany.1.1, hany.1.2, hany.2⟩

theorem daemon_run_refused : ∃ s,
    run (daemonStep 0 ⟨1⟩) (.initial ⟨fun _ => 0, 0, []⟩) refusedRun = some s ∧ (∀ i, ¬ s.Inside i) ∧
      DiedIn 0 ⟨1⟩ ⟨fun _ => 0, 0, []⟩ refusedRun 0 ∧ ¬ DiedIn 0 ⟨1⟩ ⟨fun _ => 0, 0, []⟩ refusedRun 1 := by
  obtain ⟨s, hrun, hmutex, hrefused, hreturned⟩ := refusedRun_ends
  obtain ⟨hholder, hgiven⟩ := daemon_run hrun
  obtain ⟨c, hc, hended, hopen, -⟩ := endedWith_spec hrefused
  obtain ⟨c', hc', hended', hclosed, hfreed⟩ := endedWith_spec hreturned
  refine ⟨s, hrun, fun i hi => ?_, ?_, fun hdied => ?_⟩
  · cases hmutex.symm.trans ((hholder i).mpr hi)
  · by_contra hdied
    cases hopen.symm.trans ((hgiven 0 c hc hended).mpr (Or.inl hdied)).1
  · rcases (hgiven 1 c' hc' hended').mp ⟨hclosed, hfreed⟩ with hnot | ⟨j, hj⟩
    · exact hnot hdied
    · simp [refusedRun] at hj

/-- The socket stays open, and nobody answers on it. -/
theorem daemon_run_counterexample :
    ¬ ∀ (fuel : ℕ) (fds : FsDescriptors) (image : Image) (es : List DaemonEvent) (s : Daemon),
      run (daemonStep fuel fds) (.initial image) es = some s → ∀ (i : ℕ) (c : Connection),
        s.connections[i]? = some c → c.stage = .ended → c.sockOpen = false ∧ c.requestLive = false := by
  intro hclaim
  obtain ⟨s, hrun, -, hrefused, -⟩ := refusedRun_ends
  obtain ⟨c, hc, hended, hopen, -⟩ := endedWith_spec hrefused
  have hclosed := (hclaim 0 ⟨1⟩ _ refusedRun s hrun 0 c hc hended).1
  rw [hopen] at hclosed
  cases hclosed

end KisLinux.Net
