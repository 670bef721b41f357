import KisLinux.NetDaemon
import KisLinux.Pieces

/-!
# Operations in pieces

An operation is many calls, and while one thread is between two of them all other
threads go on. Here every thread carries what is left of its operation, and only
the mutex keeps threads apart. A run of this daemon is one of the daemon whose
operations are single steps, however the operations are cut into pieces, and also where
a signal ends the process between two of them.
-/
namespace KisLinux.Net
open ByteMemory StateRun ShortTransfer EventRun Fs

/-- `left i` is what the thread of connection `i` still has to do of its operation. -/
structure FineDaemon where
  daemon : Daemon
  left : ℕ → Option (Pieces Stop Server)

inductive FineEvent
  /-- A step outside of `process_operation`. -/
  | outside (e : DaemonEvent)
  | start (i : ℕ)
  | piece (i : ℕ)
  | finish (i : ℕ)

def FineDaemon.initial (image : Image) : FineDaemon := ⟨.initial image, fun _ => none⟩

section Steps

variable (fuel : ℕ) (fds : FsDescriptors) (parts : NetFsOperation → Pieces Stop Server)

/-- One piece of the operation of the connection `c`, on whatever the image is then. -/
def pieceStep (s : FineDaemon) (i : ℕ) (c : Connection) : Pieces Stop Server → Option FineDaemon
  | .done => none
  | .piece x next =>
    match x (s.daemon.server c) with
    | .ok b t =>
      some ⟨s.daemon.operated i c t c.stage, Function.update s.left i (some (next b))⟩
    | .error (.die _) t => some ⟨s.daemon.operated i c t .failed, Function.update s.left i none⟩
    | .error .fault t => some ⟨(s.daemon.operated i c t c.stage).killed, fun _ => none⟩
    | .error .diverged _ => none

def fineStep (s : FineDaemon) : FineEvent → Option FineDaemon
  | .outside (.act _ .operate) => none
  | .outside (.signal _) => none
  | .outside e => (daemonStep fuel fds s.daemon e).map fun d => { s with daemon := d }
  | .start i =>
    s.daemon.connections[i]?.bind fun c =>
      match c.stage, s.left i with
      | .locked op, none => some { s with left := Function.update s.left i (some (parts op)) }
      | _, _ => none
  | .piece i =>
    s.daemon.connections[i]?.bind fun c => (s.left i).bind fun p => pieceStep s i c p
  | .finish i =>
    s.daemon.connections[i]?.bind fun c =>
      match c.stage, s.left i with
      | .locked op, some .done =>
        some ⟨s.daemon.put i { c with stage := .operated op }, Function.update s.left i none⟩
      | _, _ => none

end Steps

/-- The steps of the coarser daemon that belong to an event. -/
inductive Matches : FineEvent → List DaemonEvent → Prop
  | outside {e : DaemonEvent} (h : ∀ i, e ≠ .act i .operate ∧ e ≠ .signal i) :
      Matches (.outside e) [e]
  | start (i : ℕ) : Matches (.start i) []
  | piece (i : ℕ) : Matches (.piece i) []
  | died (i : ℕ) : Matches (.piece i) [.act i .operate]
  | killed (i : ℕ) : Matches (.piece i) [.signal i]
  | finish (i : ℕ) : Matches (.finish i) [.act i .operate]

/-- `s` is `a`, or one operation has not come to its end in `s` and has not begun in `a`. -/
inductive FineDaemon.Abstracts (fuel : ℕ) (fds : FsDescriptors) : FineDaemon → Daemon → Prop
  | idle (a : Daemon) : Abstracts fuel fds ⟨a, fun _ => none⟩ a
  | within {a : Daemon} {j : ℕ} {c : Connection} {op : NetFsOperation} {t : Server}
      {p : Pieces Stop Server} (connection : a.connections[j]? = some c) (stage : c.stage = .locked op)
      (rest : p.run t = dispatch fuel fds op (a.server c)) :
      Abstracts fuel fds
        ⟨a.operated j c t (.locked op), Function.update (fun _ => none) j (some p)⟩ a

section Frame

variable {fuel : ℕ} {fds : FsDescriptors} {a a' s s' : Daemon} {i j : ℕ} {c c' : Connection}
  {t : Server} {stage : Stage} {x : Action} {e : DaemonEvent} {op : NetFsOperation}

/-- Outside of its operation a thread moves its own connection and the mutex. -/
theorem threadStep_outside (hx : x ≠ .operate) (h : threadStep fuel fds s i c x = some s') :
    ∃ m c', ∀ u : Daemon, u.mutex = s.mutex →
      threadStep fuel fds u i c x = some ({ u with mutex := m }.put i c') := by
  cases x with
  | operate => exact absurd rfl hx
  | read old =>
    simp only [threadStep] at h
    split at h
    · next r input hstage hread =>
      exact ⟨s.mutex, _, fun u hu => by simp only [threadStep, hstage, hread, ← hu]; rfl⟩
    · cases h
  | lock =>
    simp only [threadStep] at h
    split at h
    · next op hstage hmutex =>
      exact ⟨some i, _, fun u hu => by simp only [threadStep, hstage, hu, hmutex]; rfl⟩
    · cases h
  | unlock =>
    simp only [threadStep] at h
    split at h
    · next op hstage => exact ⟨none, _, fun u hu => by simp only [threadStep, hstage]; rfl⟩
    · next hstage => exact ⟨none, _, fun u hu => by simp only [threadStep, hstage]; rfl⟩
    · cases h
  | clear =>
    simp only [threadStep] at h
    split at h
    · next op hstage => exact ⟨s.mutex, _, fun u hu => by simp only [threadStep, hstage, ← hu]; rfl⟩
    · cases h
  | close =>
    simp only [threadStep] at h
    split at h
    · next hstage => exact ⟨s.mutex, _, fun u hu => by simp only [threadStep, hstage, ← hu]; rfl⟩
    · cases h
  | free =>
    simp only [threadStep] at h
    split at h
    · next hstage => exact ⟨s.mutex, _, fun u hu => by simp only [threadStep, hstage, ← hu]; rfl⟩
    · cases h
  | exit =>
    simp only [threadStep] at h
    split at h
    · next hstage => exact ⟨s.mutex, _, fun u hu => by simp only [threadStep, hstage, ← hu]; rfl⟩
    · cases h

/-- A thread and the operation of another one do not get in each other's way. -/
theorem put_operated (hne : i ≠ j) (m : Option ℕ) :
    ({ a.operated j c t stage with mutex := m } : Daemon).put i c' =
      (({ a with mutex := m } : Daemon).put i c').operated j c t stage := by
  simp only [Daemon.put, Daemon.operated, Daemon.mk.injEq, true_and, and_true]
  exact List.set_comm _ _ hne.symm

theorem operated_lookup (hc : a.connections[j]? = some c) (i : ℕ) :
    (a.operated j c t stage).connections[i]? =
      if i = j then some { c with input := t.input, output := t.output, stage := stage }
      else a.connections[i]? := by
  have hlt : j < a.connections.length := (List.getElem?_eq_some_iff.mp hc).1
  simp only [Daemon.operated, Daemon.put, List.getElem?_set, hlt, if_true]
  by_cases hij : i = j
  · rw [if_pos hij, if_pos hij.symm]
  · rw [if_neg hij, if_neg (Ne.symm hij)]

/-- Nothing of an operation is done. -/
theorem operated_nothing (hc : a.connections[j]? = some c) :
    a.operated j c (a.server c) c.stage = a := by
  obtain ⟨hlt, hget⟩ := List.getElem?_eq_some_iff.mp hc
  have hset : a.connections.set j c = a.connections := by rw [← hget, List.set_getElem_self]
  simp only [Daemon.operated, Daemon.put, Daemon.server, hset]

theorem operated_operated {t' : Server} {stage' : Stage} :
    (a.operated j c t stage).operated j
      { c with input := t.input, output := t.output, stage := stage } t' stage' =
        a.operated j c t' stage' := by
  simp only [Daemon.operated, Daemon.put, List.set_set]

/-- While an operation goes on, the other threads do what they would do before it. -/
theorem daemonStep_operated (hc : a.connections[j]? = some c)
    (h : daemonStep fuel fds (a.operated j c t (.locked op)) e = some s)
    (he : ∀ i, e ≠ .act i .operate ∧ e ≠ .signal i) :
    ∃ a', daemonStep fuel fds a e = some a' ∧ s = a'.operated j c t (.locked op) ∧
      a'.connections[j]? = some c ∧ a'.server c = a.server c := by
  have hlt : j < a.connections.length := (List.getElem?_eq_some_iff.mp hc).1
  cases e with
  | accept input output =>
    simp only [daemonStep] at h
    split at h
    · next hrunning =>
      obtain rfl := Option.some.inj h
      refine ⟨_, if_pos hrunning, ?_, ?_, rfl⟩
      · simp only [Daemon.operated, Daemon.put, Daemon.mk.injEq, true_and, and_true]
        exact (List.set_append_left _ _ hlt).symm
      · exact (List.getElem?_append_left hlt).trans hc
    · cases h
  | signal i => exact absurd rfl (he i).2
  | act i x =>
    obtain ⟨c₁, hc₁, hstep⟩ := Option.bind_eq_some_iff.mp h
    rw [operated_lookup hc] at hc₁
    by_cases hij : i = j
    · -- the thread itself has nothing else to do
      rw [if_pos hij] at hc₁
      obtain rfl := Option.some.inj hc₁
      cases x with
      | operate => exact absurd rfl (he i).1
      | read old => simp [threadStep] at hstep
      | lock => simp [threadStep] at hstep
      | unlock => simp [threadStep] at hstep
      | clear => simp [threadStep] at hstep
      | close => simp [threadStep] at hstep
      | free => simp [threadStep] at hstep
      | exit => simp [threadStep] at hstep
    · rw [if_neg hij] at hc₁
      obtain ⟨m, c', hany⟩ := threadStep_outside (by rintro rfl; exact (he i).1 rfl) hstep
      refine ⟨({ a with mutex := m } : Daemon).put i c', ?_, ?_, ?_, rfl⟩
      · exact Option.bind_eq_some_iff.mpr ⟨c₁, hc₁, hany a rfl⟩
      · rw [← put_operated hij]
        exact Option.some.inj (hstep.symm.trans (hany _ rfl))
      · simp only [Daemon.put, List.getElem?_set, if_neg hij]
        exact hc

end Frame

/-! ## One step -/

section Simulation

variable {fuel : ℕ} {fds : FsDescriptors} {parts : NetFsOperation → Pieces Stop Server}
  {f f' : FineDaemon} {a : Daemon} {i j : ℕ} {c : Connection} {op : NetFsOperation} {t : Server}
  {p : Pieces Stop Server} {e : DaemonEvent}

/-- What a step of the finer daemon comes to in the coarser one. -/
def Simulated (fuel : ℕ) (fds : FsDescriptors) (a : Daemon) (e : FineEvent) (f' : FineDaemon) : Prop :=
  ∃ es a', Matches e es ∧ run (daemonStep fuel fds) a es = some a' ∧ a'.Sound ∧
    f'.Abstracts fuel fds a'

theorem simulated_silent {e : FineEvent} (hmatch : Matches e []) (ha : a.Sound)
    (h : f'.Abstracts fuel fds a) : Simulated fuel fds a e f' :=
  ⟨[], a, hmatch, rfl, ha, h⟩

theorem simulated_step {e : FineEvent} {x : DaemonEvent} {a' : Daemon} (hmatch : Matches e [x])
    (ha : a.Sound) (hrun : daemonStep fuel fds a x = some a') (h : f'.Abstracts fuel fds a') :
    Simulated fuel fds a e f' :=
  ⟨[x], a', hmatch, run_cons.mpr ⟨a', hrun, rfl⟩, daemonStep_sound ha hrun, h⟩

/-- The operation of a locked thread, as one step. -/
theorem daemonStep_operate_ok (hc : a.connections[j]? = some c) (hstage : c.stage = .locked op)
    (h : dispatch fuel fds op (a.server c) = .ok () t) :
    daemonStep fuel fds a (.act j .operate) = some (a.operated j c t (.operated op)) := by
  rw [daemonStep, hc, Option.bind_some, threadStep, hstage]
  simp only [h]

theorem daemonStep_operate_died {e : FsError} (hc : a.connections[j]? = some c)
    (hstage : c.stage = .locked op) (h : dispatch fuel fds op (a.server c) = .error (.die e) t) :
    daemonStep fuel fds a (.act j .operate) = some (a.operated j c t .failed) := by
  rw [daemonStep, hc, Option.bind_some, threadStep, hstage]
  simp only [h]

theorem daemonStep_signal (hc : a.connections[j]? = some c) (hstage : c.stage = .locked op)
    (h : dispatch fuel fds op (a.server c) = .error .fault t) :
    daemonStep fuel fds a (.signal j) = some (a.operated j c t (.locked op)).killed := by
  rw [daemonStep, hc, Option.bind_some, signalStep, hstage]
  simp only [h]

theorem outside_simulated (ha : a.Sound) (h : f.Abstracts fuel fds a)
    (hstep : fineStep fuel fds parts f (.outside e) = some f') :
    Simulated fuel fds a (.outside e) f' := by
  have he : ∀ i, e ≠ .act i .operate ∧ e ≠ .signal i := by
    refine fun i => ⟨?_, ?_⟩
    · rintro rfl
      cases hstep
    · rintro rfl
      cases hstep
  have hstep : (daemonStep fuel fds f.daemon e).map (fun d => { f with daemon := d }) = some f' := by
    cases e with
    | accept input output => exact hstep
    | act i x =>
      cases x with
      | operate => exact absurd rfl (he i).1
      | _ => exact hstep
    | signal i => exact absurd rfl (he i).2
  obtain ⟨d, hd, rfl⟩ := Option.map_eq_some_iff.mp hstep
  cases h with
  | idle => exact simulated_step (.outside he) ha hd (.idle d)
  | within connection stage rest =>
    obtain ⟨a', ha', rfl, hc', hserver⟩ := daemonStep_operated connection hd he
    exact simulated_step (.outside he) ha ha' (.within hc' stage (by rw [hserver]; exact rest))

/-- Only the thread that holds the mutex begins an operation. -/
theorem start_simulated (hparts : ∀ op, (parts op).run = dispatch fuel fds op) (ha : a.Sound)
    (h : f.Abstracts fuel fds a) (hstep : fineStep fuel fds parts f (.start i) = some f') :
    Simulated fuel fds a (.start i) f' := by
  obtain ⟨c, hc, hstart⟩ := Option.bind_eq_some_iff.mp hstep
  split at hstart
  · next op hstage hleft =>
    obtain rfl := Option.some.inj hstart
    cases h with
    | idle =>
      have hwithin : FineDaemon.Abstracts fuel fds _ a :=
        .within hc hstage (congrFun (hparts op) (a.server c))
      rw [← hstage, operated_nothing hc] at hwithin
      exact simulated_silent (.start i) ha hwithin
    | @within _ j c₁ op₁ t p connection stage rest =>
      -- two threads between lock and unlock
      exfalso
      have hij : i ≠ j := by
        rintro rfl
        cases (Function.update_self i (some p) fun _ => none).symm.trans hleft
      rw [operated_lookup connection, if_neg hij] at hc
      have hi := (ha.holder i).mpr ⟨c, hc, by rw [hstage]; rfl⟩
      have hj := (ha.holder j).mpr ⟨c₁, connection, by rw [stage]; rfl⟩
      exact hij (Option.some.inj (hi.symm.trans hj))
  · cases hstart

theorem left_eq_some {q : Pieces Stop Server}
    (h : Function.update (fun _ => none) j (some p) i = some q) : i = j ∧ p = q := by
  by_cases hij : i = j
  · subst hij
    rw [Function.update_self] at h
    exact ⟨rfl, Option.some.inj h⟩
  · rw [Function.update_of_ne hij] at h
    cases h

theorem piece_simulated (ha : a.Sound) (h : f.Abstracts fuel fds a)
    (hstep : fineStep fuel fds parts f (.piece i) = some f') : Simulated fuel fds a (.piece i) f' := by
  obtain ⟨c, hc, hpiece⟩ := Option.bind_eq_some_iff.mp hstep
  obtain ⟨q, hq, hpiece⟩ := Option.bind_eq_some_iff.mp hpiece
  cases h with
  | idle => cases hq
  | @within _ j c₁ op t p connection stage rest =>
    obtain ⟨rfl, rfl⟩ := left_eq_some hq
    rw [operated_lookup connection, if_pos rfl] at hc
    obtain rfl := Option.some.inj hc
    cases p with
    | done => cases hpiece
    | piece x next =>
      have hserver : (a.operated i c₁ t (.locked op)).server
          { c₁ with input := t.input, output := t.output, stage := .locked op } = t := rfl
      simp only [pieceStep, hserver, Function.update_idem] at hpiece
      split at hpiece
      · next b t' hx =>
        obtain rfl := Option.some.inj hpiece
        rw [operated_operated]
        rw [Pieces.run_piece_of_ok hx] at rest
        exact simulated_silent (.piece i) ha (.within connection stage rest)
      · next e t' hx =>
        obtain rfl := Option.some.inj hpiece
        rw [operated_operated]
        rw [Pieces.run_piece_of_error hx] at rest
        have hrun := daemonStep_operate_died connection stage rest.symm
        have hidle : FineDaemon.Abstracts fuel fds _ (a.operated i c₁ t' .failed) := .idle _
        rw [← Function.update_eq_self (a := i) (f := fun _ : ℕ => (none : Option (Pieces Stop Server)))]
          at hidle
        exact simulated_step (.died i) ha hrun hidle
      · next t' hx =>
        obtain rfl := Option.some.inj hpiece
        rw [operated_operated]
        rw [Pieces.run_piece_of_error hx] at rest
        have hrun := daemonStep_signal connection stage rest.symm
        exact simulated_step (.killed i) ha hrun (.idle _)
      · cases hpiece

theorem finish_simulated (ha : a.Sound) (h : f.Abstracts fuel fds a)
    (hstep : fineStep fuel fds parts f (.finish i) = some f') :
    Simulated fuel fds a (.finish i) f' := by
  obtain ⟨c, hc, hfinish⟩ := Option.bind_eq_some_iff.mp hstep
  split at hfinish
  · next op hstage hleft =>
    obtain rfl := Option.some.inj hfinish
    cases h with
    | idle => cases hleft
    | @within _ j c₁ op₁ t p connection stage rest =>
      obtain ⟨rfl, rfl⟩ := left_eq_some hleft
      rw [operated_lookup connection, if_pos rfl] at hc
      obtain rfl := Option.some.inj hc
      obtain rfl := Stage.locked.inj hstage
      have hrun := daemonStep_operate_ok connection stage rest.symm
      have hidle : FineDaemon.Abstracts fuel fds _ (a.operated i c₁ t (.operated op₁)) := .idle _
      rw [← Function.update_eq_self (a := i) (f := fun _ : ℕ => (none : Option (Pieces Stop Server)))]
        at hidle
      have hput : (a.operated i c₁ t (.locked op₁)).put i
          { c₁ with input := t.input, output := t.output, stage := .operated op₁ } =
            a.operated i c₁ t (.operated op₁) := operated_operated
      simp only [Function.update_idem, hput]
      exact simulated_step (.finish i) ha hrun hidle
  · cases hfinish

theorem fineStep_simulated (hparts : ∀ op, (parts op).run = dispatch fuel fds op) {e : FineEvent}
    (ha : a.Sound) (h : f.Abstracts fuel fds a) (hstep : fineStep fuel fds parts f e = some f') : Simulated fuel fds a e f' := by
  cases e with
  | outside e => exact outside_simulated ha h hstep
  | start i => exact start_simulated hparts ha h hstep
  | piece i => exact piece_simulated ha h hstep
  | finish i => exact finish_simulated ha h hstep

end Simulation

/-! ## Runs -/

section Runs

variable {fuel : ℕ} {fds : FsDescriptors} {parts : NetFsOperation → Pieces Stop Server}
  {f f' : FineDaemon} {a : Daemon} {es : List FineEvent} {image : Image}

theorem fineRun_simulated (hparts : ∀ op, (parts op).run = dispatch fuel fds op) (ha : a.Sound)
    (h : f.Abstracts fuel fds a) (hrun : run (fineStep fuel fds parts) f es = some f') :
    ∃ ess a', List.Forall₂ Matches es ess ∧ run (daemonStep fuel fds) a ess.flatten = some a' ∧
      a'.Sound ∧ f'.Abstracts fuel fds a' := by
  have hsim : ∀ e ∈ es, ∀ f a f', a.Sound ∧ FineDaemon.Abstracts fuel fds f a →
      fineStep fuel fds parts f e = some f' → Simulated fuel fds a e f' :=
    fun e _ f a f' hR hstep => fineStep_simulated hparts hR.1 hR.2 hstep
  obtain ⟨ess, a', hmatch, hrun', hR⟩ := run_simulates
    (R := fun f a => a.Sound ∧ FineDaemon.Abstracts fuel fds f a) (M := Matches) hsim ⟨ha, h⟩ hrun
  exact ⟨ess, a', hmatch, hrun', hR⟩

theorem FineDaemon.Abstracts.eq_of_idle (h : f.Abstracts fuel fds a) (hidle : ∀ i, f.left i = none) :
    f.daemon = a := by
  cases h with
  | idle => rfl
  | @within _ j c op t p connection stage rest =>
    cases (Function.update_self j (some p) fun _ => none).symm.trans (hidle j)

/-- The mutex makes operations atomic: the pieces of an operation may be moved together
to its end, which may be the end of the process. The steps outside of operations stay as
they are and where they are, and the daemon is in the same state whenever no operation
is under way. -/
theorem fineDaemon_atomic (hparts : ∀ op, (parts op).run = dispatch fuel fds op)
    (hrun : run (fineStep fuel fds parts) (.initial image) es = some f) :
    ∃ ess a, List.Forall₂ Matches es ess ∧
      run (daemonStep fuel fds) (.initial image) ess.flatten = some a ∧
      f.Abstracts fuel fds a ∧ ((∀ i, f.left i = none) → f.daemon = a) := by
  obtain ⟨ess, a, hmatch, hrun', -, h⟩ := fineRun_simulated hparts (initial_sound image)
    (.idle _) hrun
  exact ⟨ess, a, hmatch, hrun', h, h.eq_of_idle⟩

end Runs

/-! ## The calls of an operation -/

section Calls

variable (fuel : ℕ) (fds : FsDescriptors)

def fsopReadCalls (args : FsOpReadArgs) : Pieces Stop Server :=
  .piece (splitArg args.path) fun path =>
  .piece (onImage (locatePath fds path)) fun inode =>
  .piece (onInput (malloc args.length)) fun data =>
  match data with
  | none => .last (throw (.die .memory))
  | some data =>
    .piece (onImage (readFile inode args.offset args.length)) fun read =>
    .piece writeEmptyError fun _ => .last (answer (slzString.write ⟨read.length, .block data read⟩))

def fsopWriteCalls (args : FsOpWriteArgs) : Pieces Stop Server :=
  .piece (splitArg args.path) fun path =>
  .piece (onImage (locatePath fds path)) fun inode =>
  if args.data.bytes.length < args.length then .last (throw .fault)
  else
    .piece (onImage (writeFile fuel inode args.offset (args.data.bytes.take args.length))) fun _ =>
    .last writeEmptyError

def fsopCreateCalls (args : FsOpCreateArgs) : Pieces Stop Server :=
  .piece (splitArg args.path) fun path =>
  .piece (onImage (locatePath fds (parentPath path))) fun dirInode =>
  .piece (onImage (Fs.liftExcept (path.part (parentPath path).count))) fun name =>
  if fileNameLength ≤ name.length then .last (throw (.die .tooLongName))
  else
    .piece (onImage (initNewFile args.flags)) fun fileInode =>
    .piece (onImage (appendDirectory fuel dirInode ⟨fileInode, itemName name⟩)) fun _ =>
    .last writeEmptyError

def fsopRemoveCalls (args : FsOpRemoveArgs) : Pieces Stop Server :=
  .piece (splitArg args.path) fun path =>
  .piece (onImage (locatePath fds (parentPath path))) fun dirInode =>
  .piece (onImage (Fs.liftExcept (path.part (parentPath path).count))) fun name =>
  .piece (onImage (removeFromDirectory fuel dirInode name)) fun fileInode =>
  .piece (onImage (purgeFile fuel fileInode)) fun _ => .last writeEmptyError

def fsopStatCalls (args : FsOpStatArgs) : Pieces Stop Server :=
  .piece (splitArg args.path) fun path =>
  .piece (onImage (locatePath fds path)) fun inode =>
  .piece (onImage (getFileSize inode)) fun size =>
  .piece (onImage (getBlocksRequired size)) fun blocksCount =>
  .piece (onImage (traceFileBlocks inode)) fun trace =>
  .piece (heapBlock ((trace.stores.take trace.capacity).flatMap (leBytes 8))) fun blocks =>
  .piece writeEmptyError fun _ =>
  .last (answer (slzFsOpStatResponse.write ⟨size, blocksCount, blocks⟩))

def fsopReadDirCalls (args : FsOpReadDirArgs) : Pieces Stop Server :=
  .piece (splitArg args.path) fun path =>
  .piece (onImage (locatePath fds path)) fun dirInode =>
  .piece (onImage (readDirectory dirInode)) fun content =>
  .piece (heapBlock (content.items.flatMap DirectoryItem.encode)) fun items =>
  .piece writeEmptyError fun _ =>
  .last (answer (slzDirectoryContent.write ⟨content.items.length, items⟩))

def processOperationCalls : NetFsOperation → Pieces Stop Server
  | .op .read args => fsopReadCalls fds args
  | .op .write args => fsopWriteCalls fuel fds args
  | .op .create args => fsopCreateCalls fuel fds args
  | .op .remove args => fsopRemoveCalls fuel fds args
  | .op .stat args => fsopStatCalls fds args
  | .op .readDir args => fsopReadDirCalls fds args
  | .other _ => .done

/-- `process_operation`, cut behind every call of its handler. -/
def dispatchCalls (op : NetFsOperation) : Pieces Stop Server :=
  .piece (modify fun s : Server => { s with errorIntercepted := false } : SrvM Unit) fun _ =>
    (processOperationCalls fuel fds op).each fun _ => intercepted

theorem processOperationCalls_run (op : NetFsOperation) :
    (processOperationCalls fuel fds op).run = processOperation fuel fds op := by
  cases op with
  | other type => rfl
  | op t args =>
    cases t with
    | read =>
      refine bind_congr fun path => bind_congr fun inode => bind_congr fun data => ?_
      cases data with
      | none => exact Pieces.run_last _
      | some data => exact bind_congr fun read => bind_congr fun _ => Pieces.run_last _
    | write =>
      refine bind_congr fun path => bind_congr fun inode => ?_
      split
      · exact Pieces.run_last _
      · exact bind_congr fun _ => Pieces.run_last _
    | create =>
      refine bind_congr fun path => bind_congr fun dirInode => bind_congr fun name => ?_
      beta_reduce
      split
      · exact Pieces.run_last _
      · exact bind_congr fun fileInode => bind_congr fun _ => Pieces.run_last _
    | remove =>
      exact bind_congr fun path => bind_congr fun dirInode => bind_congr fun name =>
        bind_congr fun fileInode => bind_congr fun _ => Pieces.run_last _
    | stat =>
      exact bind_congr fun path => bind_congr fun inode => bind_congr fun size =>
        bind_congr fun blocksCount => bind_congr fun trace => bind_congr fun blocks =>
        bind_congr fun _ => Pieces.run_last _
    | readDir =>
      exact bind_congr fun path => bind_congr fun dirInode => bind_congr fun content =>
        bind_congr fun items => bind_congr fun _ => Pieces.run_last _

theorem bind_of_exited {α β : Type} {x : SrvM α} {k : α → SrvM β} {s : Server} {e : FsError}
    {r : EStateM.Result Stop Server Unit} (h : x s = exited e r) : (x >>= k) s = exited e r := by
  cases r with
  | ok u t => exact bind_of_error h
  | error stop t => cases stop <;> exact bind_of_error h

theorem intercepted_bind {α β : Type} (x : SrvM α) (k : α → SrvM β) :
    intercepted (x >>= k) = intercepted x >>= fun a => intercepted (k a) := by
  funext s
  cases hx : x s with
  | ok a t =>
    rw [bind_of_ok (intercepted_of_ok hx), intercepted, bind_of_ok hx, intercepted]
  | error e t =>
    cases e with
    | die e =>
      rw [bind_of_exited (intercepted_of_die hx), intercepted_of_die (bind_of_error hx)]
    | fault =>
      have hi : intercepted x s = .error .fault t := by rw [intercepted, hx]
      rw [bind_of_error hi, intercepted, bind_of_error hx]
    | diverged =>
      have hi : intercepted x s = .error .diverged t := by rw [intercepted, hx]
      rw [bind_of_error hi, intercepted, bind_of_error hx]

theorem dispatchCalls_run (op : NetFsOperation) :
    (dispatchCalls fuel fds op).run = dispatch fuel fds op := by
  refine bind_congr fun _ => ?_
  rw [Pieces.run_each rfl fun β x k => intercepted_bind x k, processOperationCalls_run]

end Calls

/-- Two clients ask for the state of paths without a slash; the operation of the
second one is read while the first one is at work. -/
def refusedFineRun : List FineEvent :=
  [.outside (.accept (byteByByte statWithoutSlash.wire) byteSink),
    .outside (.accept (byteByByte statWithoutSlash.wire) byteSink), .outside (.act 0 (.read [])),
    .outside (.act 0 .lock), .start 0, .piece 0, .outside (.act 1 (.read [])), .piece 0,
    .outside (.act 0 .unlock), .outside (.act 1 .lock), .outside (.act 0 .exit), .start 1, .piece 1]

theorem fineDaemon_atomic_refused : ∃ f ess a,
    run (fineStep 0 ⟨1⟩ (dispatchCalls 0 ⟨1⟩)) (.initial ⟨fun _ => 0, 0, []⟩) refusedFineRun = some f ∧
    List.Forall₂ Matches refusedFineRun ess ∧
    run (daemonStep 0 ⟨1⟩) (.initial ⟨fun _ => 0, 0, []⟩) ess.flatten = some a ∧
    f.Abstracts 0 ⟨1⟩ a := by
  have hrun : (run (fineStep 0 ⟨1⟩ (dispatchCalls 0 ⟨1⟩)) (.initial ⟨fun _ => 0, 0, []⟩)
      refusedFineRun).isSome = true := by decide +kernel
  obtain ⟨f, hf⟩ := Option.isSome_iff_exists.mp hrun
  obtain ⟨ess, a, hmatch, ha, habs, -⟩ := fineDaemon_atomic (dispatchCalls_run 0 ⟨1⟩) hf
  exact ⟨f, ess, a, hf, hmatch, ha, habs⟩

end KisLinux.Net
