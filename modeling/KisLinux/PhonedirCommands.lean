import KisLinux.PhonedirStream

/-!
# The input side of the directory device

A write is to add bytes to a stream of commands, however the stream is cut into
writes. The device does that only where every write hands over one command. The
first half says what a call does to `input_buf`, the second one compares it with
the commands of the stream.
-/
namespace KisLinux.Phonedir
open Fs ByteMemory StateRun EventRun

variable {s t : Session} {c : Call} {d d' d₁ d₂ : Device}

/-! ## What a call does to the input buffer -/

/-- A pass over the buffers runs no operation. -/
def Device.Idle (d : Device) : Prop :=
  d.handle.inputOffset = 0 ∨ needBytes (d.handle.inputBuf 0) + 1 < d.handle.inputOffset ∨
    d.kernel.locks 0 = false

inductive Pass (d d' : Device) : Prop
  | idle (h : d.Idle) (settled : Settled d d')
  | operated (h : ¬ d.Idle) {res : Except Errno Unit} (operated : Operated d res d')

theorem handleProcessBuffers_pass (hcap : d.handle.inputOffset ≤ userBufCap)
    (hout : d.handle.outputOffset ≤ userBufCap) :
    ∃ res d', handleProcessBuffers d = .ok res d' ∧ Pass d d' := by
  by_cases hidle : d.Idle
  · obtain ⟨res, d', hrun, hd⟩ := handleProcessBuffers_settled hcap hout hidle
    exact ⟨res, d', hrun, .idle hidle hd⟩
  · have hsome := hidle
    rw [Device.Idle, not_or, not_or, Bool.not_eq_false] at hsome
    obtain ⟨hpos, hle, hlock⟩ := hsome
    obtain ⟨res, d', hrun, hd⟩ := handleProcessBuffers_operated (Nat.pos_of_ne_zero hpos) hcap
      hout (Nat.not_lt.mp hle) hlock
    exact ⟨res, d', hrun, .operated hidle hd⟩

/-- The bytes that a call puts into the input buffer. -/
def Device.taken (d : Device) : Call → List UInt8
  | .write data => d.accepts data
  | _ => []

/-- The bytes that a call is going to find in the input buffer when it processes it. -/
def Device.pendingInput (d : Device) : Call → List UInt8
  | .write data => if d.accepts data = [] then [] else d.handle.buffered ++ d.accepts data
  | .read _ => d.handle.buffered
  | .release => d.handle.buffered
  | .others _ => []

/-- The directory as it is when the call begins. -/
def Call.start (directory : List Record) : Call → List Record
  | .others l => l
  | _ => directory

/-- `d'` is `d` with `bytes` behind the input buffer. -/
structure Behind (directory : List Record) (bytes : List UInt8) (d d' : Device) : Prop where
  directory : d'.kernel.directory = directory
  allocs : d'.kernel.allocs = d.kernel.allocs
  locks : d'.kernel.locks = d.kernel.locks
  trace : d'.trace = d.trace
  inputOffset : d'.handle.inputOffset ≤ userBufCap
  buffered : d'.handle.buffered = d.handle.buffered ++ bytes
  outputOffset : d'.handle.outputOffset ≤ userBufCap

/-- What happens to the input side between the copy and the end of the call. -/
inductive Work (c : Call) (d d₁ d₂ : Device) : Prop
  | skipped (h : d.pendingInput c = []) (same : d₂ = d₁)
  | settled (h : d.pendingInput c = []) (settled : Settled d₁ d₂)
  | pass (h : d₁.handle.buffered = d.pendingInput c) (pass : Pass d₁ d₂)

/-- `d'` differs from `d` on the output side only. -/
structure Quiet (d d' : Device) : Prop where
  directory : d'.kernel.directory = d.kernel.directory
  allocs : d'.kernel.allocs = d.kernel.allocs
  locks : d'.kernel.locks = d.kernel.locks
  trace : d'.trace = d.trace
  inputOffset : d'.handle.inputOffset = d.handle.inputOffset
  inputBuf : d'.handle.inputBuf = d.handle.inputBuf
  outputOffset : d'.handle.outputOffset ≤ userBufCap

theorem Quiet.refl (h : d.handle.outputOffset ≤ userBufCap) : Quiet d d :=
  ⟨rfl, rfl, rfl, rfl, rfl, rfl, h⟩

theorem Pass.outputOffset (h : Pass d d') : d'.handle.outputOffset ≤ userBufCap := by
  cases h with
  | idle _ h => exact h.outputOffset
  | operated _ h => exact h.outputOffset

theorem Stored.behind {bytes : List UInt8} (h : Stored bytes d d')
    (hout : d.handle.outputOffset ≤ userBufCap) : Behind d.kernel.directory bytes d d' where
  directory := h.directory
  allocs := h.allocs
  locks := h.locks
  trace := h.trace
  inputOffset := h.inputOffset_le
  buffered := h.buffered
  outputOffset := by rw [h.outputOffset]; exact hout

theorem Behind.refl (hcap : d.handle.inputOffset ≤ userBufCap)
    (hout : d.handle.outputOffset ≤ userBufCap) : Behind d.kernel.directory [] d d :=
  ⟨rfl, rfl, rfl, rfl, hcap, (List.append_nil _).symm, hout⟩

/-- Every call is a copy, a pass over the buffers, and work on the output side. -/
theorem call_run (c : Call) (hcap : d.handle.inputOffset ≤ userBufCap)
    (hout : d.handle.outputOffset ≤ userBufCap) :
    ∃ gave d' d₁ d₂, call c d = .ok (d.taken c, gave) d' ∧
      Behind (c.start d.kernel.directory) (d.taken c) d d₁ ∧ Work c d d₁ d₂ ∧ Quiet d₂ d' := by
  cases c with
  | write data =>
    by_cases hnone : d.accepts data = []
    · obtain ⟨r, d', hrun, htook, hd⟩ := devWrite_none hcap hout hnone
      have hcall : call (.write data) d = .ok (d.accepts data, []) d' := by
        rw [← htook.trans hnone.symm]
        exact (bind_of_ok hrun).trans (pure_run _ _)
      have hpending : d.pendingInput (.write data) = [] := if_pos hnone
      have hbehind : Behind d.kernel.directory (d.accepts data) d d := by
        rw [hnone]
        exact .refl hcap hout
      rcases hd with hd | hd
      · have hstored := hd.behind hout
        rw [← hnone] at hstored
        exact ⟨_, d', d', d', hcall, hstored, .skipped hpending rfl, .refl hstored.outputOffset⟩
      · exact ⟨_, d', d, d', hcall, hbehind, .settled hpending hd, .refl hd.outputOffset⟩
    · obtain ⟨d₁, hstored, hrest⟩ := devWrite_some hcap hnone
      have hbehind := hstored.behind hout
      obtain ⟨res, d', hprocess, hpass⟩ :=
        handleProcessBuffers_pass hbehind.inputOffset hbehind.outputOffset
      refine ⟨[], d', d₁, d', ?_, hbehind, .pass ?_ hpass, .refl hpass.outputOffset⟩
      · refine (bind_of_ok (hrest res d' hprocess)).trans ?_
        rw [takenOver_accepts, pure_run]
        rfl
      · rw [hbehind.buffered]
        exact (if_neg hnone).symm
  | read len =>
    obtain ⟨res, d₂, hprocess, hpass⟩ := handleProcessBuffers_pass hcap hout
    obtain ⟨r, d', hrun, hd⟩ := devRead_run len hprocess hpass.outputOffset
    refine ⟨handedOver r, d', d, d₂, (bind_of_ok hrun).trans (pure_run _ _), .refl hcap hout,
      .pass rfl hpass, ?_⟩
    exact ⟨hd.directory, hd.allocs, hd.locks, hd.trace, hd.inputOffset, hd.inputBuf, hd.outputOffset⟩
  | release =>
    obtain ⟨res, d₂, hprocess, hpass⟩ := handleProcessBuffers_pass hcap hout
    refine ⟨[], _, d, d₂, (bind_of_ok (devRelease_run hprocess)).trans (pure_run _ _),
      .refl hcap hout, .pass rfl hpass, ?_⟩
    exact ⟨rfl, rfl, rfl, rfl, rfl, rfl, hpass.outputOffset⟩
  | others directory =>
    refine ⟨[], _, _, _, rfl, ?_, .skipped rfl rfl, .refl hout⟩
    exact ⟨rfl, rfl, rfl, rfl, hcap, (List.append_nil _).symm, hout⟩

/-! ## Staying inside of the filled bytes -/

def Trace.Within (t : Trace) : Prop := (∀ i ∈ t.indices, i.1 ≤ i.2) ∧ ∀ a ∈ t.accesses, a.Within

/-- The bounds that the input buffer is to keep. -/
structure InBounds (s : Session) : Prop where
  crashed : s.crashed = false
  inputOffset : s.device.handle.inputOffset ≤ userBufCap
  within : s.device.trace.Within

/-- The call finds no command, a complete one with whatever behind it, or an add
command for which there is no memory; or it does not get to look. -/
def WellFilled (d : Device) (c : Call) : Prop :=
  d.kernel.locks 0 = true → ∀ op args, d.pendingInput c = op :: args →
    needBytes op ≤ args.length ∨ op = opAdd ∧ d.kernel.allocs 0 = false

theorem Settled.within (h : Settled d d') (ht : d.trace.Within) : d'.trace.Within := by
  obtain ⟨more, haccesses, hmore⟩ := h.accesses
  refine ⟨by rw [h.indices]; exact ht.1, fun a ha => ?_⟩
  rw [haccesses] at ha
  rcases List.mem_append.mp ha with ha | ha
  · exact ht.2 a ha
  · exact hmore a ha

/-- Within bounds the bytes of the command are there, or an Add got no memory. -/
theorem Operated.filled {res : Except Errno Unit} (h : Operated d res d') (ht : d'.trace.Within) :
    needBytes (d.handle.inputBuf 0) + 1 ≤ d.handle.inputOffset ∨
      d.handle.inputBuf 0 = opAdd ∧ d.kernel.allocs 0 = false := by
  obtain ⟨hindices, haccesses⟩ := ht
  rw [h.accesses] at haccesses
  by_cases hreads : readsArgs (d.handle.inputBuf 0) (d.kernel.allocs 0) = true
  · -- the bytes behind the first one were touched
    have hargs := haccesses ⟨1, needBytes (d.handle.inputBuf 0), d.handle.inputOffset⟩ (by
      rw [if_pos hreads]
      exact List.mem_append_right _ List.mem_cons_self)
    change 1 + needBytes (d.handle.inputBuf 0) ≤ d.handle.inputOffset at hargs
    exact Or.inl (by omega)
  · by_cases hadd : d.handle.inputBuf 0 = opAdd
    · refine Or.inr ⟨hadd, ?_⟩
      simpa [readsArgs, hadd, opAdd, opDelete, opFind] using hreads
    · have hother : d.handle.inputBuf 0 ≠ opDelete ∧ d.handle.inputBuf 0 ≠ opFind := by
        simpa [readsArgs, hadd] using hreads
      -- an unknown operation only moves the index
      have hres := h.other hadd hother.1 hother.2
      have hindex := hindices (needBytes (d.handle.inputBuf 0) + 1, d.handle.inputOffset) (by
        rw [(h.returned hres).2.1]
        exact List.mem_append_right _ List.mem_cons_self)
      exact Or.inl hindex

theorem Operated.accesses_within {res : Except Errno Unit} (h : Operated d res d')
    (ht : d.trace.Within) (hfilled : needBytes (d.handle.inputBuf 0) + 1 ≤ d.handle.inputOffset ∨
      d.handle.inputBuf 0 = opAdd ∧ d.kernel.allocs 0 = false) :
    ∀ a ∈ d'.trace.accesses, a.Within := by
  have hone : Access.Within ⟨0, 1, d.handle.inputOffset⟩ := h.some
  rw [h.accesses]
  intro a ha
  rcases List.mem_append.mp ha with ha | ha
  · rcases List.mem_append.mp ha with ha | ha
    · exact ht.2 a ha
    · rw [List.mem_singleton.mp ha]
      exact hone
  · by_cases hreads : readsArgs (d.handle.inputBuf 0) (d.kernel.allocs 0) = true
    · rw [if_pos hreads] at ha
      rw [List.mem_singleton.mp ha]
      rcases hfilled with hfilled | ⟨hadd, halloc⟩
      · show 1 + needBytes (d.handle.inputBuf 0) ≤ d.handle.inputOffset
        omega
      · rw [hadd, halloc] at hreads
        cases hreads
    · rw [if_neg hreads] at ha
      cases ha

/-- An operation keeps the bounds exactly when its command was there. -/
theorem Operated.within_iff {res : Except Errno Unit} (h : Operated d res d')
    (ht : d.trace.Within) (hcap : d.handle.inputOffset ≤ userBufCap) :
    d'.trace.Within ∧ d'.handle.inputOffset ≤ userBufCap ↔
      needBytes (d.handle.inputBuf 0) + 1 ≤ d.handle.inputOffset ∨
        d.handle.inputBuf 0 = opAdd ∧ d.kernel.allocs 0 = false := by
  refine ⟨fun hwithin => h.filled hwithin.1, fun hfilled => ?_⟩
  have haccesses := h.accesses_within ht hfilled
  cases res with
  | error e =>
    obtain ⟨hoff, hindices, -⟩ := h.failed e rfl
    exact ⟨⟨by rw [hindices]; exact ht.1, haccesses⟩, by rw [hoff]; exact hcap⟩
  | ok u =>
    obtain ⟨hoff, hindices, -⟩ := h.returned rfl
    have hle : needBytes (d.handle.inputBuf 0) + 1 ≤ d.handle.inputOffset := by
      rcases hfilled with hfilled | ⟨hadd, halloc⟩
      · exact hfilled
      · obtain ⟨e, he⟩ := h.refused hadd halloc
        cases he
    refine ⟨⟨?_, haccesses⟩, ?_⟩
    · rw [hindices]
      intro i hi
      rcases List.mem_append.mp hi with hi | hi
      · exact ht.1 i hi
      · rw [List.mem_singleton.mp hi]
        exact hle
    · rw [hoff, wsub_of_le hle hcap]
      omega

/-- The bounds of a session, with what keeps the output side out of the way. -/
structure Bounded (s : Session) : Prop extends InBounds s where
  outputOffset : s.device.handle.outputOffset ≤ userBufCap

theorem step_eq (hclosed : s.closed = false) (hcrashed : s.crashed = false) (c : Call)
    (hcap : s.device.handle.inputOffset ≤ userBufCap)
    (hout : s.device.handle.outputOffset ≤ userBufCap) :
    ∃ gave d' d₁ d₂, step s c = some (s.after c d' (s.device.taken c) gave) ∧
      Behind (c.start s.device.kernel.directory) (s.device.taken c) s.device d₁ ∧
      Work c s.device d₁ d₂ ∧ Quiet d₂ d' := by
  obtain ⟨gave, d', d₁, d₂, hcall, hbehind, hwork, hquiet⟩ := call_run c hcap hout
  exact ⟨gave, d', d₁, d₂, step_ok hclosed hcrashed hcall, hbehind, hwork, hquiet⟩

/-- The first byte of what waits, and how much waits. -/
theorem buffered_cons {op : UInt8} {args : List UInt8} (h : d.handle.buffered = op :: args) :
    d.handle.inputBuf 0 = op ∧ d.handle.inputOffset = args.length + 1 := by
  have hlen : d.handle.inputOffset = args.length + 1 := by
    rw [← d.handle.buffered_length, h, List.length_cons]
  rw [buffered_first _ hlen] at h
  exact ⟨(List.cons.inj h).1, hlen⟩

/-- The work of one call keeps the bounds exactly when it finds enough bytes. -/
theorem Work.within_iff {l : List Record} {bytes : List UInt8} (h : Work c d d₁ d₂)
    (hd : Behind l bytes d d₁) (ht : d.trace.Within) :
    d₂.trace.Within ∧ d₂.handle.inputOffset ≤ userBufCap ↔ WellFilled d c := by
  have ht₁ : d₁.trace.Within := by
    rw [hd.trace]
    exact ht
  have hempty : d.pendingInput c = [] → WellFilled d c := fun hnil _ op args hcons => by
    rw [hnil] at hcons
    cases hcons
  have hsettled : Settled d₁ d₂ → d₂.trace.Within ∧ d₂.handle.inputOffset ≤ userBufCap :=
    fun hs => ⟨hs.within ht₁, by rw [hs.inputOffset]; exact hd.inputOffset⟩
  cases h with
  | skipped hnil same =>
    subst same
    exact ⟨fun _ => hempty hnil, fun _ => ⟨ht₁, hd.inputOffset⟩⟩
  | settled hnil hs => exact ⟨fun _ => hempty hnil, fun _ => hsettled hs⟩
  | pass hfound hpass =>
    cases hpass with
    | idle hidle hs =>
      refine ⟨fun _ hlock op args hcons => ?_, fun _ => hsettled hs⟩
      rw [← hfound] at hcons
      obtain ⟨hop, hlen⟩ := buffered_cons hcons
      rcases hidle with hzero | hmore | hint
      · omega
      · rw [hop] at hmore
        exact Or.inl (by omega)
      · rw [hd.locks, hlock] at hint
        cases hint
    | operated hbusy ho =>
      rw [ho.within_iff ht₁ hd.inputOffset, hd.allocs]
      constructor
      · rintro hfilled hlock op args hcons
        rw [← hfound] at hcons
        obtain ⟨hop, hlen⟩ := buffered_cons hcons
        rw [hop, hlen] at hfilled
        exact hfilled.imp (fun hle => by omega) (fun hadd => hadd)
      · intro hfilled
        obtain ⟨n, hn⟩ := Nat.exists_eq_succ_of_ne_zero (Nat.pos_iff_ne_zero.mp ho.some)
        have hcons := buffered_first _ hn
        have hlock : d.kernel.locks 0 = true := by
          rw [← hd.locks]
          exact ho.locked
        have hneed := hfilled hlock _ _ (hfound.symm.trans hcons)
        rw [slice_length] at hneed
        rw [hn]
        exact hneed.imp (fun hle => Nat.succ_le_succ hle) (fun hadd => hadd)

theorem Bounded.opened (k : Kernel) : Bounded (.opened k) where
  crashed := rfl
  inputOffset := Nat.zero_le _
  within := ⟨fun _ h => absurd h List.not_mem_nil, fun _ h => absurd h List.not_mem_nil⟩
  outputOffset := Nat.zero_le _

/-- One call. -/
theorem Bounded.step_iff (h : Bounded s) (hclosed : s.closed = false) (hstep : step s c = some t) :
    (InBounds t ↔ WellFilled s.device c) ∧ t.device.handle.outputOffset ≤ userBufCap := by
  obtain ⟨gave, d', d₁, d₂, heq, hbehind, hwork, hquiet⟩ := step_eq hclosed h.crashed c h.inputOffset h.outputOffset
  obtain rfl := Option.some.inj (heq.symm.trans hstep)
  refine ⟨?_, hquiet.outputOffset⟩
  rw [← hwork.within_iff hbehind h.within]
  constructor
  · intro ht
    have hwithin := ht.within
    have hoff := ht.inputOffset
    exact ⟨by rw [← hquiet.trace]; exact hwithin, by rw [← hquiet.inputOffset]; exact hoff⟩
  · rintro ⟨hwithin, hoff⟩
    exact ⟨rfl, by rw [← hquiet.inputOffset] at hoff; exact hoff,
      by rw [← hquiet.trace] at hwithin; exact hwithin⟩

theorem open_of_step (h : step s c = some t) : s.closed = false := by
  by_contra hopen
  rw [step, Bool.eq_true_of_not_eq_false hopen] at h
  cases h

/-- Every call on an open file leaves the bounds in order exactly as long as every
call finds none or enough of the bytes of its first command. -/
theorem input_bounds (k : Kernel) (calls : List Call) :
    Throughout step (fun s c => ∀ t, step s c = some t → InBounds t) (.opened k) calls ↔
      Throughout step (fun s c => s.closed = false → WellFilled s.device c) (.opened k) calls := by
  refine throughout_congr (P := Bounded) (fun s c hs => ?_) (fun s c t hs hfilled hstep => ?_)
    (Bounded.opened k)
  · constructor
    · intro hbounds hclosed
      obtain ⟨gave, d', d₁, d₂, heq, -, -, -⟩ := step_eq hclosed hs.crashed c hs.inputOffset hs.outputOffset
      exact ((hs.step_iff hclosed heq).1).mp (hbounds _ heq)
    · intro hfilled t hstep
      have hclosed := open_of_step hstep
      exact ((hs.step_iff hclosed hstep).1).mpr (hfilled hclosed)
  · have hclosed := open_of_step hstep
    obtain ⟨hiff, hout⟩ := hs.step_iff hclosed hstep
    exact ⟨hiff.mpr (hfilled hclosed), hout⟩

/-- A write of the first byte of a command alone. -/
theorem input_bounds_oneByte :
    ¬ Throughout step (fun s c => ∀ t, step s c = some t → InBounds t)
      (.opened (calmKernel [])) [.write [opDelete]] := by
  intro h
  obtain ⟨gave, d', d₁, d₂, heq, -, -, -⟩ :=
    step_eq (s := .opened (calmKernel [])) rfl rfl (.write [opDelete]) (Nat.zero_le _)
      (Nat.zero_le _)
  have hfilled := (((Bounded.opened (calmKernel [])).step_iff rfl heq).1).mp (h.1 _ heq)
  have htaken : (Session.opened (calmKernel [])).device.pendingInput (.write [opDelete]) =
      [opDelete] := by decide
  rcases hfilled rfl opDelete [] htaken with hlen | ⟨hadd, -⟩
  · exact absurd hlen (by decide)
  · exact absurd hadd (by decide)

/-! ## The commands of a stream -/

/-- The complete commands at the front of a byte stream, and the bytes behind them. -/
def commandsOf : List UInt8 → List (List UInt8) × List UInt8
  | [] => ([], [])
  | op :: rest =>
    if needBytes op ≤ rest.length then
      ((op :: rest.take (needBytes op)) :: (commandsOf (rest.drop (needBytes op))).1,
        (commandsOf (rest.drop (needBytes op))).2)
    else ([], op :: rest)
termination_by bytes => bytes.length
decreasing_by all_goals simp only [List.length_drop, List.length_cons]; omega

def IsCommand (bytes : List UInt8) : Prop :=
  ∃ op args, bytes = op :: args ∧ args.length = needBytes op

@[simp] theorem commandsOf_nil : commandsOf [] = ([], []) := by rw [commandsOf]

theorem commandsOf_complete {op : UInt8} {rest : List UInt8} (h : needBytes op ≤ rest.length) :
    commandsOf (op :: rest) =
      ((op :: rest.take (needBytes op)) :: (commandsOf (rest.drop (needBytes op))).1,
        (commandsOf (rest.drop (needBytes op))).2) := by
  rw [commandsOf, if_pos h]

theorem commandsOf_incomplete {op : UInt8} {rest : List UInt8} (h : rest.length < needBytes op) :
    commandsOf (op :: rest) = ([], op :: rest) := by
  rw [commandsOf, if_neg (Nat.not_le.mpr h)]

theorem commandsOf_command {op : UInt8} {args : List UInt8} (h : args.length = needBytes op) :
    commandsOf (op :: args) = ([op :: args], []) := by
  rw [commandsOf_complete h.ge, ← h, List.take_length, List.drop_length, commandsOf_nil]

/-- A stream that ends with a command can be continued. -/
theorem commandsOf_append {a b : List UInt8} (h : (commandsOf a).2 = []) :
    commandsOf (a ++ b) = ((commandsOf a).1 ++ (commandsOf b).1, (commandsOf b).2) := by
  induction a using commandsOf.induct with
  | case1 => simp
  | case2 op rest hle ih =>
    rw [commandsOf_complete hle] at h ⊢
    have hle' : needBytes op ≤ (rest ++ b).length := by
      rw [List.length_append]
      omega
    rw [List.cons_append, commandsOf_complete hle', List.take_append_of_le_length hle,
      List.drop_append_of_le_length hle, ih h]
    rfl
  | case3 op rest hle =>
    rw [commandsOf_incomplete (Nat.not_le.mp hle)] at h
    cases h

/-- The directory behind a list of commands. -/
def directoryAfterAll (commands : List (List UInt8)) (directory : List Record) : List Record :=
  commands.foldl (fun l command => match command with
    | [] => l
    | op :: args => directoryAfter op args l) directory

/-- The call has carried out the commands that its bytes complete, and keeps the rest. -/
structure Served (s : Session) (c : Call) (t : Session) : Prop where
  crashed : t.crashed = false
  executed : t.device.trace.executed = (commandsOf t.accepted).1
  buffered : t.device.handle.buffered = (commandsOf t.accepted).2
  directory : t.device.kernel.directory = directoryAfterAll
    (t.device.trace.executed.drop s.device.trace.executed.length)
    (c.start s.device.kernel.directory)

/-- A write is refused, empty, or exactly one command. -/
def WholeWrite (s : Session) : Call → Prop
  | .write data => s.device.refuses data = true ∨ data = [] ∨ IsCommand data
  | _ => True

/-- Between the calls of a stream that is served. -/
structure Serving (s : Session) : Prop where
  crashed : s.crashed = false
  granted : Granted s.device.kernel
  inputOffset : s.device.handle.inputOffset = 0
  outputOffset : s.device.handle.outputOffset ≤ userBufCap
  executed : s.device.trace.executed = (commandsOf s.accepted).1
  rest : (commandsOf s.accepted).2 = []

theorem buffered_eq_nil (h : d.handle.inputOffset = 0) : d.handle.buffered = [] := by
  rw [Handle.buffered, h]
  rfl

theorem inputOffset_of_nil (h : d.handle.buffered = []) : d.handle.inputOffset = 0 := by
  rw [← d.handle.buffered_length, h, List.length_nil]

theorem command_length_lt {bytes : List UInt8} (h : IsCommand bytes) :
    bytes.length < userBufCap := by
  obtain ⟨op, args, rfl, hlen⟩ := h
  rw [List.length_cons, hlen]
  unfold needBytes
  split <;> decide

/-- Into an empty buffer goes nothing or a command exactly when that was written. -/
theorem wholeWrite_iff {data : List UInt8} (h : s.device.handle.inputOffset = 0) :
    WholeWrite s (.write data) ↔
      s.device.accepts data = [] ∨ IsCommand (s.device.accepts data) := by
  unfold Device.accepts
  rw [h, Nat.sub_zero]
  by_cases hrefuses : s.device.refuses data = true
  · rw [if_pos hrefuses]
    exact ⟨fun _ => Or.inl rfl, fun _ => Or.inl hrefuses⟩
  · rw [if_neg hrefuses]
    constructor
    · intro hwhole
      rcases Or.resolve_left hwhole hrefuses with rfl | hcommand
      · exact Or.inl List.take_nil
      · rw [List.take_of_length_le (command_length_lt hcommand).le]
        exact Or.inr hcommand
    · rintro (hnil | hcommand)
      · exact Or.inr (Or.inl ((List.take_eq_nil_iff.mp hnil).resolve_left (by decide)))
      · have hlt := command_length_lt hcommand
        rw [List.length_take] at hlt
        rw [List.take_of_length_le (by omega)] at hcommand
        exact Or.inr (Or.inr hcommand)

/-- A call that puts nothing into the buffer. -/
theorem Serving.idle (h : Serving s) {l : List Record}
    (hbehind : Behind (c.start l) [] s.device d₁) (hwork : Work c s.device d₁ d₂)
    (hquiet : Quiet d₂ d') :
    d'.trace.executed = s.device.trace.executed ∧ d'.kernel.directory = c.start l ∧
      Granted d'.kernel ∧ d'.handle.inputOffset = 0 := by
  have hzero : d₁.handle.inputOffset = 0 := by
    refine inputOffset_of_nil ?_
    rw [hbehind.buffered, buffered_eq_nil h.inputOffset, List.append_nil]
  have hgranted : Granted d₁.kernel :=
    ⟨by rw [hbehind.allocs]; exact h.granted.allocs, by rw [hbehind.locks]; exact h.granted.locks⟩
  have hsettled : Settled d₁ d₂ → d'.trace.executed = s.device.trace.executed ∧
      d'.kernel.directory = c.start l ∧ Granted d'.kernel ∧ d'.handle.inputOffset = 0 := by
    intro hs
    refine ⟨?_, ?_, ⟨?_, ?_⟩, ?_⟩
    · rw [hquiet.trace, hs.executed, hbehind.trace]
    · rw [hquiet.directory, hs.directory, hbehind.directory]
    · rw [hquiet.allocs, hs.allocs]
      exact hgranted.allocs
    · rw [hquiet.locks, hs.locks]
      exact fun n => hgranted.locks (n + 1)
    · rw [hquiet.inputOffset, hs.inputOffset, hzero]
  cases hwork with
  | skipped _ same =>
    subst same
    refine ⟨?_, ?_, ⟨?_, ?_⟩, ?_⟩
    · rw [hquiet.trace, hbehind.trace]
    · rw [hquiet.directory, hbehind.directory]
    · rw [hquiet.allocs]
      exact hgranted.allocs
    · rw [hquiet.locks]
      exact hgranted.locks
    · rw [hquiet.inputOffset, hzero]
  | settled _ hs => exact hsettled hs
  | pass _ hpass =>
    cases hpass with
    | idle _ hs => exact hsettled hs
    | operated hbusy _ => exact absurd (Or.inl hzero) hbusy

/-- A call that puts bytes into the buffer: the pass over the buffers looks at them. -/
theorem Serving.busy (h : Serving s) {op : UInt8} {args : List UInt8}
    (htaken : s.device.taken c = op :: args)
    (hbehind : Behind (c.start s.device.kernel.directory) (op :: args) s.device d₁)
    (hwork : Work c s.device d₁ d₂) :
    d₁.handle.inputBuf 0 = op ∧ d₁.handle.inputOffset = args.length + 1 ∧
      Granted d₁.kernel ∧ Pass d₁ d₂ := by
  have hbuffered : d₁.handle.buffered = op :: args := by
    rw [hbehind.buffered, buffered_eq_nil h.inputOffset, List.nil_append]
  obtain ⟨hop, hlen⟩ := buffered_cons hbuffered
  have hpending : s.device.pendingInput c ≠ [] := by
    cases c with
    | write data =>
      have hsome : s.device.accepts data = op :: args := htaken
      rw [Device.pendingInput, hsome, if_neg (List.cons_ne_nil _ _)]
      simp
    | read => cases htaken
    | release => cases htaken
    | others => cases htaken
  refine ⟨hop, hlen, ⟨by rw [hbehind.allocs]; exact h.granted.allocs, by
    rw [hbehind.locks]; exact h.granted.locks⟩, ?_⟩
  cases hwork with
  | skipped hnil => exact absurd hnil hpending
  | settled hnil => exact absurd hnil hpending
  | pass _ hpass => exact hpass

/-- Bytes that are put into an empty buffer were a whole write exactly when they are a command. -/
theorem wholeWrite_cons_iff (h : s.device.handle.inputOffset = 0) {op : UInt8} {args : List UInt8}
    (htaken : s.device.taken c = op :: args) : WholeWrite s c ↔ args.length = needBytes op := by
  cases c with
  | write data =>
    have hsome : s.device.accepts data = op :: args := htaken
    rw [wholeWrite_iff h, hsome]
    constructor
    · rintro (hnil | ⟨op', args', hcons, hlength⟩)
      · cases hnil
      · obtain ⟨rfl, rfl⟩ := List.cons.inj hcons
        exact hlength
    · exact fun hlength => Or.inr ⟨op, args, rfl, hlength⟩
  | read => cases htaken
  | release => cases htaken
  | others => cases htaken

/-- A call that puts nothing into the buffer is served. -/
theorem Serving.after_idle (h : Serving s) (gave : List UInt8)
    (hbehind : Behind (c.start s.device.kernel.directory) [] s.device d₁)
    (hwork : Work c s.device d₁ d₂) (hquiet : Quiet d₂ d') :
    Served s c (s.after c d' [] gave) ∧ Serving (s.after c d' [] gave) := by
  obtain ⟨hexecuted, hdirectory, hgranted, hoff⟩ := h.idle hbehind hwork hquiet
  have hall : (s.after c d' [] gave).device.trace.executed =
      (commandsOf (s.after c d' [] gave).accepted).1 := by
    simp only [Session.after, List.append_nil]
    rw [hexecuted, h.executed]
  have hserved : Served s c (s.after c d' [] gave) := {
    crashed := rfl
    executed := hall
    buffered := by
      simp only [Session.after, List.append_nil]
      rw [buffered_eq_nil hoff, h.rest]
    directory := by
      simp only [Session.after]
      rw [hexecuted, List.drop_length, hdirectory]
      rfl }
  exact ⟨hserved, rfl, hgranted, hoff, hquiet.outputOffset, hall, by
    simp only [Session.after, List.append_nil]
    exact h.rest⟩

/-- One command in an empty buffer is carried out. -/
theorem Serving.after_command (h : Serving s) (gave : List UInt8) {op : UInt8} {args : List UInt8}
    {r : Except Errno Unit}
    (hbehind : Behind (c.start s.device.kernel.directory) (op :: args) s.device d₁)
    (hop : d₁.handle.inputBuf 0 = op) (hlen : d₁.handle.inputOffset = args.length + 1)
    (hgranted : Granted d₁.kernel) (ho : Operated d₁ r d₂) (hquiet : Quiet d₂ d')
    (hcommand : args.length = needBytes op) :
    Served s c (s.after c d' (op :: args) gave) ∧ Serving (s.after c d' (op :: args) gave) := by
  obtain ⟨hallocs, hres, hdirectory, -⟩ := ho.granted hgranted.allocs
  obtain ⟨hoff, -, hexecuted⟩ := ho.returned hres
  have hbuffered : d₁.handle.buffered = op :: args := by
    rw [hbehind.buffered, buffered_eq_nil h.inputOffset, List.nil_append]
  have hslice : slice d₁.handle.inputBuf 0 (needBytes (d₁.handle.inputBuf 0) + 1) = op :: args := by
    rw [← hbuffered, Handle.buffered, hop, hlen, hcommand]
  have hargs : slice d₁.handle.inputBuf 1 (needBytes (d₁.handle.inputBuf 0)) = args :=
    (List.cons.inj hslice).2
  rw [hslice, hbehind.trace] at hexecuted
  rw [hargs, hop, hbehind.directory] at hdirectory
  have hzero : d'.handle.inputOffset = 0 := by
    rw [hquiet.inputOffset, hoff, hlen, hop, hcommand, wsub_of_le (Nat.le_refl _)
      (needBytes_lt op), Nat.sub_self]
  have haccepted := commandsOf_append (b := op :: args) h.rest
  rw [commandsOf_command hcommand] at haccepted
  have hall : (s.after c d' (op :: args) gave).device.trace.executed =
      (commandsOf (s.after c d' (op :: args) gave).accepted).1 := by
    simp only [Session.after]
    rw [hquiet.trace, hexecuted, haccepted, h.executed]
  have hserved : Served s c (s.after c d' (op :: args) gave) := {
    crashed := rfl
    executed := hall
    buffered := by
      simp only [Session.after]
      rw [buffered_eq_nil hzero, haccepted]
    directory := by
      simp only [Session.after]
      rw [hquiet.trace, hexecuted, List.drop_left, hquiet.directory, hdirectory]
      rfl }
  refine ⟨hserved, {
    crashed := rfl
    granted := ⟨by rw [Session.after, hquiet.allocs]; exact hallocs, by
      rw [Session.after, hquiet.locks, ho.locks]; exact fun n => hgranted.locks (n + 1)⟩
    inputOffset := hzero
    outputOffset := hquiet.outputOffset
    executed := hall
    rest := by
      simp only [Session.after]
      rw [haccepted] }⟩

/-- Where memory and locks are granted, bytes are left alone only for being too many. -/
theorem needBytes_lt_of_idle (hidle : d₁.Idle) (hgranted : Granted d₁.kernel) {op : UInt8}
    {args : List UInt8} (hop : d₁.handle.inputBuf 0 = op)
    (hlen : d₁.handle.inputOffset = args.length + 1) : needBytes op < args.length := by
  rcases hidle with hzero | hlt | hint
  · omega
  · rw [hop, hlen] at hlt
    omega
  · rw [hgranted.locks 0] at hint
    cases hint

/-- Less or more than one command is not served: the pass carries out one command if
at most its bytes wait, and nothing otherwise. -/
theorem Serving.not_served (h : Serving s) {op : UInt8} {args gave : List UInt8}
    (hbehind : Behind (c.start s.device.kernel.directory) (op :: args) s.device d₁)
    (hop : d₁.handle.inputBuf 0 = op) (hlen : d₁.handle.inputOffset = args.length + 1)
    (hgranted : Granted d₁.kernel) (hpass : Pass d₁ d₂) (hquiet : Quiet d₂ d')
    (hne : args.length ≠ needBytes op) : ¬ Served s c (s.after c d' (op :: args) gave) := by
  intro hserved
  have haccepted := commandsOf_append (b := op :: args) h.rest
  have hexecuted := hserved.executed
  simp only [Session.after] at hexecuted
  cases hpass with
  | idle hidle hs =>
    have hmore := (needBytes_lt_of_idle hidle hgranted hop hlen).le
    rw [hquiet.trace, hs.executed, hbehind.trace, haccepted, h.executed,
      commandsOf_complete hmore, List.self_eq_append_right] at hexecuted
    cases hexecuted
  | operated hbusy ho =>
    obtain ⟨-, hres, -, -⟩ := ho.granted hgranted.allocs
    obtain ⟨-, -, hcarried⟩ := ho.returned hres
    have hle := ho.le
    rw [hop, hlen] at hle
    rw [hquiet.trace, hcarried, hbehind.trace, haccepted, h.executed,
      commandsOf_incomplete (by omega), List.append_nil, List.append_right_eq_self] at hexecuted
    cases hexecuted

/-- One call of a stream that was served so far. -/
theorem Serving.step_iff (h : Serving s) (hclosed : s.closed = false) (hstep : step s c = some t) :
    (Served s c t ↔ WholeWrite s c) ∧ (WholeWrite s c → Serving t) := by
  obtain ⟨gave, d', d₁, d₂, heq, hbehind, hwork, hquiet⟩ :=
    step_eq hclosed h.crashed c (by rw [h.inputOffset]; exact Nat.zero_le _) h.outputOffset
  obtain rfl := Option.some.inj (heq.symm.trans hstep)
  cases htaken : s.device.taken c with
  | nil =>
    rw [htaken] at hbehind
    obtain ⟨hserved, hserving⟩ := h.after_idle gave hbehind hwork hquiet
    have hwhole : WholeWrite s c := by
      cases c with
      | write data => exact (wholeWrite_iff h.inputOffset).mpr (Or.inl htaken)
      | read => trivial
      | release => trivial
      | others => trivial
    exact ⟨iff_of_true hserved hwhole, fun _ => hserving⟩
  | cons op args =>
    rw [htaken] at hbehind
    obtain ⟨hop, hlen, hgranted, hpass⟩ := h.busy htaken hbehind hwork
    rw [wholeWrite_cons_iff h.inputOffset htaken]
    by_cases hcommand : args.length = needBytes op
    · cases hpass with
      | idle hidle _ =>
        exact absurd hcommand (needBytes_lt_of_idle hidle hgranted hop hlen).ne'
      | operated hbusy ho =>
        obtain ⟨hserved, hserving⟩ := h.after_command gave hbehind hop hlen hgranted ho hquiet hcommand
        exact ⟨iff_of_true hserved hcommand, fun _ => hserving⟩
    · exact ⟨iff_of_false (h.not_served hbehind hop hlen hgranted hpass hquiet hcommand) hcommand,
        fun hc => absurd hc hcommand⟩

theorem Serving.opened {k : Kernel} (h : Granted k) : Serving (.opened k) where
  crashed := rfl
  granted := h
  inputOffset := rfl
  outputOffset := Nat.zero_le _
  executed := by
    rw [Session.opened, commandsOf_nil]
    rfl
  rest := by
    rw [Session.opened, commandsOf_nil]

/-- Every call carries out the commands that its bytes complete, and no other ones,
exactly as long as every write is refused, empty, or one command. -/
theorem input_stream (k : Kernel) (hk : Granted k) (calls : List Call) :
    Throughout step (fun s c => ∀ t, step s c = some t → Served s c t) (.opened k) calls ↔
      Throughout step (fun s c => s.closed = false → WholeWrite s c) (.opened k) calls := by
  refine throughout_congr (P := Serving) (fun s c hs => ?_) (fun s c t hs hwhole hstep => ?_)
    (Serving.opened hk)
  · constructor
    · intro hserved hclosed
      obtain ⟨gave, d', d₁, d₂, heq, -, -, -⟩ := step_eq hclosed hs.crashed c
        (by rw [hs.inputOffset]; exact Nat.zero_le _) hs.outputOffset
      exact ((hs.step_iff hclosed heq).1).mp (hserved _ heq)
    · intro hwhole t hstep
      have hclosed := open_of_step hstep
      exact ((hs.step_iff hclosed hstep).1).mpr (hwhole hclosed)
  · have hclosed := open_of_step hstep
    exact (hs.step_iff hclosed hstep).2 (hwhole hclosed)

theorem input_stream_twoCalls :
    Throughout step (fun s c => ∀ t, step s c = some t → Served s c t) (.opened (calmKernel []))
      [.write (opDelete :: shortName 65), .release] :=
  (input_stream (calmKernel []) (calmKernel_granted []) _).mpr
    ⟨fun _ => .inr (.inr ⟨opDelete, shortName 65, rfl, by simp only [shortName, List.length_cons, List.length_replicate]; decide⟩),
      fun _ _ => ⟨fun _ => trivial, fun _ _ => trivial⟩⟩

/-- The first byte of a command in a write of its own is a command of its own. -/
theorem input_stream_oneByte :
    ¬ Throughout step (fun s c => ∀ t, step s c = some t → Served s c t)
      (.opened (calmKernel [])) [.write [opDelete]] := by
  intro h
  have hs := Serving.opened (calmKernel_granted [])
  obtain ⟨gave, d', d₁, d₂, heq, -, -, -⟩ := step_eq (s := .opened (calmKernel [])) rfl rfl
    (.write [opDelete]) (Nat.zero_le _) (Nat.zero_le _)
  have hwhole := ((hs.step_iff rfl heq).1).mp (h.1 _ heq)
  rcases (wholeWrite_iff rfl).mp hwhole with hnil | ⟨op, args, hcons, hlength⟩
  · exact absurd hnil (by decide)
  · have haccepts : (Session.opened (calmKernel [])).device.accepts [opDelete] = [opDelete] := by
      decide
    rw [haccepts] at hcons
    obtain ⟨rfl, rfl⟩ := List.cons.inj hcons
    exact absurd hlength (by decide)

end KisLinux.Phonedir
