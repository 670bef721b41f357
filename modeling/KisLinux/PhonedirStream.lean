import KisLinux.EventRun
import KisLinux.PhonedirOutput

/-!
# One open file of the directory device

A session is the life of one handle: calls of its owner one after the other, and
changes that others make to the directory between them. The second half follows
the output side: whatever is read and however the directory changes, the records
found come out of the handle once and in order.
-/
namespace KisLinux.Phonedir
open Fs ByteMemory StateRun EventRun

inductive Call
  | write (data : List UInt8)
  | read (len : ℕ)
  | release
  /-- Somebody else leaves this directory behind. -/
  | others (directory : List Record)

/-- `accepted` and `delivered` are the bytes that went in and out so far. -/
structure Session where
  device : Device
  accepted : List UInt8
  delivered : List UInt8
  closed : Bool
  crashed : Bool

/-- The handle as `dev_open` leaves it. -/
def Session.opened (k : Kernel) : Session where
  device := ⟨k, .zeroed, .empty⟩
  accepted := []
  delivered := []
  closed := false
  crashed := false

/-- A call with the bytes it takes and the bytes it gives. -/
def call : Call → DeviceM (List UInt8 × List UInt8)
  | .write data => do
    let r ← devWrite data
    return (takenOver data r, [])
  | .read len => do
    let r ← devRead len
    return ([], handedOver r)
  | .release => do
    devRelease
    return ([], [])
  | .others directory => do
    modify fun d => { d with kernel := { d.kernel with directory := directory } }
    return ([], [])

def Call.closes : Call → Bool
  | .release => true
  | _ => false

def Session.after (s : Session) (c : Call) (d : Device) (took gave : List UInt8) : Session where
  device := d
  accepted := s.accepted ++ took
  delivered := s.delivered ++ gave
  closed := c.closes
  crashed := false

/-- There are no calls on a closed file, and none in a crashed kernel. -/
def step (s : Session) (c : Call) : Option Session :=
  if s.closed || s.crashed then none
  else match call c s.device with
    | .ok (took, gave) d => some (s.after c d took gave)
    | .error _ d => some { s with device := d, crashed := true }

variable {s t : Session} {c : Call} {d d' : Device}

theorem step_ok {took gave : List UInt8} (hclosed : s.closed = false) (hcrashed : s.crashed = false)
    (h : call c s.device = .ok (took, gave) d) : step s c = some (s.after c d took gave) := by
  simp only [step, hclosed, hcrashed, h, Bool.or_self, Bool.false_eq_true, if_false]

/-! ## Processing adds to the stream -/

/-- What any pass over the buffers does to the output side. -/
structure Advanced (d d' : Device) : Prop where
  outputOffset : d'.handle.outputOffset ≤ userBufCap
  stream : ∃ found, d'.handle.remaining = d.handle.remaining ++ recordBytes found ∧
    d'.trace.spliced = d.trace.spliced ++ found
  empty : d.kernel.locks 0 = true →
    d'.handle.outputOffset = 0 → d'.handle.pendingOutput = []

theorem Settled.advanced (h : Settled d d') : Advanced d d' where
  outputOffset := h.outputOffset
  stream := ⟨[], by simp [h.remaining], by simp [h.spliced]⟩
  empty := h.empty

theorem Operated.advanced {res : Except Errno Unit} (h : Operated d res d') : Advanced d d' where
  outputOffset := h.outputOffset
  stream := h.stream
  empty _ := h.empty

/-- Only find commands went in; where one is not carried out at once, more may
pile up behind it. -/
structure Waiting (d : Device) : Prop where
  inputOffset : d.handle.inputOffset ≤ userBufCap
  outputOffset : d.handle.outputOffset ≤ userBufCap
  first : d.handle.inputOffset = 0 ∨
    d.handle.inputBuf 0 = opFind ∧ phonedirNameLen + 1 ≤ d.handle.inputOffset

theorem Waiting.process (h : Waiting d) :
    ∃ res d', handleProcessBuffers d = .ok res d' ∧ Waiting d' ∧ Advanced d d' := by
  by_cases hsettled : d.handle.inputOffset = 0 ∨
      needBytes (d.handle.inputBuf 0) + 1 < d.handle.inputOffset ∨ d.kernel.locks 0 = false
  · obtain ⟨res, d', hrun, hd⟩ :=
      handleProcessBuffers_settled h.inputOffset h.outputOffset hsettled
    refine ⟨res, d', hrun, ⟨?_, hd.outputOffset, ?_⟩, hd.advanced⟩
    · rw [hd.inputOffset]
      exact h.inputOffset
    · rw [hd.inputOffset, hd.inputBuf]
      exact h.first
  · rw [not_or, not_or, Bool.not_eq_false] at hsettled
    obtain ⟨hpos, hle, hlock⟩ := hsettled
    obtain ⟨hfirst, hlen⟩ := h.first.resolve_left hpos
    obtain ⟨res, d', hrun, hd⟩ := handleProcessBuffers_operated (Nat.pos_of_ne_zero hpos)
      h.inputOffset h.outputOffset (Nat.not_lt.mp hle) hlock
    refine ⟨res, d', hrun, ?_, hd.advanced⟩
    have hneed : needBytes (d.handle.inputBuf 0) = phonedirNameLen := by rw [hfirst]; rfl
    cases res with
    | error e =>
      obtain ⟨hoff, -, -⟩ := hd.failed e rfl
      refine ⟨by rw [hoff]; exact h.inputOffset, hd.outputOffset, Or.inr ⟨?_, ?_⟩⟩
      · rw [hd.first, hfirst]
      · rw [hoff]
        exact hlen
    | ok u =>
      -- exactly one command was there, and it is gone
      have hall : d.handle.inputOffset = needBytes (d.handle.inputBuf 0) + 1 := by omega
      have hzero : d'.handle.inputOffset = 0 := by
        rw [(hd.returned rfl).1, hall, wsub_of_le (Nat.le_refl _) (needBytes_lt _), Nat.sub_self]
      exact ⟨by rw [hzero]; exact Nat.zero_le _, hd.outputOffset, Or.inl hzero⟩

/-- Behind the bytes that a write of a find command leaves there. -/
theorem Waiting.stored {data name : List UInt8} (h : Waiting d) (hname : name.length = phonedirNameLen)
    (hdata : data = d.accepts (opFind :: name)) (hd : Stored data d d') : Waiting d' := by
  have hout : d'.handle.outputOffset ≤ userBufCap := by
    rw [hd.outputOffset]
    exact h.outputOffset
  refine ⟨hd.inputOffset_le, hout, ?_⟩
  by_cases hnone : d'.handle.inputOffset = 0
  · exact Or.inl hnone
  · refine Or.inr ?_
    obtain ⟨n, hn⟩ := Nat.exists_eq_succ_of_ne_zero hnone
    have hbuffered := hd.buffered
    rw [buffered_first _ hn] at hbuffered
    rcases h.first with hzero | ⟨hfirst, hlen⟩
    · have hnil : d.handle.buffered = [] := by rw [Handle.buffered, hzero]; rfl
      rw [hnil, List.nil_append] at hbuffered
      have htake : data = opFind :: name := by
        have hcases : data = [] ∨ data = opFind :: name := by
          rw [hdata, Device.accepts, hzero, Nat.sub_zero]
          split_ifs
          · exact Or.inl rfl
          · refine Or.inr (List.take_of_length_le ?_)
            rw [List.length_cons, hname]
            decide
        refine hcases.resolve_left fun hempty => ?_
        rw [hempty] at hbuffered
        cases hbuffered
      rw [htake] at hbuffered
      refine ⟨(List.cons.inj hbuffered).1, ?_⟩
      rw [hd.inputOffset, htake, List.length_cons, hname]
      omega
    · have hold : d.handle.inputOffset ≠ 0 := by
        intro hzero
        rw [hzero] at hlen
        cases hlen
      obtain ⟨m, hm⟩ := Nat.exists_eq_succ_of_ne_zero hold
      rw [buffered_first _ hm, List.cons_append] at hbuffered
      refine ⟨(List.cons.inj hbuffered).1.trans hfirst, ?_⟩
      rw [hd.inputOffset]
      omega

/-! ## The output stream of a session -/

/-- The calls of the stream: reads, and find commands written whole. -/
def Call.InStream : Call → Prop
  | .write data => ∃ name, data = opFind :: name ∧ name.length = phonedirNameLen
  | .read _ => True
  | .release => False
  | .others _ => True

structure Streaming (s : Session) : Prop where
  closed : s.closed = false
  crashed : s.crashed = false
  waiting : Waiting s.device
  conserved : s.delivered ++ s.device.handle.remaining = recordBytes s.device.trace.spliced

theorem Streaming.opened (k : Kernel) : Streaming (.opened k) where
  closed := rfl
  crashed := rfl
  waiting := ⟨Nat.zero_le _, Nat.zero_le _, Or.inl rfl⟩
  conserved := rfl

theorem Advanced.conserved (h : Advanced d d') {delivered : List UInt8}
    (hd : delivered ++ d.handle.remaining = recordBytes d.trace.spliced) :
    delivered ++ d'.handle.remaining = recordBytes d'.trace.spliced := by
  obtain ⟨found, hremaining, hspliced⟩ := h.stream
  rw [hremaining, hspliced, recordBytes_append, ← List.append_assoc, hd]

theorem Streaming.write {data name : List UInt8} (h : Streaming s) (hdata : data = opFind :: name)
    (hname : name.length = phonedirNameLen) : ∃ t, step s (.write data) = some t ∧ Streaming t := by
  subst hdata
  suffices hcall : ∃ took d', call (.write (opFind :: name)) s.device = .ok (took, []) d' ∧
      Waiting d' ∧ s.delivered ++ d'.handle.remaining = recordBytes d'.trace.spliced by
    obtain ⟨took, d', hrun, hwaiting, hconserved⟩ := hcall
    refine ⟨_, step_ok h.closed h.crashed hrun, rfl, rfl, hwaiting, ?_⟩
    rwa [Session.after, List.append_nil]
  by_cases haccepts : s.device.accepts (opFind :: name) = []
  · obtain ⟨r, d', hrun, -, hd⟩ :=
      devWrite_none h.waiting.inputOffset h.waiting.outputOffset haccepts
    refine ⟨_, d', (bind_of_ok hrun).trans (pure_run _ _), ?_⟩
    rcases hd with hd | hd
    · refine ⟨h.waiting.stored hname haccepts.symm hd, ?_⟩
      rw [hd.remaining, hd.trace]
      exact h.conserved
    · refine ⟨⟨?_, hd.outputOffset, ?_⟩, hd.advanced.conserved h.conserved⟩
      · rw [hd.inputOffset]
        exact h.waiting.inputOffset
      · rw [hd.inputOffset, hd.inputBuf]
        exact h.waiting.first
  · obtain ⟨d₁, hstored, hrest⟩ := devWrite_some h.waiting.inputOffset haccepts
    obtain ⟨res, d', hprocess, hwaiting, hadvanced⟩ := (h.waiting.stored hname rfl hstored).process
    have hrun := hrest res d' hprocess
    refine ⟨_, d', (bind_of_ok hrun).trans (pure_run _ _), hwaiting, hadvanced.conserved ?_⟩
    rw [hstored.remaining, hstored.trace]
    exact h.conserved

/-- A read of the stream, and what it means that it gives nothing. -/
theorem Streaming.devRead (h : Streaming s) (len : ℕ) :
    ∃ r d', devRead len s.device = .ok r d' ∧ Waiting d' ∧
      s.delivered ++ handedOver r ++ d'.handle.remaining = recordBytes d'.trace.spliced ∧
      (s.device.kernel.locks 0 = true → 0 < len → r = .ok [] →
        d'.handle.outputOffset = 0 ∧ d'.handle.pendingOutput = []) := by
  obtain ⟨res, d₁, hprocess, hwaiting, hadvanced⟩ := h.waiting.process
  obtain ⟨r, d', hrun, hdrained⟩ := devRead_run len hprocess hwaiting.outputOffset
  refine ⟨r, d', hrun, ⟨?_, hdrained.outputOffset, ?_⟩, ?_, fun hlock hlen hr => ?_⟩
  · rw [hdrained.inputOffset]
    exact hwaiting.inputOffset
  · rw [hdrained.inputOffset, hdrained.inputBuf]
    exact hwaiting.first
  · rw [List.append_assoc, hdrained.remaining, hdrained.trace]
    exact hadvanced.conserved h.conserved
  · obtain ⟨hfilled, hleft⟩ := hdrained.empty hlen hr
    rw [hdrained.pendingOutput]
    exact ⟨hleft, hadvanced.empty hlock hfilled⟩

theorem Streaming.step (h : Streaming s) (hc : c.InStream) :
    ∃ t, step s c = some t ∧ Streaming t := by
  cases c with
  | write data =>
    obtain ⟨name, hdata, hname⟩ := hc
    exact h.write hdata hname
  | read len =>
    obtain ⟨r, d', hrun, hwaiting, hconserved, -⟩ := h.devRead len
    exact ⟨_, step_ok h.closed h.crashed ((bind_of_ok hrun).trans (pure_run _ _)), rfl, rfl,
      hwaiting, hconserved⟩
  | release => exact hc.elim
  | others directory =>
    refine ⟨_, step_ok h.closed h.crashed rfl, rfl, rfl, ?_, ?_⟩
    · exact ⟨h.waiting.inputOffset, h.waiting.outputOffset, h.waiting.first⟩
    · have hconserved := h.conserved
      rw [← List.append_nil s.delivered] at hconserved
      exact hconserved

theorem Streaming.run {calls : List Call} (h : Streaming s) (hcalls : ∀ c ∈ calls, c.InStream) :
    ∃ t, run Phonedir.step s calls = some t ∧ Streaming t := by
  induction calls generalizing s with
  | nil => exact ⟨s, rfl, h⟩
  | cons c calls ih =>
    obtain ⟨hc, hrest⟩ := List.forall_mem_cons.mp hcalls
    obtain ⟨t, hstep, ht⟩ := h.step hc
    obtain ⟨u, hrun, hu⟩ := ih ht hrest
    exact ⟨u, run_cons.mpr ⟨t, hstep, hrun⟩, hu⟩

/-- Nothing is lost, repeated or reordered between the pending list and the reader,
and a reader that is given nothing has had everything. -/
theorem output_stream (k : Kernel) (calls : List Call) (hcalls : ∀ c ∈ calls, c.InStream) :
    ∃ s, run step (.opened k) calls = some s ∧ s.crashed = false ∧
      s.device.handle.outputOffset ≤ userBufCap ∧
      s.delivered ++ slice s.device.handle.outputBuf 0 s.device.handle.outputOffset ++
        recordBytes s.device.handle.pendingOutput = recordBytes s.device.trace.spliced ∧
      ∀ len, 0 < len → s.device.kernel.locks 0 = true →
        ∀ d, devRead len s.device = .ok (.ok []) d →
          d.handle.outputOffset = 0 ∧ d.handle.pendingOutput = [] := by
  obtain ⟨s, hrun, hs⟩ := (Streaming.opened k).run hcalls
  refine ⟨s, hrun, hs.crashed, hs.waiting.outputOffset, ?_, fun len hlen hlock d hread => ?_⟩
  · rw [List.append_assoc]
    exact hs.conserved
  · obtain ⟨r, d', hread', -, -, hempty⟩ := hs.devRead len
    obtain ⟨hr, rfl⟩ := EStateM.Result.ok.inj (hread'.symm.trans hread)
    exact hempty hlock hlen hr

/-- A record that is found is delivered by two reads. -/
theorem output_stream_two_reads :
    ∃ s t, run step (.opened (calmKernel []))
        [.others [shortRecord 65], .write (opFind :: shortName 65), .read 100] = some s ∧
      run step s [.read 1000] = some t ∧ s.delivered = (shortRecord 65).bytes.take 100 ∧
      t.delivered = (shortRecord 65).bytes ∧ t.crashed = false ∧
      t.delivered ++ slice t.device.handle.outputBuf 0 t.device.handle.outputOffset ++
        recordBytes t.device.handle.pendingOutput = recordBytes t.device.trace.spliced := by
  have hreads : (run step (.opened (calmKernel []))
      [.others [shortRecord 65], .write (opFind :: shortName 65), .read 100]).any (fun s =>
        s.delivered == (shortRecord 65).bytes.take 100 &&
          (run step s [.read 1000]).any fun t => t.delivered == (shortRecord 65).bytes) = true := by
    decide +kernel
  obtain ⟨s, hs, hrest⟩ := (Option.any_eq_true _ _).mp hreads
  obtain ⟨hfirst, hrest⟩ := Bool.and_eq_true_iff.mp hrest
  obtain ⟨t, ht, hsecond⟩ := (Option.any_eq_true _ _).mp hrest
  have hcalls : ∀ c ∈ [Call.others [shortRecord 65], .write (opFind :: shortName 65), .read 100,
      .read 1000], c.InStream := by
    intro c hc
    simp only [List.mem_cons, List.not_mem_nil, or_false] at hc
    rcases hc with rfl | rfl | rfl | rfl
    · trivial
    · exact ⟨shortName 65, rfl, rfl⟩
    · trivial
    · trivial
  obtain ⟨u, hu, hcrashed, -, hconserved, -⟩ := output_stream (calmKernel []) _ hcalls
  have hwhole := run_append.mpr ⟨s, hs, ht⟩
  obtain rfl := Option.some.inj (hwhole.symm.trans hu)
  exact ⟨s, t, hs, ht, eq_of_beq hfirst, eq_of_beq hsecond, hcrashed, hconserved⟩

end KisLinux.Phonedir
