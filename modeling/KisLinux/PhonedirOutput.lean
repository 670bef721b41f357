import KisLinux.PhonedirInput

/-!
# The two buffers and the calls on them

Records leave the pending list for `output_buf` only when a whole one fits, and
reads take bytes off the front. What is still to be delivered through a handle is
what lies in the buffer and then what is pending, and only reads make it shorter.
-/
namespace KisLinux.Phonedir
open Fs ByteMemory StateRun

variable {d d' : Device}

def recordBytes (l : List Record) : List UInt8 := l.flatMap (·.bytes)

@[simp] theorem recordBytes_nil : recordBytes [] = [] := rfl

@[simp] theorem recordBytes_cons (r : Record) (l : List Record) :
    recordBytes (r :: l) = r.bytes ++ recordBytes l := List.flatMap_cons

@[simp] theorem recordBytes_append (l l' : List Record) :
    recordBytes (l ++ l') = recordBytes l ++ recordBytes l' := List.flatMap_append

namespace Handle

/-- The bytes still to be delivered, in order. -/
def remaining (h : Handle) : List UInt8 :=
  slice h.outputBuf 0 h.outputOffset ++ recordBytes h.pendingOutput

/-- The bytes of the commands that are waiting. -/
def buffered (h : Handle) : List UInt8 := slice h.inputBuf 0 h.inputOffset

@[simp] theorem buffered_length (h : Handle) : h.buffered.length = h.inputOffset :=
  slice_length _ _ _

end Handle

@[simp] theorem Device.consumed_remaining (d : Device) (c : List UInt8) (l r left : ℕ) :
    (d.consumed c l r left).handle.remaining = d.handle.remaining := rfl

theorem wsub_of_le {a b : ℕ} (h : b ≤ a) (ha : a ≤ userBufCap) : wsub a b = a - b := by
  have hword : a < wordSize := lt_of_le_of_lt ha (by decide)
  rw [wsub, Nat.sub_add_comm h, Nat.add_mod_right, Nat.mod_eq_of_lt (by omega)]

/-- A record goes behind what the buffer holds. -/
theorem slice_blit_append (m : Memory) (i : ℕ) (b : List UInt8) :
    slice (blit m i b) 0 (i + b.length) = slice m 0 i ++ b := by
  have h : slice (blit m i b) 0 i = slice m 0 i := slice_blit_of_disjoint m (Or.inl (by omega))
  rw [slice_add, h, Nat.zero_add, slice_blit_self]

/-- What was read and what the `memmove` left are what the buffer held. -/
theorem slice_moved (m : Memory) {c n : ℕ} (h : c ≤ n) :
    slice m 0 c ++ slice (if c ≠ n then blit m 0 (slice m c (n - c)) else m) 0 (n - c) =
      slice m 0 n := by
  have hmoved : slice (if c ≠ n then blit m 0 (slice m c (n - c)) else m) 0 (n - c) =
      slice m c (n - c) := by
    split_ifs with hc
    · have hself := slice_blit_self m 0 (slice m c (n - c))
      rwa [slice_length] at hself
    · rw [show n - c = 0 by omega]
      rfl
  have hsplit := slice_add m 0 c (n - c)
  rw [Nat.zero_add, Nat.add_sub_cancel' h] at hsplit
  rw [hmoved, hsplit]

/-! ## Filling the output buffer -/

theorem outputLoop_run (l : List Record) {i : ℕ} (buf : Memory) (h : i ≤ userBufCap) :
    ∃ rest j buf', outputLoop l i buf = .ok (rest, j, buf') ∧ j ≤ userBufCap ∧
      slice buf' 0 j ++ recordBytes rest = slice buf 0 i ++ recordBytes l ∧
      (j < recSize → rest = []) := by
  induction l generalizing i buf with
  | nil => exact ⟨[], i, buf, rfl, h, rfl, fun _ => rfl⟩
  | cons r l ih =>
    unfold outputLoop
    rw [wsub_of_le h (Nat.le_refl _)]
    by_cases hfit : userBufCap - i < recSize
    · have hi : ¬ i < recSize := by
        unfold userBufCap recSize at *
        omega
      exact ⟨r :: l, i, buf, if_pos hfit, h, rfl, fun hlt => absurd hlt hi⟩
    · have hle : i + recSize ≤ userBufCap := by omega
      obtain ⟨rest, j, buf', hrun, hj, hbytes, hrest⟩ := ih (blit buf i r.bytes) hle
      refine ⟨rest, j, buf', by rwa [if_neg hfit, if_pos hle], hj, ?_, hrest⟩
      rw [hbytes, ← r.length_eq, slice_blit_append, recordBytes_cons, List.append_assoc]

/-- `d'` is `d` with the output buffer filled up. -/
structure Filled (d d' : Device) : Prop where
  kernel : d'.kernel = d.kernel
  trace : d'.trace = d.trace
  inputBuf : d'.handle.inputBuf = d.handle.inputBuf
  inputOffset : d'.handle.inputOffset = d.handle.inputOffset
  outputOffset : d'.handle.outputOffset ≤ userBufCap
  remaining : d'.handle.remaining = d.handle.remaining
  empty : d'.handle.outputOffset = 0 → d'.handle.pendingOutput = []

theorem handleProcessOutputBuffers_run (h : d.handle.outputOffset ≤ userBufCap) :
    ∃ d', handleProcessOutputBuffers d = .ok ⟨⟩ d' ∧ Filled d d' := by
  obtain ⟨rest, j, buf, hrun, hj, hbytes, hrest⟩ :=
    outputLoop_run d.handle.pendingOutput d.handle.outputBuf h
  refine ⟨_, by unfold handleProcessOutputBuffers; rw [hrun], ?_⟩
  exact ⟨rfl, rfl, rfl, rfl, hj, hbytes, fun h0 => hrest (by rw [show j = 0 from h0]; decide)⟩

/-! ## Under the directory lock -/

def Device.lockAsked (d : Device) : Device :=
  { d with kernel := { d.kernel with locks := fun n => d.kernel.locks (n + 1) } }

@[simp] theorem Device.lockAsked_handle (d : Device) : d.lockAsked.handle = d.handle := rfl

theorem handleProcessBuffers_interrupted (h : d.kernel.locks 0 = false) :
    handleProcessBuffers d = .ok (.error .eintr) d.lockAsked := by
  unfold handleProcessBuffers
  rw [bind_of_ok (onKernel_run (downInterruptible_run _)), h]
  rfl

theorem handleProcessBuffers_locked {res : Except Errno Unit} (h : d.kernel.locks 0 = true)
    (hin : handleProcessInputBuffers d.lockAsked = .ok res d')
    (hout : d'.handle.outputOffset ≤ userBufCap) :
    ∃ d'', handleProcessBuffers d = .ok res d'' ∧ Filled d' d'' := by
  obtain ⟨d'', hrun, hfilled⟩ := handleProcessOutputBuffers_run hout
  refine ⟨d'', ?_, hfilled⟩
  unfold handleProcessBuffers
  rw [bind_of_ok (onKernel_run (downInterruptible_run _)), if_pos h]
  exact (bind_of_ok hin).trans ((bind_of_ok hrun).trans (pure_run _ _))

/-- The buffers were processed, and no operation was run. -/
structure Settled (d d' : Device) : Prop where
  directory : d'.kernel.directory = d.kernel.directory
  allocs : d'.kernel.allocs = d.kernel.allocs
  locks : d'.kernel.locks = fun n => d.kernel.locks (n + 1)
  copies : d'.kernel.copies = d.kernel.copies
  executed : d'.trace.executed = d.trace.executed
  indices : d'.trace.indices = d.trace.indices
  spliced : d'.trace.spliced = d.trace.spliced
  accesses : ∃ more, d'.trace.accesses = d.trace.accesses ++ more ∧ ∀ a ∈ more, a.Within
  inputBuf : d'.handle.inputBuf = d.handle.inputBuf
  inputOffset : d'.handle.inputOffset = d.handle.inputOffset
  outputOffset : d'.handle.outputOffset ≤ userBufCap
  remaining : d'.handle.remaining = d.handle.remaining
  empty : d.kernel.locks 0 = true →
    d'.handle.outputOffset = 0 → d'.handle.pendingOutput = []

/-- The buffers were processed, and the operation at the front was run. -/
structure Operated (d : Device) (res : Except Errno Unit) (d' : Device) : Prop where
  some : 0 < d.handle.inputOffset
  le : d.handle.inputOffset ≤ needBytes (d.handle.inputBuf 0) + 1
  locked : d.kernel.locks 0 = true
  locks : d'.kernel.locks = fun n => d.kernel.locks (n + 1)
  copies : d'.kernel.copies = d.kernel.copies
  first : d'.handle.inputBuf 0 = d.handle.inputBuf 0
  outputOffset : d'.handle.outputOffset ≤ userBufCap
  stream : ∃ found, d'.handle.remaining = d.handle.remaining ++ recordBytes found ∧
    d'.trace.spliced = d.trace.spliced ++ found
  empty : d'.handle.outputOffset = 0 → d'.handle.pendingOutput = []
  accesses : d'.trace.accesses = d.trace.accesses ++ [⟨0, 1, d.handle.inputOffset⟩] ++
    if readsArgs (d.handle.inputBuf 0) (d.kernel.allocs 0) then
      [⟨1, needBytes (d.handle.inputBuf 0), d.handle.inputOffset⟩] else []
  failed : ∀ e, res = .error e → d'.handle.inputOffset = d.handle.inputOffset ∧
    d'.trace.indices = d.trace.indices ∧ d'.trace.executed = d.trace.executed
  returned : res = .ok () →
    d'.handle.inputOffset = wsub d.handle.inputOffset (needBytes (d.handle.inputBuf 0) + 1) ∧
    d'.trace.indices = d.trace.indices ++
      [(needBytes (d.handle.inputBuf 0) + 1, d.handle.inputOffset)] ∧
    d'.trace.executed = d.trace.executed ++
      [slice d.handle.inputBuf 0 (needBytes (d.handle.inputBuf 0) + 1)]
  refused : d.handle.inputBuf 0 = opAdd → d.kernel.allocs 0 = false → ∃ e, res = .error e
  other : d.handle.inputBuf 0 ≠ opAdd → d.handle.inputBuf 0 ≠ opDelete →
    d.handle.inputBuf 0 ≠ opFind → res = .ok ()
  granted : (∀ n, d.kernel.allocs n = true) →
    (∀ n, d'.kernel.allocs n = true) ∧ res = .ok () ∧
    d'.kernel.directory = directoryAfter (d.handle.inputBuf 0)
      (slice d.handle.inputBuf 1 (needBytes (d.handle.inputBuf 0))) d.kernel.directory ∧
    d'.handle.remaining = d.handle.remaining ++ recordBytes (answerTo (d.handle.inputBuf 0)
      (slice d.handle.inputBuf 1 (needBytes (d.handle.inputBuf 0))) d.kernel.directory)

/-- Nothing waits, or too much does. -/
theorem handleProcessBuffers_settled (hcap : d.handle.inputOffset ≤ userBufCap)
    (hout : d.handle.outputOffset ≤ userBufCap)
    (h : d.handle.inputOffset = 0 ∨
      needBytes (d.handle.inputBuf 0) + 1 < d.handle.inputOffset ∨ d.kernel.locks 0 = false) :
    ∃ res d', handleProcessBuffers d = .ok res d' ∧ Settled d d' := by
  cases hlock : d.kernel.locks 0 with
  | false =>
    refine ⟨_, _, handleProcessBuffers_interrupted hlock, ?_⟩
    exact {
      directory := rfl, allocs := rfl, locks := rfl, copies := rfl
      executed := rfl, indices := rfl, spliced := rfl
      accesses := ⟨[], (List.append_nil _).symm, by simp⟩
      inputBuf := rfl, inputOffset := rfl, outputOffset := hout, remaining := rfl
      empty := fun h => by rw [hlock] at h; cases h }
  | true =>
    obtain ⟨more, hin, hmore⟩ : ∃ more : List Access, handleProcessInputBuffers d.lockAsked =
        .ok (.ok ()) { d.lockAsked with
          trace := { d.trace with accesses := d.trace.accesses ++ more } } ∧
        ∀ a ∈ more, a.Within := by
      rcases h with h | h | h
      · refine ⟨[], ?_, by simp⟩
        rw [pass_idle (d := d.lockAsked) h, List.append_nil]
        rfl
      · refine ⟨[⟨0, 1, d.handle.inputOffset⟩], pass_waits (d := d.lockAsked) hcap h, ?_⟩
        intro a ha
        obtain rfl := List.mem_singleton.mp ha
        show 0 + 1 ≤ d.handle.inputOffset
        omega
      · rw [hlock] at h
        cases h
    obtain ⟨d', hrun, hfilled⟩ := handleProcessBuffers_locked hlock hin hout
    refine ⟨_, d', hrun, ?_⟩
    exact {
      directory := by rw [hfilled.kernel]; rfl
      allocs := by rw [hfilled.kernel]; rfl
      locks := by rw [hfilled.kernel]; rfl
      copies := by rw [hfilled.kernel]; rfl
      executed := by rw [hfilled.trace]
      indices := by rw [hfilled.trace]
      spliced := by rw [hfilled.trace]
      accesses := ⟨more, by rw [hfilled.trace], hmore⟩
      inputBuf := hfilled.inputBuf, inputOffset := hfilled.inputOffset
      outputOffset := hfilled.outputOffset, remaining := hfilled.remaining
      empty := fun _ => hfilled.empty }

theorem remaining_append {h h' : Handle} {found : List Record} (hbuf : h'.outputBuf = h.outputBuf)
    (hoff : h'.outputOffset = h.outputOffset)
    (hpending : h'.pendingOutput = h.pendingOutput ++ found) :
    h'.remaining = h.remaining ++ recordBytes found := by
  rw [Handle.remaining, hbuf, hoff, hpending, recordBytes_append, ← List.append_assoc]
  rfl

theorem handleProcessBuffers_operated (hpos : 0 < d.handle.inputOffset)
    (hcap : d.handle.inputOffset ≤ userBufCap) (hout : d.handle.outputOffset ≤ userBufCap)
    (hle : d.handle.inputOffset ≤ needBytes (d.handle.inputBuf 0) + 1)
    (hlock : d.kernel.locks 0 = true) :
    ∃ res d', handleProcessBuffers d = .ok res d' ∧ Operated d res d' := by
  have hpass := pass_runs (d := d.lockAsked) hpos hcap hle
  rw [Device.lockAsked_handle] at hpass
  generalize hleft : wsub d.handle.inputOffset (needBytes (d.handle.inputBuf 0) + 1) = left at hpass
  obtain ⟨res, d₁, hran, hin⟩ := hpass
  cases res with
  | error e =>
    obtain ⟨d', hrun, hfilled⟩ := handleProcessBuffers_locked hlock hin
      (by rw [hran.outputOffset]; exact hout)
    obtain ⟨found, hpending, hspliced⟩ := hran.spliced
    refine ⟨_, d', hrun, ?_⟩
    exact {
      some := hpos, le := hle, locked := hlock
      locks := by rw [hfilled.kernel, hran.locks]; rfl
      copies := by rw [hfilled.kernel, hran.copies]; rfl
      first := by rw [hfilled.inputBuf, hran.first]; rfl
      outputOffset := hfilled.outputOffset
      stream := ⟨found, by
        rw [hfilled.remaining, remaining_append hran.outputBuf hran.outputOffset hpending]
        rfl, by rw [hfilled.trace, hspliced]; rfl⟩
      empty := hfilled.empty
      accesses := by rw [hfilled.trace, hran.accesses]; rfl
      failed := fun _ _ => ⟨by rw [hfilled.inputOffset, hran.inputOffset]; rfl,
        by rw [hfilled.trace, hran.indices]; rfl, by rw [hfilled.trace, hran.executed]; rfl⟩
      returned := fun h => by cases h
      refused := fun _ _ => ⟨e, rfl⟩
      other := hran.other
      granted := fun h => by cases (hran.granted h).2.1 }
  | ok u =>
    have hout' : d₁.handle.outputOffset ≤ userBufCap := by
      rw [hran.outputOffset]
      exact hout
    dsimp only at hin
    obtain ⟨found, hpending, hspliced⟩ := hran.spliced
    obtain ⟨d', hrun, hfilled⟩ := handleProcessBuffers_locked hlock hin
      (by rw [Device.consumed_outputOffset]; exact hout')
    have hremaining := hfilled.remaining
    rw [Device.consumed_remaining] at hremaining
    refine ⟨_, d', hrun, ?_⟩
    exact {
      some := hpos, le := hle, locked := hlock
      locks := by rw [hfilled.kernel, Device.consumed_kernel, hran.locks]; rfl
      copies := by rw [hfilled.kernel, Device.consumed_kernel, hran.copies]; rfl
      first := by rw [hfilled.inputBuf, Device.consumed_inputBuf, hran.first]; rfl
      outputOffset := hfilled.outputOffset
      stream := ⟨found, by
        rw [hremaining, remaining_append hran.outputBuf hran.outputOffset hpending]
        rfl, by
        rw [hfilled.trace, Device.consumed_trace, hspliced]; rfl⟩
      empty := hfilled.empty
      accesses := by rw [hfilled.trace, Device.consumed_trace, hran.accesses]; rfl
      failed := fun _ h => by cases h
      returned := fun _ => by
        rw [hfilled.inputOffset, Device.consumed_inputOffset, hfilled.trace, Device.consumed_trace,
          hran.indices, hran.executed, hleft]
        exact ⟨rfl, rfl, rfl⟩
      refused := hran.refused
      other := hran.other
      granted := fun h => by
        obtain ⟨hallocs, hres, hdir, hpend⟩ := hran.granted h
        rw [hfilled.kernel, Device.consumed_kernel, hremaining,
          remaining_append hran.outputBuf hran.outputOffset hpend]
        exact ⟨hallocs, hres, hdir, rfl⟩ }

theorem devRelease_run {res : Except Errno Unit} (h : handleProcessBuffers d = .ok res d') :
    devRelease d = .ok ⟨⟩ { d' with handle := { d'.handle with pendingOutput := [] } } :=
  (bind_of_ok h).trans rfl

/-! ## Reading -/

/-- The bytes that a call gave to the user. -/
def handedOver : Except Errno (List UInt8) → List UInt8
  | .ok bytes => bytes
  | .error _ => []

/-- What `dev_read` makes of the state `d` behind the processing of the buffers. -/
structure Drained (len : ℕ) (d : Device) (r : Except Errno (List UInt8)) (d' : Device) : Prop where
  directory : d'.kernel.directory = d.kernel.directory
  allocs : d'.kernel.allocs = d.kernel.allocs
  locks : d'.kernel.locks = d.kernel.locks
  copies : (∀ n, d.kernel.copies n = none) → ∀ n, d'.kernel.copies n = none
  trace : d'.trace = d.trace
  inputBuf : d'.handle.inputBuf = d.handle.inputBuf
  inputOffset : d'.handle.inputOffset = d.handle.inputOffset
  pendingOutput : d'.handle.pendingOutput = d.handle.pendingOutput
  outputOffset : d'.handle.outputOffset ≤ userBufCap
  remaining : handedOver r ++ d'.handle.remaining = d.handle.remaining
  length_le : (handedOver r).length ≤ len
  empty : 0 < len → r = .ok [] → d.handle.outputOffset = 0 ∧ d'.handle.outputOffset = 0
  copied : (∀ n, d.kernel.copies n = none) → ∃ bytes, r = .ok bytes

theorem devRead_run {res : Except Errno Unit} (len : ℕ) (h : handleProcessBuffers d = .ok res d')
    (hout : d'.handle.outputOffset ≤ userBufCap) :
    ∃ r d'', devRead len d = .ok r d'' ∧ Drained len d' r d'' := by
  unfold devRead
  rw [bind_of_ok h, bind_of_ok (get_run d')]
  dsimp only
  by_cases hzero : d'.handle.outputOffset = 0
  · refine ⟨.ok [], d', by rw [if_pos hzero, pure_run], ?_⟩
    exact {
      directory := rfl, allocs := rfl, locks := rfl, copies := fun h => h
      trace := rfl, inputBuf := rfl, inputOffset := rfl, pendingOutput := rfl
      outputOffset := hout
      remaining := rfl
      length_le := Nat.zero_le _
      empty := fun _ _ => ⟨hzero, hzero⟩
      copied := fun _ => ⟨[], rfl⟩ }
  · rw [if_neg hzero, if_neg (Nat.not_lt.mpr hout),
      bind_of_ok (onKernel_run (copyUser_run _ d'.kernel))]
    cases hcopy : (d'.kernel.copies 0).filter (· < min len d'.handle.outputOffset) with
    | some k =>
      refine ⟨.error .efault, _, rfl, ?_⟩
      exact {
        directory := rfl, allocs := rfl, locks := rfl, copies := fun h n => h (n + 1)
        trace := rfl, inputBuf := rfl, inputOffset := rfl, pendingOutput := rfl
        outputOffset := hout
        remaining := rfl
        length_le := Nat.zero_le _
        empty := fun _ hr => by cases hr
        copied := fun h => by rw [h 0] at hcopy; cases hcopy }
    | none =>
      have hle : min len d'.handle.outputOffset ≤ d'.handle.outputOffset := Nat.min_le_right _ _
      refine ⟨.ok (slice d'.handle.outputBuf 0 (min len d'.handle.outputOffset)), _, rfl, ?_⟩
      exact {
        directory := rfl, allocs := rfl, locks := rfl, copies := fun h n => h (n + 1)
        trace := rfl, inputBuf := rfl, inputOffset := rfl, pendingOutput := rfl
        outputOffset := by
          show wsub d'.handle.outputOffset (min len d'.handle.outputOffset) ≤ userBufCap
          rw [wsub_of_le hle hout]
          omega
        remaining := by
          simp only [handedOver, Handle.remaining]
          rw [wsub_of_le hle hout, ← List.append_assoc, slice_moved _ hle]
        length_le := by
          simp only [handedOver, slice_length]
          exact Nat.min_le_left _ _
        empty := fun hlen hnil => by
          have hlength := congrArg List.length (Except.ok.inj hnil)
          rw [slice_length, List.length_nil] at hlength
          omega
        copied := fun _ => ⟨_, rfl⟩ }

/-! ## Writing -/

/-- Whether `copy_from_user` is going to fail. -/
def Device.refuses (d : Device) (data : List UInt8) : Bool :=
  ((d.kernel.copies 0).filter (· < min data.length (userBufCap - d.handle.inputOffset))).isSome

/-- The bytes that `dev_write` accepts. -/
def Device.accepts (d : Device) (data : List UInt8) : List UInt8 :=
  if d.refuses data then [] else data.take (userBufCap - d.handle.inputOffset)

/-- The bytes that a call took from the user, as its result tells. -/
def takenOver (data : List UInt8) : Except Errno ℕ → List UInt8
  | .ok n => data.take n
  | .error _ => []

/-- `d'` is `d` with `bytes` behind the input buffer. -/
structure Stored (bytes : List UInt8) (d d' : Device) : Prop where
  directory : d'.kernel.directory = d.kernel.directory
  allocs : d'.kernel.allocs = d.kernel.allocs
  locks : d'.kernel.locks = d.kernel.locks
  copies : (∀ n, d.kernel.copies n = none) → ∀ n, d'.kernel.copies n = none
  trace : d'.trace = d.trace
  inputOffset : d'.handle.inputOffset = d.handle.inputOffset + bytes.length
  inputOffset_le : d'.handle.inputOffset ≤ userBufCap
  buffered : d'.handle.buffered = d.handle.buffered ++ bytes
  outputOffset : d'.handle.outputOffset = d.handle.outputOffset
  pendingOutput : d'.handle.pendingOutput = d.handle.pendingOutput
  remaining : d'.handle.remaining = d.handle.remaining

theorem storeInput_run {bytes : List UInt8}
    (h : d.handle.inputOffset + bytes.length ≤ userBufCap) :
    storeInput bytes d = .ok ⟨⟩ { d with
      handle := { d.handle with inputBuf := blit d.handle.inputBuf d.handle.inputOffset bytes } } :=
  if_pos (Or.inr h)

theorem takeInput_refused {data : List UInt8} (hcap : d.handle.inputOffset ≤ userBufCap)
    (h : d.refuses data = true) :
    ∃ d', takeInput data d = .ok (.error .efault) d' ∧ Stored [] d d' := by
  obtain ⟨k, hcopy⟩ := Option.isSome_iff_exists.mp h
  have hk : k < min data.length (userBufCap - d.handle.inputOffset) := by
    obtain ⟨-, hk⟩ := Option.filter_eq_some_iff.mp hcopy
    simpa using hk
  generalize hbytes : data.take k ++
    List.replicate (min data.length (userBufCap - d.handle.inputOffset) - k) 0 = bytes
  have hlen : bytes.length = min data.length (userBufCap - d.handle.inputOffset) := by
    rw [← hbytes, List.length_append, List.length_take, List.length_replicate]
    omega
  have hstore := storeInput_run (d := { d with kernel :=
    { d.kernel with copies := fun i => d.kernel.copies (i + 1) } })
    (show d.handle.inputOffset + bytes.length ≤ userBufCap by omega)
  unfold takeInput
  rw [bind_of_ok (get_run d), wsub_of_le hcap (Nat.le_refl _),
    bind_of_ok (onKernel_run (copyUser_run _ _)), hcopy]
  dsimp only
  rw [hbytes, bind_of_ok hstore]
  refine ⟨_, rfl, ?_⟩
  exact {
    directory := rfl, allocs := rfl, locks := rfl, copies := fun h n => h (n + 1)
    trace := rfl, inputOffset := rfl, inputOffset_le := hcap
    buffered := by
      rw [List.append_nil]
      exact slice_blit_of_disjoint _ (Or.inl (Nat.le_of_eq (Nat.zero_add _)))
    outputOffset := rfl, pendingOutput := rfl, remaining := rfl }

/-- What is left of `dev_write` behind a copy that went through. -/
theorem takeInput_copied {data : List UInt8} (hcap : d.handle.inputOffset ≤ userBufCap)
    (h : d.refuses data = false) :
    ∃ d', Stored (d.accepts data) d d' ∧ takeInput data d = (do
      if 0 < (d.accepts data).length then
        let _ ← handleProcessBuffers
      return .ok (d.accepts data).length : DeviceM (Except Errno ℕ)) d' := by
  have hcopy : (d.kernel.copies 0).filter
      (· < min data.length (userBufCap - d.handle.inputOffset)) = none :=
    Option.not_isSome_iff_eq_none.mp (by rw [← Device.refuses, h]; exact Bool.false_ne_true)
  have hbytes : d.accepts data = data.take (userBufCap - d.handle.inputOffset) := by
    rw [Device.accepts, h, if_neg Bool.false_ne_true]
  have hlen : (d.accepts data).length = min data.length (userBufCap - d.handle.inputOffset) := by
    rw [hbytes, List.length_take, Nat.min_comm]
  have htake : data.take (min data.length (userBufCap - d.handle.inputOffset)) =
      d.accepts data := by rw [hbytes, Nat.min_comm, ← List.take_eq_take_min]
  have hroom : d.handle.inputOffset + (d.accepts data).length ≤ userBufCap := by omega
  have hadd : wadd d.handle.inputOffset (d.accepts data).length =
      d.handle.inputOffset + (d.accepts data).length :=
    Nat.mod_eq_of_lt (lt_of_le_of_lt hroom (by decide))
  have hstore := storeInput_run (d := { d with kernel :=
    { d.kernel with copies := fun i => d.kernel.copies (i + 1) } }) hroom
  unfold takeInput
  rw [bind_of_ok (get_run d), wsub_of_le hcap (Nat.le_refl _),
    bind_of_ok (onKernel_run (copyUser_run _ _)), hcopy]
  dsimp only
  rw [htake, ← hlen, bind_of_ok hstore, modifyHandle, bind_of_ok (modify_run _ _)]
  refine ⟨_, ?_, rfl⟩
  exact {
    directory := rfl, allocs := rfl, locks := rfl, copies := fun h n => h (n + 1)
    trace := rfl, inputOffset := hadd
    inputOffset_le := by
      dsimp only
      rw [hadd]
      exact hroom
    buffered := by
      simp only [Handle.buffered]
      rw [hadd, slice_blit_append]
    outputOffset := rfl, pendingOutput := rfl, remaining := rfl }

theorem devWrite_space (data : List UInt8) (h : d.handle.inputOffset < userBufCap) :
    devWrite data d = takeInput data d := by
  unfold devWrite
  rw [bind_of_ok (get_run d), if_neg]
  rw [wsub_of_le h.le (Nat.le_refl _)]
  omega

/-- A full buffer is processed first, and is still full then. -/
theorem devWrite_full (data : List UInt8) (h : d.handle.inputOffset = userBufCap)
    (hout : d.handle.outputOffset ≤ userBufCap) :
    ∃ d', devWrite data d = .ok (.error .enospc) d' ∧ Settled d d' := by
  have hneed : needBytes (d.handle.inputBuf 0) + 1 < userBufCap := by
    unfold needBytes
    split <;> decide
  have hzero : wsub userBufCap userBufCap = 0 := by
    rw [wsub_of_le (Nat.le_refl _) (Nat.le_refl _), Nat.sub_self]
  obtain ⟨res, d', hrun, hsettled⟩ :=
    handleProcessBuffers_settled (d := d) h.le hout (Or.inr (Or.inl (h ▸ hneed)))
  refine ⟨d', ?_, hsettled⟩
  unfold devWrite
  rw [bind_of_ok (get_run d), h, if_pos hzero, bind_of_ok hrun, bind_of_ok (get_run d'),
    hsettled.inputOffset, h, if_pos hzero, pure_run]

theorem accepts_full {data : List UInt8} (h : d.handle.inputOffset = userBufCap) :
    d.accepts data = [] := by
  rw [Device.accepts, h, Nat.sub_self, List.take_zero, ite_self]

/-- A write that takes nothing over. -/
theorem devWrite_none {data : List UInt8} (hcap : d.handle.inputOffset ≤ userBufCap)
    (hout : d.handle.outputOffset ≤ userBufCap) (h : d.accepts data = []) :
    ∃ r d', devWrite data d = .ok r d' ∧ takenOver data r = [] ∧ (Stored [] d d' ∨ Settled d d') := by
  rcases hcap.eq_or_lt with hfull | hspace
  · obtain ⟨d', hrun, hsettled⟩ := devWrite_full data hfull hout
    exact ⟨_, d', hrun, rfl, Or.inr hsettled⟩
  · rw [devWrite_space data hspace]
    cases hrefuses : d.refuses data with
    | true =>
      obtain ⟨d', hrun, hstored⟩ := takeInput_refused hcap hrefuses
      exact ⟨_, d', hrun, rfl, Or.inl hstored⟩
    | false =>
      obtain ⟨d', hstored, hrun⟩ := takeInput_copied hcap hrefuses
      rw [h] at hstored hrun
      exact ⟨.ok 0, d', hrun, List.take_zero (l := data), Or.inl hstored⟩

theorem takenOver_accepts (d : Device) (data : List UInt8) :
    takenOver data (.ok (d.accepts data).length) = d.accepts data := by
  unfold takenOver Device.accepts
  split_ifs
  · exact List.take_zero (l := data)
  · dsimp only
    rw [List.length_take, ← List.take_eq_take_min]

/-- A write that takes something over processes the buffers then. -/
theorem devWrite_some {data : List UInt8} (hcap : d.handle.inputOffset ≤ userBufCap)
    (h : d.accepts data ≠ []) :
    ∃ d', Stored (d.accepts data) d d' ∧ ∀ res d'', handleProcessBuffers d' = .ok res d'' →
      devWrite data d = .ok (.ok (d.accepts data).length) d'' := by
  have hspace : d.handle.inputOffset < userBufCap :=
    lt_of_le_of_ne hcap fun hfull => h (accepts_full hfull)
  have hrefuses : d.refuses data = false := by
    by_contra hrefuses
    rw [Bool.not_eq_false] at hrefuses
    exact h (if_pos hrefuses)
  obtain ⟨d', hstored, hrun⟩ := takeInput_copied hcap hrefuses
  refine ⟨d', hstored, fun res d'' hprocess => ?_⟩
  rw [devWrite_space data hspace, hrun, if_pos (List.length_pos_iff.mpr h)]
  exact (bind_of_ok hprocess).trans (pure_run _ _)

/-! ## One command in one write -/

/-- No allocation fails and no wait for the lock is interrupted. -/
structure Granted (k : Kernel) : Prop where
  allocs : ∀ n, k.allocs n = true
  locks : ∀ n, k.locks n = true

theorem calmKernel_granted (l : List Record) : Granted (calmKernel l) :=
  ⟨fun _ => rfl, fun _ => rfl⟩

/-- The command `op :: args` was written, carried out and taken out of the buffer. -/
structure CommandDone (op : UInt8) (args : List UInt8) (d d' : Device) : Prop where
  granted : Granted d'.kernel
  copies : (∀ n, d.kernel.copies n = none) → ∀ n, d'.kernel.copies n = none
  inputOffset : d'.handle.inputOffset = 0
  outputOffset : d'.handle.outputOffset ≤ userBufCap
  executed : d'.trace.executed = d.trace.executed ++ [op :: args]
  directory : d'.kernel.directory = directoryAfter op args d.kernel.directory
  remaining : d'.handle.remaining =
    d.handle.remaining ++ recordBytes (answerTo op args d.kernel.directory)

theorem buffered_first (h : Handle) {n : ℕ} (hn : h.inputOffset = n + 1) :
    h.buffered = h.inputBuf 0 :: slice h.inputBuf 1 n := by
  rw [Handle.buffered, hn]
  rfl

theorem accepts_command {op : UInt8} {args : List UInt8} (hin : d.handle.inputOffset = 0)
    (hlen : args.length = needBytes op) (hcopy : d.refuses (op :: args) = false) :
    d.accepts (op :: args) = op :: args := by
  have hneed := needBytes_lt op
  rw [Device.accepts, hcopy, if_neg Bool.false_ne_true, hin, Nat.sub_zero]
  refine List.take_of_length_le ?_
  rw [List.length_cons, hlen]
  exact hneed

theorem devWrite_command {op : UInt8} {args : List UInt8} (hgranted : Granted d.kernel)
    (hin : d.handle.inputOffset = 0) (hout : d.handle.outputOffset ≤ userBufCap)
    (hlen : args.length = needBytes op) (hcopy : d.refuses (op :: args) = false) :
    ∃ d', devWrite (op :: args) d = .ok (.ok (op :: args).length) d' ∧
      CommandDone op args d d' := by
  have haccepts := accepts_command hin hlen hcopy
  have hsome : d.accepts (op :: args) ≠ [] := by
    rw [haccepts]
    exact List.cons_ne_nil _ _
  obtain ⟨d₁, hstored, hrest⟩ := devWrite_some (by rw [hin]; exact Nat.zero_le _) hsome
  rw [haccepts] at hstored hrest
  have hoff : d₁.handle.inputOffset = needBytes op + 1 := by
    rw [hstored.inputOffset, hin, List.length_cons, hlen, Nat.zero_add]
  have hnil : d.handle.buffered = [] := by
    rw [Handle.buffered, hin]
    rfl
  have hbuffered := hstored.buffered
  rw [hnil, List.nil_append, buffered_first _ hoff] at hbuffered
  obtain ⟨hfirst, hargs⟩ := List.cons.inj hbuffered
  obtain ⟨res, d', hprocess, hd⟩ := handleProcessBuffers_operated (d := d₁) (by omega)
    hstored.inputOffset_le (by rw [hstored.outputOffset]; exact hout) (by rw [hfirst, hoff])
    (by rw [hstored.locks]; exact hgranted.locks 0)
  have hallocs : ∀ n, d₁.kernel.allocs n = true := by
    rw [hstored.allocs]
    exact hgranted.allocs
  obtain ⟨hallocs', hres, hdirectory, hremaining⟩ := hd.granted hallocs
  obtain ⟨hleft, -, hexecuted⟩ := hd.returned hres
  refine ⟨d', hrest res d' hprocess, ?_⟩
  rw [hfirst, hargs] at hdirectory hremaining
  exact {
    granted := ⟨hallocs', fun n => by rw [hd.locks, hstored.locks]; exact hgranted.locks (n + 1)⟩
    copies := fun h => by rw [hd.copies]; exact hstored.copies h
    inputOffset := by
      rw [hleft, hfirst, hoff, wsub_of_le (Nat.le_refl _) (needBytes_lt op), Nat.sub_self]
    outputOffset := hd.outputOffset
    executed := by
      rw [hexecuted, hstored.trace, hfirst, ← hoff, ← Handle.buffered, hstored.buffered, hnil,
        List.nil_append]
    directory := by rw [hdirectory, hstored.directory]
    remaining := by rw [hremaining, hstored.remaining, hstored.directory] }

end KisLinux.Phonedir
