import KisLinux.PhonedirDevice

/-!
# What one pass over the input buffer does

`process_operation` tells a complete command with bytes behind it from everything
else, and it is "everything else" that it carries out. So a pass over `input_buf`
ends in one of three ways: there is nothing in it, there is too much in it, or one
operation is run on what is there.
-/
namespace KisLinux.Phonedir
open Fs ByteMemory StateRun

variable {d d' : Device} {op : UInt8} {r : ℕ}

/-! ## The meaning of a command -/

/-- The directory behind a command; `args` are the bytes behind the first one. -/
def directoryAfter (op : UInt8) (args : List UInt8) (directory : List Record) : List Record :=
  if op = opAdd then (Record.load (fun i => args.getD i 0) 0).terminated :: directory
  else if op = opDelete then
    directory.filter fun r => !strcmpEq (args.set (phonedirNameLen - 1) 0) r.bytes
  else directory

/-- The records that a command puts on the pending list. -/
def answerTo (op : UInt8) (args : List UInt8) (directory : List Record) : List Record :=
  if op = opFind then
    (directory.filter fun r => strcmpEq (args.set (phonedirNameLen - 1) 0) r.bytes).reverse
  else []

/-- Whether the operation goes on to the bytes behind the first one. -/
def readsArgs (op : UInt8) (granted : Bool) : Bool :=
  op = opAdd && granted || op = opDelete || op = opFind

theorem needBytes_lt (op : UInt8) : needBytes op + 1 ≤ userBufCap := by
  unfold needBytes
  split <;> decide

theorem load_slice (m : Memory) (a : ℕ) :
    Record.load (fun i => (slice m a recSize).getD i 0) 0 = Record.load m a := by
  have h := slice_getD_append (slice m a recSize) []
  rw [List.append_nil, slice_length] at h
  simp only [Record.load, h]

theorem slice_surname (m : Memory) :
    slice (blit m phonedirNameLen [0]) 1 phonedirNameLen =
      (slice m 1 phonedirNameLen).set (phonedirNameLen - 1) 0 := by
  have h := slice_blit_within m 1 phonedirNameLen (phonedirNameLen - 1) [0] (by decide)
  rw [overwrite_singleton 0 (by rw [slice_length]; decide)] at h
  exact h

/-! ## One operation -/

/-- What `runOperation` makes of `d`, for the operation `op` at the front of a buffer
filled up to `r`. -/
structure Ran (op : UInt8) (r : ℕ) (d : Device) (res : Except Errno Unit) (d' : Device) :
    Prop where
  first : d'.handle.inputBuf 0 = d.handle.inputBuf 0
  inputOffset : d'.handle.inputOffset = d.handle.inputOffset
  outputBuf : d'.handle.outputBuf = d.handle.outputBuf
  outputOffset : d'.handle.outputOffset = d.handle.outputOffset
  spliced : ∃ found, d'.handle.pendingOutput = d.handle.pendingOutput ++ found ∧
    d'.trace.spliced = d.trace.spliced ++ found
  executed : d'.trace.executed = d.trace.executed
  indices : d'.trace.indices = d.trace.indices
  accesses : d'.trace.accesses = d.trace.accesses ++
    if readsArgs op (d.kernel.allocs 0) then [⟨1, needBytes op, r⟩] else []
  locks : d'.kernel.locks = d.kernel.locks
  copies : d'.kernel.copies = d.kernel.copies
  refused : op = opAdd → d.kernel.allocs 0 = false → ∃ e, res = .error e
  other : op ≠ opAdd → op ≠ opDelete → op ≠ opFind → res = .ok ()
  granted : (∀ n, d.kernel.allocs n = true) →
    (∀ n, d'.kernel.allocs n = true) ∧ res = .ok () ∧
    d'.kernel.directory =
      directoryAfter op (slice d.handle.inputBuf 1 (needBytes op)) d.kernel.directory ∧
    d'.handle.pendingOutput = d.handle.pendingOutput ++
      answerTo op (slice d.handle.inputBuf 1 (needBytes op)) d.kernel.directory

theorem onKernel_run {α : Type} {x : KernelM α} {a : α} {k' : Kernel}
    (h : x d.kernel = .ok a k') : onKernel x d = .ok a { d with kernel := k' } := onPart_of_ok h

theorem access_run {a : Access} (h : a.first + a.count ≤ userBufCap) (d : Device) :
    access a d = .ok ⟨⟩ (d.accessed a) := if_pos h

theorem phonedirAddRecord_granted {k : Kernel} (r : Record) (h : k.allocs 0 = true) :
    phonedirAddRecord r k = .ok (.ok ()) { k with
      directory := r.terminated :: k.directory, allocs := fun n => k.allocs (n + 1) } := by
  unfold phonedirAddRecord
  rw [bind_of_ok (kmalloc_run _), if_pos h]
  rfl

theorem phonedirAddRecord_refused {k : Kernel} (r : Record) (h : k.allocs 0 = false) :
    phonedirAddRecord r k = .ok (.error .enomem)
      { k with allocs := fun n => k.allocs (n + 1) } := by
  unfold phonedirAddRecord
  rw [bind_of_ok (kmalloc_run _), if_neg (Bool.not_eq_true _ ▸ h)]
  rfl

theorem processAdd_run (r : ℕ) (d : Device) :
    ∃ res d', processAdd 0 r d = .ok res d' ∧ Ran opAdd r d res d' := by
  unfold processAdd
  simp only [Nat.zero_add]
  rw [bind_of_ok (get_run d)]
  cases ha : d.kernel.allocs 0 with
  | true =>
    rw [bind_of_ok (onKernel_run (phonedirAddRecord_granted _ ha))]
    refine ⟨.ok (), Device.accessed _ ⟨1, recSize, r⟩, bind_of_ok (access_run (show 1 + recSize ≤ userBufCap by decide) _), ?_⟩
    exact {
      first := rfl, inputOffset := rfl, outputBuf := rfl, outputOffset := rfl
      spliced := ⟨[], (List.append_nil _).symm, (List.append_nil _).symm⟩
      executed := rfl, indices := rfl, locks := rfl, copies := rfl
      accesses := by rw [ha]; rfl
      refused := fun _ h => by rw [ha] at h; cases h
      other := fun h => absurd rfl h
      granted := fun h => ⟨fun n => h (n + 1), rfl, by
        rw [directoryAfter, if_pos rfl, show needBytes opAdd = recSize from rfl, load_slice]
        rfl, (List.append_nil _).symm⟩ }
  | false =>
    rw [bind_of_ok (onKernel_run (phonedirAddRecord_refused _ ha))]
    refine ⟨.error .enomem, _, rfl, ?_⟩
    exact {
      first := rfl, inputOffset := rfl, outputBuf := rfl, outputOffset := rfl
      spliced := ⟨[], (List.append_nil _).symm, (List.append_nil _).symm⟩
      executed := rfl, indices := rfl, locks := rfl, copies := rfl
      accesses := by rw [ha]; exact (List.append_nil _).symm
      refused := fun _ _ => ⟨.enomem, rfl⟩
      other := fun h => absurd rfl h
      granted := fun h => by rw [h 0] at ha; cases ha }

/-- Behind the store of the terminator. -/
def Device.surnameCut (d : Device) (r : ℕ) : Device :=
  { d.accessed ⟨1, phonedirNameLen, r⟩ with
    handle := { d.handle with inputBuf := blit d.handle.inputBuf phonedirNameLen [0] } }

theorem processSurname_run (r : ℕ) (d : Device) (hop : op = opDelete ∨ op = opFind) :
    ∃ res d', processSurname 0 r op d = .ok res d' ∧ Ran op r d res d' := by
  have hadd : op ≠ opAdd := by rcases hop with rfl | rfl <;> decide
  have hneed : needBytes op = phonedirNameLen := if_neg hadd
  have hreads : readsArgs op (d.kernel.allocs 0) = true := by
    rcases hop with rfl | rfl <;> simp [readsArgs]
  have hfirst : blit d.handle.inputBuf phonedirNameLen [0] 0 = d.handle.inputBuf 0 :=
    blit_of_lt _ _ (by decide)
  have hcut : modifyHandle (fun h => { h with inputBuf := blit h.inputBuf phonedirNameLen [0] })
      (d.accessed ⟨1, phonedirNameLen, r⟩) = .ok ⟨⟩ (d.surnameCut r) := rfl
  unfold processSurname
  simp only [Nat.zero_add]
  rw [bind_of_ok (access_run (show 1 + phonedirNameLen ≤ userBufCap by decide) d), bind_of_ok hcut, bind_of_ok (get_run _)]
  have hsurname : slice (d.surnameCut r).handle.inputBuf 1 phonedirNameLen =
      (slice d.handle.inputBuf 1 (needBytes op)).set (phonedirNameLen - 1) 0 := by
    rw [hneed]
    exact slice_surname d.handle.inputBuf
  rw [hsurname]
  by_cases hdel : op = opDelete
  · have hfind : op ≠ opFind := by rw [hdel]; decide
    rw [if_pos hdel, bind_of_ok (onKernel_run (phonedirDel_run _ _))]
    refine ⟨.ok (), _, rfl, ?_⟩
    exact {
      first := hfirst, inputOffset := rfl, outputBuf := rfl, outputOffset := rfl
      spliced := ⟨[], (List.append_nil _).symm, (List.append_nil _).symm⟩
      executed := rfl, indices := rfl, locks := rfl, copies := rfl
      accesses := by rw [if_pos hreads, hneed]; rfl
      refused := fun h => absurd h hadd
      other := fun _ h => absurd hdel h
      granted := fun h => ⟨h, rfl, by rw [directoryAfter, if_neg hadd, if_pos hdel]; rfl, by
        rw [answerTo, if_neg hfind, List.append_nil]; rfl⟩ }
  · have hfind : op = opFind := hop.resolve_left hdel
    obtain ⟨found, k', hrun, hk, hfound⟩ := phonedirFind_run
      ((slice d.handle.inputBuf 1 (needBytes op)).set (phonedirNameLen - 1) 0) (d.surnameCut r).kernel
    rw [if_neg hdel, bind_of_ok (onKernel_run hrun)]
    have hdir : directoryAfter op (slice d.handle.inputBuf 1 (needBytes op)) d.kernel.directory =
        d.kernel.directory := by rw [directoryAfter, if_neg hadd, if_neg hdel]
    cases found with
    | none =>
      refine ⟨.error .enomem, _, rfl, ?_⟩
      exact {
        first := hfirst, inputOffset := rfl, outputBuf := rfl, outputOffset := rfl
        spliced := ⟨[], (List.append_nil _).symm, (List.append_nil _).symm⟩
        executed := rfl, indices := rfl, locks := hk.locks, copies := hk.copies
        accesses := by rw [if_pos hreads, hneed]; rfl
        refused := fun h => absurd h hadd
        other := fun _ _ h => absurd hfind h
        granted := fun h => by cases hfound h }
    | some found =>
      refine ⟨.ok (), _, rfl, ?_⟩
      exact {
        first := hfirst, inputOffset := rfl, outputBuf := rfl, outputOffset := rfl
        spliced := ⟨found, rfl, rfl⟩
        executed := rfl, indices := rfl, locks := hk.locks, copies := hk.copies
        accesses := by rw [if_pos hreads, hneed]; rfl
        refused := fun h => absurd h hadd
        other := fun _ _ h => absurd hfind h
        granted := fun h => ⟨hk.allocs h, rfl, by rw [hdir]; exact hk.directory, by
          rw [answerTo, if_pos hfind, Option.some.inj (hfound h)]; rfl⟩ }

theorem runOperation_run (op : UInt8) (r : ℕ) (d : Device) :
    ∃ res d', runOperation 0 r op d = .ok res d' ∧ Ran op r d res d' := by
  unfold runOperation
  split_ifs with hadd hname
  · rw [hadd]
    exact processAdd_run r d
  · exact processSurname_run r d hname
  · obtain ⟨hdel, hfind⟩ := not_or.mp hname
    refine ⟨.ok (), d, rfl, ?_⟩
    exact {
      first := rfl, inputOffset := rfl, outputBuf := rfl, outputOffset := rfl
      spliced := ⟨[], (List.append_nil _).symm, (List.append_nil _).symm⟩
      executed := rfl, indices := rfl, locks := rfl, copies := rfl
      accesses := by simp [readsArgs, hadd, hdel, hfind]
      refused := fun h => absurd h hadd
      other := fun _ _ _ => rfl
      granted := fun h => ⟨h, rfl, by simp [directoryAfter, hadd, hdel], by
        simp [answerTo, hfind]⟩ }

/-! ## One pass -/

theorem processOperation_waits (h : needBytes (d.handle.inputBuf 0) + 1 < r) :
    processOperation 0 r d = .ok (.ok 0) (d.accessed ⟨0, 1, r⟩) := by
  unfold processOperation
  simp only [Nat.zero_add]
  rw [bind_of_ok (access_run (show 0 + 1 ≤ userBufCap by decide) d), bind_of_ok (get_run _)]
  exact if_pos h ▸ rfl

theorem processOperation_runs (h : r ≤ needBytes (d.handle.inputBuf 0) + 1) :
    ∃ res d', Ran (d.handle.inputBuf 0) r (d.accessed ⟨0, 1, r⟩) res d' ∧
      processOperation 0 r d = match res with
        | .error e => .ok (.error e) d'
        | .ok () => .ok (.ok (needBytes (d.handle.inputBuf 0) + 1))
            (d'.carriedOut (slice d.handle.inputBuf 0 (needBytes (d.handle.inputBuf 0) + 1))) := by
  obtain ⟨res, d', hrun, hran⟩ :=
    runOperation_run (d.handle.inputBuf 0) r (d.accessed ⟨0, 1, r⟩)
  refine ⟨res, d', hran, ?_⟩
  unfold processOperation
  simp only [Nat.zero_add]
  rw [bind_of_ok (access_run (show 0 + 1 ≤ userBufCap by decide) d), bind_of_ok (get_run _)]
  have hrest : ¬ needBytes ((d.accessed ⟨0, 1, r⟩).handle.inputBuf 0) + 1 < r := Nat.not_lt.mpr h
  rw [if_neg hrest]
  refine (bind_of_ok hrun).trans ?_
  cases res with
  | error e => rfl
  | ok u => rfl

def Device.inputLeft (d : Device) (n : ℕ) : Device :=
  { d with handle := { d.handle with inputOffset := n } }

theorem moveInput_zero (h : r ≤ userBufCap) (d : Device) : moveInput 0 r d = .ok ⟨⟩ d := by
  unfold moveInput
  rw [if_pos h, blit_slice_self]

/-- The end of `handle_process_input_buffers` when nothing was consumed. -/
theorem pass_kept {res : Except Errno Unit} (h : d.handle.inputOffset ≤ userBufCap)
    (hloop : processInputLoop userBufCap 0 d.handle.inputOffset d = .ok (res, 0) d')
    (hoff : d'.handle.inputOffset = d.handle.inputOffset) :
    handleProcessInputBuffers d = .ok res d' := by
  have hword : d.handle.inputOffset < wordSize := lt_of_le_of_lt h (by decide)
  have hsub : wsub d.handle.inputOffset 0 = d'.handle.inputOffset := by
    rw [hoff, wsub, Nat.sub_zero, Nat.add_mod_right, Nat.mod_eq_of_lt hword]
  have hleft : modifyHandle (fun h => { h with inputOffset := wsub d.handle.inputOffset 0 }) d' =
      .ok ⟨⟩ d' := by
    rw [modifyHandle, modify_run, hsub]
  clear hsub hword
  unfold handleProcessInputBuffers
  rw [bind_of_ok (get_run d)]
  refine (bind_of_ok hloop).trans ?_
  dsimp only
  generalize wsub d.handle.inputOffset 0 = left at hleft ⊢
  split_ifs
  · rw [bind_of_ok (moveInput_zero h d'), bind_of_ok hleft, pure_run]
  · exact bind_of_ok hleft

theorem pass_idle (h : d.handle.inputOffset = 0) : handleProcessInputBuffers d = .ok (.ok ()) d := by
  refine pass_kept (by omega) ?_ rfl
  rw [h, show userBufCap = 1023 + 1 from rfl, processInputLoop, if_neg (Nat.lt_irrefl 0), pure_run]

theorem pass_waits (hcap : d.handle.inputOffset ≤ userBufCap)
    (h : needBytes (d.handle.inputBuf 0) + 1 < d.handle.inputOffset) :
    handleProcessInputBuffers d =
      .ok (.ok ()) (d.accessed ⟨0, 1, d.handle.inputOffset⟩) := by
  refine pass_kept hcap ?_ rfl
  rw [show userBufCap = 1023 + 1 from rfl, processInputLoop, if_pos (by omega), Nat.sub_zero,
    bind_of_ok (processOperation_waits h)]
  rfl

/-- The state behind an operation that was run. -/
def Device.consumed (d : Device) (command : List UInt8) (l r left : ℕ) : Device :=
  ((d.carriedOut command).indexed l r).inputLeft left

section Consumed

variable (d : Device) (c : List UInt8) (l r left : ℕ)

@[simp] theorem Device.consumed_kernel : (d.consumed c l r left).kernel = d.kernel := rfl

@[simp] theorem Device.consumed_inputOffset :
    (d.consumed c l r left).handle.inputOffset = left := rfl

@[simp] theorem Device.consumed_inputBuf :
    (d.consumed c l r left).handle.inputBuf = d.handle.inputBuf := rfl

@[simp] theorem Device.consumed_outputOffset :
    (d.consumed c l r left).handle.outputOffset = d.handle.outputOffset := rfl

@[simp] theorem Device.consumed_trace : (d.consumed c l r left).trace = { d.trace with
    executed := d.trace.executed ++ [c], indices := d.trace.indices ++ [(l, r)] } := rfl

end Consumed

theorem pass_runs (hpos : 0 < d.handle.inputOffset) (hcap : d.handle.inputOffset ≤ userBufCap)
    (h : d.handle.inputOffset ≤ needBytes (d.handle.inputBuf 0) + 1) :
    ∃ res d', Ran (d.handle.inputBuf 0) d.handle.inputOffset
        (d.accessed ⟨0, 1, d.handle.inputOffset⟩) res d' ∧
      handleProcessInputBuffers d = .ok res (match res with
        | .error _ => d'
        | .ok () => d'.consumed (slice d.handle.inputBuf 0 (needBytes (d.handle.inputBuf 0) + 1))
            (needBytes (d.handle.inputBuf 0) + 1) d.handle.inputOffset
            (wsub d.handle.inputOffset (needBytes (d.handle.inputBuf 0) + 1))) := by
  obtain ⟨res, d', hran, hrun⟩ := processOperation_runs h
  refine ⟨res, d', hran, ?_⟩
  cases res with
  | error e =>
    refine pass_kept hcap ?_ hran.inputOffset
    rw [show userBufCap = 1023 + 1 from rfl, processInputLoop, if_pos hpos, Nat.sub_zero,
      bind_of_ok hrun]
    rfl
  | ok u =>
    generalize slice d.handle.inputBuf 0 (needBytes (d.handle.inputBuf 0) + 1) = c at hrun ⊢
    have hloop : processInputLoop userBufCap 0 d.handle.inputOffset d =
        .ok (.ok (), needBytes (d.handle.inputBuf 0) + 1) ((d'.carriedOut c).indexed
          (needBytes (d.handle.inputBuf 0) + 1) d.handle.inputOffset) := by
      rw [show userBufCap = 1022 + 1 + 1 from rfl, processInputLoop, if_pos hpos, Nat.sub_zero,
        bind_of_ok hrun]
      dsimp only
      rw [bind_of_ok (modify_run _ _), processInputLoop, Nat.zero_add, if_neg (by omega), pure_run]
    generalize needBytes (d.handle.inputBuf 0) + 1 = l at h hloop ⊢
    unfold handleProcessInputBuffers
    rw [bind_of_ok (get_run d)]
    refine (bind_of_ok hloop).trans ?_
    dsimp only
    rw [if_neg (by omega)]
    generalize wsub d.handle.inputOffset l = left
    rfl

end KisLinux.Phonedir
