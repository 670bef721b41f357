import KisLinux.NetBackend
import KisLinux.NetRoundTrip

/-!
# Messages that are cut short

`Encoded` is the layout of a message, as a reader can check it. The serializer of
every argument structure returns 1 on complete arguments only, and its result is
dropped one level above: the reader of the union returns 1 as soon as the tag is
there, and the writer as soon as the tag was taken.
-/
namespace KisLinux.Net
open ByteMemory StateRun ShortTransfer Fs

variable {α : Type}

/-- Every array as its count and as many elements. -/
inductive ArraysEncoded : List (ArrayField α) → List UInt8 → Prop
  | nil : ArraysEncoded [] []
  | cons {f : ArrayField α} {fs : List (ArrayField α)} {d : List UInt8} (count : ℕ)
      (elements : List UInt8) (count_lt : count < wordSize)
      (length_eq : elements.length = f.elemSize * count) (rest : ArraysEncoded fs d) :
      ArraysEncoded (f :: fs) (leBytes 8 count ++ elements ++ d)

/-- A memory image and behind it every array of the structure. -/
def Serializer.Encoded (slz : Serializer α) (d : List UInt8) : Prop :=
  ∃ image arrays, image.length = slz.size ∧ ArraysEncoded slz.arrays arrays ∧ d = image ++ arrays

/-- The complete encoding of an operation of one of the six types. -/
def Encoded (d : List UInt8) : Prop :=
  ∃ (t : FsOpType) (args : List UInt8), t.serializer.Encoded args ∧ d = leBytes 4 t.code ++ args

/-! ## Readers of arguments return 1 on complete arguments only -/

section Arguments

variable {f : ArrayField α} {slz : Serializer α} {v w : α} {s s' : Input}

/-- A transfer that reports success moved all of its bytes. -/
theorem safeRead_complete {n : ℕ} {d : List UInt8} (h : safeRead n s = .ok (true, d) s') :
    d.length = n ∧ s.source.pending = d ++ s'.source.pending := by
  obtain ⟨t, hrun, hgave⟩ := safeRead_run n s
  rw [hrun] at h
  obtain ⟨hr, rfl⟩ := EStateM.Result.ok.inj h
  obtain ⟨hall, rfl⟩ := Prod.mk.inj hr
  exact ⟨List.length_take_of_le (of_decide_eq_true hall), hgave.source.pending⟩

/-- An array that was read is the count that came and, behind it, as many bytes as the
product has in a machine word. -/
theorem slzArrayRead_true (h : slzArrayRead f v s = .ok (true, w) s') :
    ∃ count b, count < wordSize ∧ w = f.set count b v ∧ b.bytes.length = wmul f.elemSize count ∧
      s.source.pending = leBytes 8 count ++ b.bytes ++ s'.source.pending := by
  obtain ⟨⟨ok, d⟩, s₁, hcount, h⟩ := bind_eq_ok.mp h
  cases ok with
  | false => cases h
  | true =>
    obtain ⟨hlen, hpending⟩ := safeRead_complete hcount
    have hd : leBytes 8 (leNat d) = d := hlen ▸ leBytes_leNat d
    have hlt : leNat d < wordSize := (leNat_lt d).trans_le (by rw [hlen]; rfl)
    have hdrop : d ++ (leBytes 8 (f.count v)).drop d.length = d := by
      rw [hlen, List.drop_of_length_le (leBytes_length 8 _).le, List.append_nil]
    simp only [hdrop, Bool.true_eq_false, if_false] at h
    generalize leNat d = count at h hd hlt
    subst hd
    split at h
    · next hzero =>
      obtain ⟨hr, rfl⟩ := EStateM.Result.ok.inj h
      exact ⟨count, .null, hlt, (Prod.mk.inj hr).2.symm, by rw [hzero]; rfl,
        by rw [hpending]; exact congrArg (· ++ _) (List.append_nil _).symm⟩
    · obtain ⟨address, s₂, hmalloc, h⟩ := bind_eq_ok.mp h
      obtain ⟨-, rfl⟩ := EStateM.Result.ok.inj hmalloc
      cases address with
      | none => cases h
      | some a =>
        obtain ⟨⟨ok, e⟩, s₃, helements, h⟩ := bind_eq_ok.mp h
        obtain ⟨hr, rfl⟩ := EStateM.Result.ok.inj h
        obtain ⟨rfl, rfl⟩ := Prod.mk.inj hr
        obtain ⟨helen, hrest⟩ := safeRead_complete helements
        exact ⟨count, .block a e, hlt, rfl, helen,
          by rw [hpending, List.append_assoc]; exact congrArg _ hrest⟩

theorem FsOpType.elemSize_eq (t : FsOpType) : ∀ f ∈ t.serializer.arrays, f.elemSize = 1 := by
  cases t with
  | write => exact List.forall_mem_cons.mpr ⟨rfl, List.forall_mem_singleton.mpr rfl⟩
  | _ => exact List.forall_mem_singleton.mpr rfl

theorem arraysEncoded_wire {fs : List (ArrayField α)} (h : ∀ f ∈ fs, f.Full v) :
    ArraysEncoded fs (fs.flatMap fun f => f.wire v) := by
  induction fs with
  | nil => exact .nil
  | cons f fs ih =>
    have hf := h f (by simp)
    exact .cons (f.count v) (f.elements v) hf.count_lt hf.elements_length
      (ih fun x hx => h x (List.mem_cons_of_mem _ hx))

/-- What is written for an operation whose arrays are there is an encoding. -/
theorem NetFsOperation.encoded_wire {t : FsOpType} {args : t.Args}
    (h : ∀ f ∈ t.serializer.arrays, f.Full args) : Encoded (NetFsOperation.op t args).wire :=
  ⟨t, _, ⟨_, _, t.serializer.image_length args, arraysEncoded_wire h, rfl⟩, rfl⟩

/-- No message is a tag alone. -/
theorem Encoded.lt_length {d : List UInt8} (h : Encoded d) : 4 < d.length := by
  obtain ⟨t, args, ⟨image, arrays, hsize, -, rfl⟩, rfl⟩ := h
  have hpos : 0 < t.serializer.size := by cases t <;> exact Nat.succ_pos _
  rw [List.length_append, leBytes_length, List.length_append, hsize]
  omega

end Arguments

/-! ## The union -/

section Union

/-- The result of the union's reader is that of the transfer of the tag. -/
theorem slzNetFsOperationRead_result (old : List UInt8) (s : Input) :
    ∃ op s', slzNetFsOperationRead old s = .ok (decide (4 ≤ s.source.pending.length), op) s' := by
  obtain ⟨s₁, hread, -⟩ := safeRead_run 4 s
  rw [slzNetFsOperationRead, bind_of_ok hread]
  by_cases h : 4 ≤ s.source.pending.length
  · simp only [decide_eq_true h, Bool.true_eq_false, if_false]
    cases FsOpType.ofCode _ with
    | none => exact ⟨_, s₁, rfl⟩
    | some t =>
      obtain ⟨args, s', hargs⟩ := t.serializer.read_returns
        (t.serializer.ofImage ((old.drop 4).take t.serializer.size)) s₁
      exact ⟨.op t args.2, s', bind_of_ok hargs⟩
  · simp only [decide_eq_false h, if_true]
    exact ⟨_, s₁, rfl⟩

theorem serveNextOperation_idle (fuel : ℕ) (fds : FsDescriptors) (old : List UInt8) (s : Server) :
    (∃ input, serveNextOperation fuel fds old s = .ok false { s with input := input }) ↔
      s.input.source.pending.length < 4 := by
  obtain ⟨op, input, hread⟩ := slzNetFsOperationRead_result old s.input
  rw [serveNextOperation, bind_of_ok (onInput_of_ok hread)]
  by_cases h : 4 ≤ s.input.source.pending.length
  · simp only [decide_eq_true h, if_true]
    refine ⟨fun ⟨input', hrun⟩ => ?_, fun hlt => absurd h (Nat.not_le.mpr hlt)⟩
    obtain ⟨u, s₁, -, hpure⟩ := bind_eq_ok.mp hrun
    cases hpure
  · simp only [decide_eq_false h, Bool.false_eq_true, if_false, pure_run]
    exact ⟨fun _ => Nat.lt_of_not_le h, fun _ => ⟨input, rfl⟩⟩

/-- A pointer without the elements that its field counts. -/
def ArrayField.Missing (f : ArrayField α) (v : α) : Prop := (f.field v).address = 0 ∧ f.count v ≠ 0

theorem slzArraysWrite_returns {v : α} {fs : List (ArrayField α)}
    (h : ∀ f ∈ fs, f.Full v ∨ f.Missing v) (s : Sink UInt8) :
    ∃ ok s', slzArraysWrite fs v s = .ok ok s' := by
  induction fs generalizing s with
  | nil => exact ⟨true, s, rfl⟩
  | cons f fs ih =>
    have hfirst : ∃ ok s₁, slzArrayWrite f v s = .ok ok s₁ := by
      rcases h f (by simp) with hfull | hmissing
      · obtain ⟨s₁, hrun, -⟩ := slzArrayWrite_sends hfull s
        exact ⟨_, s₁, hrun⟩
      · have hmissing' : (f.field v).address = 0 ∧ f.count v ≠ 0 := hmissing
        exact ⟨false, s, by rw [slzArrayWrite, if_pos hmissing', pure_run]⟩
    obtain ⟨ok, s₁, hrun⟩ := hfirst
    rw [slzArraysWrite, bind_of_ok hrun]
    cases ok with
    | false => exact ⟨false, s₁, rfl⟩
    | true => exact ih (fun x hx => h x (List.mem_cons_of_mem _ hx)) s₁

theorem Serializer.write_returns {slz : Serializer α} {v : α}
    (h : ∀ f ∈ slz.arrays, f.Full v ∨ f.Missing v) (s : Sink UInt8) :
    ∃ ok s', slz.write v s = .ok ok s' := by
  obtain ⟨s₁, hrun, -⟩ := safeWrite_sends (slz.image v) s
  rw [Serializer.write, bind_of_ok hrun]
  split
  · exact slzArraysWrite_returns h s₁
  · exact ⟨false, s₁, rfl⟩

variable {t : FsOpType} {args : t.Args}

/-- The result of the union's writer is that of the transfer of the tag. -/
theorem slzNetFsOperationWrite_result (h : ∀ f ∈ t.serializer.arrays, f.Full args ∨ f.Missing args)
    (s : Sink UInt8) :
    ∃ s', slzNetFsOperationWrite (.op t args) s = .ok (decide (s.fit 4 = 4)) s' := by
  obtain ⟨s₁, hrun, -⟩ := safeWrite_sends (leBytes 4 t.code) s
  rw [leBytes_length] at hrun
  rw [slzNetFsOperationWrite, NetFsOperation.type, bind_of_ok hrun]
  by_cases hfit : s.fit 4 = 4
  · obtain ⟨ok, s', hrun'⟩ := Serializer.write_returns h s₁
    rw [decide_eq_true hfit, if_pos rfl]
    exact ⟨s', bind_of_ok hrun'⟩
  · rw [decide_eq_false hfit, if_neg Bool.false_ne_true]
    exact ⟨s₁, rfl⟩

/-- The peer took as much of the encoding as it had room for. -/
theorem slzNetFsOperationWrite_took (h : ∀ f ∈ t.serializer.arrays, f.Full args) (s : Sink UInt8) :
    ∃ ok s', slzNetFsOperationWrite (.op t args) s = .ok ok s' ∧
      s.Took s' ((NetFsOperation.op t args).wire.take (s.fit (NetFsOperation.op t args).wire.length)) := by
  have hseq := (safeWrite_sends (leBytes 4 t.code)).seq (Serializer.write_sends h)
  obtain ⟨s', hrun, htook⟩ := hseq s
  obtain ⟨s₁, htag, -⟩ := safeWrite_sends (leBytes 4 t.code) s
  rw [slzNetFsOperationWrite, NetFsOperation.type, bind_of_ok htag]
  rw [bind_of_ok htag] at hrun
  split at hrun
  · next hfit =>
    rw [if_pos hfit]
    exact ⟨true, s', bind_of_ok hrun, htook⟩
  · next hfit =>
    rw [if_neg hfit]
    obtain ⟨-, rfl⟩ := EStateM.Result.ok.inj hrun
    exact ⟨false, s₁, rfl, htook⟩

end Union

/-- The union is read as 1 from every stream of four bytes, and written as 1 once
four bytes were taken. -/
theorem netFsOperation_partial (old : List UInt8) :
    (∀ s : Input,
      (∀ op s', slzNetFsOperationRead old s = .ok (true, op) s' → ∃ d, Encoded d ∧ d <+: s.source.pending) ↔
        s.source.pending.length < 4 ∨ ∃ d, Encoded d ∧ d <+: s.source.pending) ∧
    (∀ (fuel : ℕ) (fds : FsDescriptors) (d : List UInt8) (s : Server), Encoded d →
      s.input.source.pending <+: d → s.input.source.pending ≠ d →
      (((∃ op input, slzNetFsOperationRead old s.input = .ok (false, op) input) ∧
        ∃ input, serveNextOperation fuel fds old s = .ok false { s with input := input }) ↔
          s.input.source.pending.length < 4)) ∧
    ∀ (t : FsOpType) (args : t.Args) (s : Sink UInt8),
      (∀ f ∈ t.serializer.arrays, f.Full args ∨ f.Missing args) →
      ((∀ s', slzNetFsOperationWrite (.op t args) s = .ok true s' →
          (∀ f ∈ t.serializer.arrays, f.Full args) ∧
            s'.accepted = s.accepted ++ (NetFsOperation.op t args).wire) ↔
        s.fit 4 < 4 ∨ (∀ f ∈ t.serializer.arrays, f.Full args) ∧
          s.fit (NetFsOperation.op t args).wire.length = (NetFsOperation.op t args).wire.length) := by
  refine ⟨fun s => ?_, fun fuel fds d s _ _ _ => ?_, fun t args s hargs => ?_⟩
  · obtain ⟨op, s', hrun⟩ := slzNetFsOperationRead_result old s
    constructor
    · intro h
      by_cases hlen : 4 ≤ s.source.pending.length
      · rw [decide_eq_true hlen] at hrun
        exact .inr (h op s' hrun)
      · exact .inl (Nat.lt_of_not_le hlen)
    · rintro (hlen | hencoded) op' s'' h
      · rw [hrun, decide_eq_false (Nat.not_le.mpr hlen)] at h
        cases h
      · exact hencoded
  · rw [serveNextOperation_idle]
    refine ⟨fun h => h.2, fun h => ⟨?_, h⟩⟩
    obtain ⟨op, s', hrun⟩ := slzNetFsOperationRead_result old s.input
    rw [decide_eq_false (Nat.not_le.mpr h)] at hrun
    exact ⟨op, s', hrun⟩
  · obtain ⟨s', hrun⟩ := slzNetFsOperationWrite_result hargs s
    constructor
    · intro h
      by_cases hfit : s.fit 4 = 4
      · rw [decide_eq_true hfit] at hrun
        obtain ⟨hfull, haccepted⟩ := h s' hrun
        obtain ⟨ok, s₁, hrun₁, htook⟩ := slzNetFsOperationWrite_took hfull s
        rw [hrun] at hrun₁
        obtain ⟨-, rfl⟩ := EStateM.Result.ok.inj hrun₁
        refine .inr ⟨hfull, ?_⟩
        rw [htook.accepted] at haccepted
        have hlen := congrArg List.length (List.append_cancel_left haccepted)
        rw [List.length_take] at hlen
        have hle := s.fit_le (NetFsOperation.op t args).wire.length
        omega
      · exact .inl (Nat.lt_of_le_of_ne (s.fit_le 4) hfit)
    · rintro (hfit | ⟨hfull, hfit⟩) s₂ h
      · rw [hrun, decide_eq_false hfit.ne] at h
        cases h
      · obtain ⟨ok, s₁, hrun₁, htook⟩ := slzNetFsOperationWrite_took hfull s
        rw [h] at hrun₁
        obtain ⟨-, rfl⟩ := EStateM.Result.ok.inj hrun₁
        exact ⟨hfull, by rw [htook.accepted, hfit, List.take_length]⟩

/-- The path `/a`, to be removed. -/
def removeArgs : FsOpType.remove.Args := (⟨⟨3, blockAt8 [47, 97, 0]⟩⟩ : FsOpPathArgs)

def removeA : NetFsOperation := .op .remove removeArgs

theorem removeArgs_full : ∀ f ∈ FsOpType.remove.serializer.arrays, f.Full removeArgs := by
  refine List.forall_mem_singleton.mpr ⟨?_, Nat.le_refl 3⟩
  have hlt : 1 * 3 < wordSize := by
    rw [wordSize]
    omega
  exact hlt

/-- A server that gets the first bytes of that request. -/
def cutServer (n : ℕ) : Server :=
  ⟨⟨fun _ => 0, 0, []⟩, byteByByte (removeA.wire.take n), byteSink, false⟩

theorem netFsOperation_partial_threeBytes :
    ∃ input, serveNextOperation 0 ⟨1⟩ [] (cutServer 3) = .ok false { cutServer 3 with input := input } :=
  ((( netFsOperation_partial []).2.1 0 ⟨1⟩ removeA.wire (cutServer 3)
    (NetFsOperation.encoded_wire removeArgs_full)
    (List.take_prefix 3 _) (by decide)).mpr (by decide)).2

/-- The tag alone is read as 1 and dispatched, and a peer that takes the tag alone
is written to as 1. -/
theorem netFsOperation_partial_counterexample :
    (∃ op s', slzNetFsOperationRead [] (byteByByte [3, 0, 0, 0]) = .ok (true, op) s') ∧
    (¬∃ d, Encoded d ∧ d <+: (byteByByte [3, 0, 0, 0]).source.pending) ∧
    (cutServer 4).input.source.pending = [3, 0, 0, 0] ∧
    (¬∃ input, serveNextOperation 0 ⟨1⟩ [] (cutServer 4) =
      .ok false { cutServer 4 with input := input }) ∧
    ∃ s', slzNetFsOperationWrite removeA ⟨[], fun _ => 1, some 4⟩ = .ok true s' ∧
      s'.accepted = [3, 0, 0, 0] := by
  refine ⟨slzNetFsOperationRead_result [] (byteByByte [3, 0, 0, 0]), ?_, by decide, ?_, ?_⟩
  · rintro ⟨d, hd, hprefix⟩
    exact absurd hprefix.length_le (Nat.not_le.mpr hd.lt_length)
  · rw [serveNextOperation_idle]
    decide
  · have hroom : (⟨[], fun _ => 1, some 4⟩ : Sink UInt8).fit 4 = 4 := rfl
    obtain ⟨s', hrun⟩ := slzNetFsOperationWrite_result (fun f hf => .inl (removeArgs_full f hf))
      ⟨[], fun _ => 1, some 4⟩
    obtain ⟨ok, s₁, hrun₁, htook⟩ := slzNetFsOperationWrite_took removeArgs_full
      ⟨[], fun _ => 1, some 4⟩
    rw [hrun] at hrun₁
    obtain ⟨-, rfl⟩ := EStateM.Result.ok.inj hrun₁
    rw [decide_eq_true hroom] at hrun
    refine ⟨s', hrun, ?_⟩
    rw [htook.accepted, List.nil_append]
    decide

end KisLinux.Net
