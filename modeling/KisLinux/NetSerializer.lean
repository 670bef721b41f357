import KisLinux.NetTransfer

/-!
# Serializers

`_SLZ_SERIALIZER` sends the memory image of a structure, raw pointers included,
and behind it every array field: its count once more, then its elements. Reading
takes the same parts in the same order, so that the counts and pointers of the
image are replaced one after the other. `Fills` lists these replacements.
-/
namespace KisLinux.Net
open ByteMemory StateRun ShortTransfer Fs

variable {α : Type}

/-- `_SLZ_ARRAY`: a pointer field, the field that counts its elements, and their size. -/
structure ArrayField (α : Type) where
  count : α → ℕ
  field : α → Buffer
  /-- Assigns both fields. -/
  set : ℕ → Buffer → α → α
  elemSize : ℕ
  elemSize_pos : 0 < elemSize

/-- `_SLZ_SERIALIZER`: the memory image of a structure and its array fields. -/
structure Serializer (α : Type) where
  size : ℕ
  image : α → List UInt8
  ofImage : List UInt8 → α
  arrays : List (ArrayField α)
  image_length : ∀ v, (image v).length = size

/-- `_SLZ_ARRAY_READER_IMPL`. A count that was read in part keeps its other bytes. -/
def slzArrayRead (f : ArrayField α) (v : α) : InM (Bool × α) := do
  let r ← safeRead 8
  let count := leNat (r.2 ++ (leBytes 8 (f.count v)).drop r.2.length)
  if r.1 = false then pure (false, f.set count (f.field v) v)
  else if count = 0 then pure (true, f.set count .null v)
  else do
    let address ← malloc (wmul f.elemSize count)
    match address with
    | none => pure (false, f.set count .null v)
    | some a => do
      let r ← safeRead (wmul f.elemSize count)
      pure (r.1, f.set count (.block a r.2) v)

/-- The array fields of one structure; the first failure returns. -/
def slzArraysRead : List (ArrayField α) → α → InM (Bool × α)
  | [], v => pure (true, v)
  | f :: fs, v => do
    let r ← slzArrayRead f v
    if r.1 then slzArraysRead fs r.2 else pure (false, r.2)

/-- `_SLZ_SERIALIZER_READER`, over the structure `v` that is there already. -/
def Serializer.read (slz : Serializer α) (v : α) : InM (Bool × α) := do
  let r ← safeRead slz.size
  let v := slz.ofImage (r.2 ++ (slz.image v).drop r.2.length)
  if r.1 then slzArraysRead slz.arrays v else pure (false, v)

/-- The elements that an array field counts. -/
def ArrayField.elements (f : ArrayField α) (v : α) : List UInt8 :=
  (f.field v).bytes.take (wmul f.elemSize (f.count v))

/-- The elements are handed over when all of them lie behind the pointer. -/
def slzElementsWrite (f : ArrayField α) (v : α) : OutM Bool :=
  if f.count v = 0 then pure true
  else if (f.field v).bytes.length < wmul f.elemSize (f.count v) then throw .fault
  else safeWrite (f.elements v)

/-- `_SLZ_ARRAY_WRITER_IMPL`. -/
def slzArrayWrite (f : ArrayField α) (v : α) : OutM Bool :=
  if (f.field v).address = 0 ∧ f.count v ≠ 0 then pure false
  else do
    let ok ← safeWrite (leBytes 8 (f.count v))
    if ok then slzElementsWrite f v else pure false

def slzArraysWrite : List (ArrayField α) → α → OutM Bool
  | [], _ => pure true
  | f :: fs, v => do
    let ok ← slzArrayWrite f v
    if ok then slzArraysWrite fs v else pure false

/-- `_SLZ_SERIALIZER_WRITER`. -/
def Serializer.write (slz : Serializer α) (v : α) : OutM Bool := do
  let ok ← safeWrite (slz.image v)
  if ok then slzArraysWrite slz.arrays v else pure false

/-- The bytes of an array on the wire. -/
def ArrayField.wire (f : ArrayField α) (v : α) : List UInt8 := leBytes 8 (f.count v) ++ f.elements v

/-- The bytes of a structure on the wire. -/
def Serializer.wire (slz : Serializer α) (v : α) : List UInt8 :=
  slz.image v ++ slz.arrays.flatMap fun f => f.wire v

/-- The array is there: all elements lie behind the pointer, and their length is a `size_t`. -/
structure ArrayField.Full (f : ArrayField α) (v : α) : Prop where
  fits : f.elemSize * f.count v < wordSize
  filled : f.elemSize * f.count v ≤ (f.field v).bytes.length

namespace ArrayField

variable {f : ArrayField α} {v : α}

theorem Full.length_eq (h : f.Full v) : wmul f.elemSize (f.count v) = f.elemSize * f.count v :=
  Nat.mod_eq_of_lt h.fits

theorem Full.elements_length (h : f.Full v) : (f.elements v).length = f.elemSize * f.count v := by
  rw [elements, h.length_eq, List.length_take, Nat.min_eq_left h.filled]

theorem Full.count_lt (h : f.Full v) : f.count v < wordSize :=
  Nat.lt_of_le_of_lt (Nat.le_mul_of_pos_left _ f.elemSize_pos) h.fits

theorem Full.count_eq (h : f.Full v) : leNat (leBytes 8 (f.count v)) = f.count v :=
  leNat_leBytes h.count_lt

theorem Full.elements_nil (h : f.Full v) (hc : f.count v = 0) : f.elements v = [] := by
  apply List.eq_nil_of_length_eq_zero
  rw [h.elements_length, hc, Nat.mul_zero]

theorem Full.nonnull (h : f.Full v) : ¬ ((f.field v).address = 0 ∧ f.count v ≠ 0) := by
  rintro ⟨hnull, hcount⟩
  have hfilled := h.filled
  rw [(f.field v).nonnull hnull, List.length_nil] at hfilled
  have hpos := Nat.mul_pos f.elemSize_pos (Nat.pos_of_ne_zero hcount)
  omega

end ArrayField

section Write

variable {f : ArrayField α} {slz : Serializer α} {v : α}

theorem slzArrayWrite_sends (h : f.Full v) : Sends (slzArrayWrite f v) (f.wire v) := by
  have helements : Sends (slzElementsWrite f v) (f.elements v) := by
    unfold slzElementsWrite
    by_cases hc : f.count v = 0
    · rw [if_pos hc, h.elements_nil hc]
      exact sends_nil
    · rw [if_neg hc, if_neg (by rw [h.length_eq]; exact Nat.not_lt.mpr h.filled)]
      exact safeWrite_sends _
  rw [slzArrayWrite, if_neg h.nonnull]
  exact (safeWrite_sends _).seq helements

theorem slzArraysWrite_sends {fs : List (ArrayField α)} (h : ∀ f ∈ fs, f.Full v) :
    Sends (slzArraysWrite fs v) (fs.flatMap fun f => f.wire v) := by
  induction fs with
  | nil => exact sends_nil
  | cons f fs ih =>
    rw [List.flatMap_cons]
    exact (slzArrayWrite_sends (h f (by simp))).seq (ih fun x hx => h x (List.mem_cons_of_mem _ hx))

theorem Serializer.write_sends (h : ∀ f ∈ slz.arrays, f.Full v) :
    Sends (slz.write v) (slz.wire v) :=
  (safeWrite_sends _).seq (slzArraysWrite_sends h)

end Write

/-- `w` becomes `w'` when the array fields get the counts and elements of `v`. -/
inductive Fills (v : α) : List (ArrayField α) → α → α → Prop
  | nil (w : α) : Fills v [] w w
  | cons {f : ArrayField α} {fs : List (ArrayField α)} {w w' : α} (b : Buffer)
      (elements : b.bytes = f.elements v) (rest : Fills v fs (f.set (f.count v) b w) w') :
      Fills v (f :: fs) w w'

section Read

variable {f : ArrayField α} {slz : Serializer α} {v : α} {s : Input} {rest : List UInt8} {bound : ℕ}

theorem slzArrayRead_run (h : f.Full v) (hs : s.source.pending = f.wire v ++ rest)
    (hheap : s.heap.Grants bound) (hbound : f.elemSize * f.count v ≤ bound) (w : α) :
    ∃ b s', slzArrayRead f w s = .ok (true, f.set (f.count v) b w) s' ∧ b.bytes = f.elements v ∧
      s'.source.pending = rest ∧ s'.heap.Grants bound := by
  rw [ArrayField.wire, List.append_assoc] at hs
  obtain ⟨s₁, hread, hgave, hpending⟩ := safeRead_of_pending hs
  rw [leBytes_length] at hread
  have hcount : leNat (leBytes 8 (f.count v) ++
      (leBytes 8 (f.count w)).drop (leBytes 8 (f.count v)).length) = f.count v := by
    rw [leBytes_length, List.drop_of_length_le (leBytes_length 8 _).le, List.append_nil, h.count_eq]
  rw [slzArrayRead, bind_of_ok hread]
  simp only [hcount, Bool.true_eq_false, if_false]
  by_cases hc : f.count v = 0
  · refine ⟨.null, s₁, ?_, (h.elements_nil hc).symm, ?_, hgave.heap ▸ hheap⟩
    · rw [if_pos hc, pure_run]
    · rw [hpending, h.elements_nil hc, List.nil_append]
  · have hheap₁ : s₁.heap.Grants bound := hgave.heap ▸ hheap
    obtain ⟨a, ha⟩ := hheap₁ 0 (wmul f.elemSize (f.count v)) (by rwa [h.length_eq])
    have hmalloc : malloc (wmul f.elemSize (f.count v)) s₁ =
        .ok (some a) { s₁ with heap := s₁.heap.next } := by rw [malloc, ha]
    obtain ⟨s₂, hread₂, hgave₂, hpending₂⟩ :=
      safeRead_of_pending (s := { s₁ with heap := s₁.heap.next }) hpending
    rw [h.elements_length, ← h.length_eq] at hread₂
    refine ⟨.block a (f.elements v), s₂, ?_, rfl, hpending₂, ?_⟩
    · rw [if_neg hc, bind_of_ok hmalloc]
      simp only
      rw [bind_of_ok hread₂, pure_run]
    · rw [hgave₂.heap]
      exact hheap₁.next

theorem slzArraysRead_run {fs : List (ArrayField α)} (h : ∀ f ∈ fs, f.Full v)
    (hs : s.source.pending = (fs.flatMap fun f => f.wire v) ++ rest) (hheap : s.heap.Grants bound)
    (hbound : ∀ f ∈ fs, f.elemSize * f.count v ≤ bound) (w : α) :
    ∃ w' s', slzArraysRead fs w s = .ok (true, w') s' ∧ Fills v fs w w' ∧
      s'.source.pending = rest ∧ s'.heap.Grants bound := by
  induction fs generalizing s w with
  | nil => exact ⟨w, s, rfl, .nil w, hs, hheap⟩
  | cons f fs ih =>
    rw [List.flatMap_cons, List.append_assoc] at hs
    obtain ⟨b, s₁, hrun, hb, hpending, hheap₁⟩ :=
      slzArrayRead_run (h f (by simp)) hs hheap (hbound f (by simp)) w
    obtain ⟨w', s', hrun', hfills, hpending', hheap'⟩ :=
      ih (fun x hx => h x (List.mem_cons_of_mem _ hx)) hpending hheap₁
        (fun x hx => hbound x (List.mem_cons_of_mem _ hx)) (f.set (f.count v) b w)
    refine ⟨w', s', ?_, .cons b hb hfills, hpending', hheap'⟩
    rw [slzArraysRead, bind_of_ok hrun]
    exact hrun'

/-- Reading what was written fills the arrays of the image again. -/
theorem Serializer.read_run (h : ∀ f ∈ slz.arrays, f.Full v)
    (hs : s.source.pending = slz.wire v ++ rest) (hheap : s.heap.Grants bound)
    (hbound : ∀ f ∈ slz.arrays, f.elemSize * f.count v ≤ bound) (old : α) :
    ∃ w s', slz.read old s = .ok (true, w) s' ∧ Fills v slz.arrays (slz.ofImage (slz.image v)) w ∧
      s'.source.pending = rest ∧ s'.heap.Grants bound := by
  rw [Serializer.wire, List.append_assoc] at hs
  obtain ⟨s₁, hread, hgave, hpending⟩ := safeRead_of_pending hs
  obtain ⟨w, s', hrun, hfills, hpending', hheap'⟩ :=
    slzArraysRead_run h hpending (hgave.heap ▸ hheap) hbound (slz.ofImage (slz.image v))
  rw [slz.image_length] at hread
  have himage : slz.image v ++ (slz.image old).drop (slz.image v).length = slz.image v := by
    rw [slz.image_length, ← slz.image_length old, List.drop_length, List.append_nil]
  refine ⟨w, s', ?_, hfills, hpending', hheap'⟩
  rw [Serializer.read, bind_of_ok hread]
  simp only [himage, if_true]
  exact hrun

/-! Reading never stops a process, whatever comes: only the result tells. -/

theorem slzArrayRead_returns (f : ArrayField α) (v : α) (s : Input) :
    ∃ r s', slzArrayRead f v s = .ok r s' := by
  obtain ⟨s₁, hread, -⟩ := safeRead_run 8 s
  rw [slzArrayRead, bind_of_ok hread]
  simp only
  split
  · exact ⟨_, _, rfl⟩
  · split
    · exact ⟨_, _, rfl⟩
    · generalize leNat (s.source.pending.take 8 ++ _) = count
      have hmalloc : malloc (wmul f.elemSize count) s₁ =
        .ok (s₁.heap.answers 0 (wmul f.elemSize count)) { s₁ with heap := s₁.heap.next } := rfl
      rw [bind_of_ok hmalloc]
      cases s₁.heap.answers 0 (wmul f.elemSize count) with
      | none => exact ⟨_, _, rfl⟩
      | some a =>
        obtain ⟨s₂, hread₂, -⟩ := safeRead_run (wmul f.elemSize count) { s₁ with heap := s₁.heap.next }
        exact ⟨_, s₂, bind_of_ok hread₂⟩

theorem slzArraysRead_returns (fs : List (ArrayField α)) (v : α) (s : Input) :
    ∃ r s', slzArraysRead fs v s = .ok r s' := by
  induction fs generalizing v s with
  | nil => exact ⟨_, _, rfl⟩
  | cons f fs ih =>
    obtain ⟨r, s₁, hrun⟩ := slzArrayRead_returns f v s
    rw [slzArraysRead, bind_of_ok hrun]
    split
    · exact ih r.2 s₁
    · exact ⟨_, _, rfl⟩

theorem Serializer.read_returns (slz : Serializer α) (v : α) (s : Input) :
    ∃ r s', slz.read v s = .ok r s' := by
  obtain ⟨s₁, hread, -⟩ := safeRead_run slz.size s
  rw [Serializer.read, bind_of_ok hread]
  simp only
  split
  · exact slzArraysRead_returns _ _ s₁
  · exact ⟨_, _, rfl⟩

end Read

end KisLinux.Net
