import KisLinux.NetConversation
import KisLinux.NetPointers

/-!
# The heap on the wire

Two servers with the same image and the same bytes to read differ in where their
allocators put things. Their runs are coupled: both end alike, with the same image,
and both have sent messages with the same logical content. So a reply shows the
heap in the pointer bytes of `NetPointers` and nowhere else.
-/
namespace KisLinux.Net
open ByteMemory StateRun ShortTransfer Fs TwoRuns

/-! ## Reading -/

/-- The same bytes to come, and allocators that grant the same requests. -/
structure Input.Alike (s t : Input) : Prop where
  pending : s.source.pending = t.source.pending
  answers : ∀ i n, (s.heap.answers i n).isSome = (t.heap.answers i n).isSome

theorem safeRead_coupled (n : ℕ) :
    Coupled Input.Alike (fun r r' => r = r' ∧ (r.1 = true → r.2.length = n)) (safeRead n)
      (safeRead n) := by
  intro s t h
  obtain ⟨s', hrun, hgave⟩ := safeRead_run n s
  obtain ⟨t', hrun', hgave'⟩ := safeRead_run n t
  rw [hrun, hrun']
  refine .ok ⟨by rw [h.pending], fun hall => ?_⟩ ⟨?_, fun i m => ?_⟩
  · have hle := of_decide_eq_true hall
    rw [List.length_take]
    omega
  · have hs := hgave.source.pending
    have ht := hgave'.source.pending
    rw [← h.pending] at ht
    exact List.append_cancel_left (hs.symm.trans ht)
  · rw [hgave.heap, hgave'.heap, h.answers]

theorem malloc_coupled (n : ℕ) :
    Coupled Input.Alike (fun a b => a.isSome = b.isSome) (malloc n) (malloc n) := fun _ _ h =>
  .ok (h.answers 0 n) ⟨h.pending, fun i => h.answers (i + 1)⟩

section Serializer

variable {α : Type} {slz : Serializer α} {f : ArrayField α} {ρ : α → α → Prop}

/-- `ρ` relates structures whose buffers hold the same bytes, wherever these are. -/
structure ArrayField.Respects (f : ArrayField α) (ρ : α → α → Prop) : Prop where
  count : ∀ v w, ρ v w → f.count v = f.count w
  bytes : ∀ v w, ρ v w → (f.field v).bytes = (f.field w).bytes
  set : ∀ v w, ρ v w → ∀ (n : ℕ) (b c : Buffer), b.bytes = c.bytes → ρ (f.set n b v) (f.set n c w)

theorem slzArrayRead_coupled (hf : f.Respects ρ) {v w : α} (h : ρ v w) :
    Coupled Input.Alike (fun r r' => r.1 = r'.1 ∧ ρ r.2 r'.2) (slzArrayRead f v)
      (slzArrayRead f w) := by
  unfold slzArrayRead
  rw [hf.count v w h]
  refine (safeRead_coupled 8).bind fun r _ ⟨heq, _⟩ => ?_
  subst heq
  dsimp only
  refine .ite (.pure ⟨rfl, hf.set v w h _ _ _ (hf.bytes v w h)⟩)
    (.ite (.pure ⟨rfl, hf.set v w h _ _ _ rfl⟩) ?_)
  refine (malloc_coupled _).bind_option (.pure ⟨rfl, hf.set v w h _ _ _ rfl⟩) fun a b => ?_
  refine (safeRead_coupled _).bind fun r _ ⟨heq, _⟩ => ?_
  subst heq
  exact .pure ⟨rfl, hf.set v w h _ _ _ rfl⟩

theorem slzArraysRead_coupled {fs : List (ArrayField α)} (hfs : ∀ f ∈ fs, f.Respects ρ) {v w : α}
    (h : ρ v w) :
    Coupled Input.Alike (fun r r' => r.1 = r'.1 ∧ ρ r.2 r'.2) (slzArraysRead fs v)
      (slzArraysRead fs w) := by
  induction fs generalizing v w with
  | nil => exact .pure ⟨rfl, h⟩
  | cons f fs ih =>
    refine (slzArrayRead_coupled (hfs f (by simp)) h).bind fun r r' ⟨hok, hr⟩ => ?_
    rw [hok]
    exact .ite (ih (fun g hg => hfs g (List.mem_cons_of_mem _ hg)) hr) (.pure ⟨rfl, hr⟩)

/-- What was on the stack shows only in an image that came in part, without any array. -/
theorem Serializer.read_coupled (hfs : ∀ f ∈ slz.arrays, f.Respects ρ) (hrefl : ∀ v, ρ v v)
    (old old' : α) :
    Coupled Input.Alike
      (fun r r' => ρ r.2 r'.2 ∨ ∃ b b', r.2 = slz.ofImage b ∧ r'.2 = slz.ofImage b')
      (slz.read old) (slz.read old') := by
  refine (safeRead_coupled slz.size).bind fun r _ ⟨heq, hall⟩ => ?_
  subst heq
  dsimp only
  by_cases hok : r.1 = true
  · have hdrop : ∀ v, (slz.image v).drop r.2.length = [] := fun v =>
      List.drop_eq_nil_of_le (by rw [slz.image_length, hall hok])
    rw [hdrop, hdrop, if_pos hok]
    exact (slzArraysRead_coupled hfs (hrefl _)).mono fun _ _ h => .inl h.2
  · rw [if_neg hok, if_neg hok]
    exact .pure (.inr ⟨_, _, rfl, rfl⟩)

end Serializer

/-- The same characters, wherever they are. -/
def NetString.Alike (v w : NetString) : Prop := v.length = w.length ∧ v.string.bytes = w.string.bytes

namespace FsOpType

/-- Arguments that differ in addresses only. -/
def ArgsAlike : (t : FsOpType) → t.Args → t.Args → Prop
  | read, v, w => let v : FsOpReadArgs := v; let w : FsOpReadArgs := w
    v.path.Alike w.path ∧ v.offset = w.offset ∧ v.length = w.length
  | write, v, w => let v : FsOpWriteArgs := v; let w : FsOpWriteArgs := w
    v.path.Alike w.path ∧ v.offset = w.offset ∧ v.length = w.length ∧ v.data.bytes = w.data.bytes
  | create, v, w => let v : FsOpCreateArgs := v; let w : FsOpCreateArgs := w
    v.path.Alike w.path ∧ v.flags = w.flags
  | remove, v, w | stat, v, w | readDir, v, w => (FsOpPathArgs.path v).Alike (FsOpPathArgs.path w)

theorem ArgsAlike.refl (t : FsOpType) (v : t.Args) : t.ArgsAlike v v := by
  cases t with
  | read => exact ⟨⟨rfl, rfl⟩, rfl, rfl⟩
  | write => exact ⟨⟨rfl, rfl⟩, rfl, rfl, rfl⟩
  | create => exact ⟨⟨rfl, rfl⟩, rfl⟩
  | remove => exact ⟨rfl, rfl⟩
  | stat => exact ⟨rfl, rfl⟩
  | readDir => exact ⟨rfl, rfl⟩

/-- The readers of all array fields keep that. -/
theorem argsAlike_respects (t : FsOpType) : ∀ f ∈ t.serializer.arrays, f.Respects t.ArgsAlike := by
  have hpath : ∀ f ∈ FsOpPathArgs.serializer.arrays,
      f.Respects fun v w : FsOpPathArgs => v.path.Alike w.path := by
    intro f hf
    obtain rfl := List.mem_singleton.mp hf
    exact ⟨fun _ _ h => h.1, fun _ _ h => h.2, fun _ _ _ _ _ _ hbytes => ⟨rfl, hbytes⟩⟩
  cases t with
  | read =>
    intro f hf
    obtain rfl := List.mem_singleton.mp hf
    exact ⟨fun _ _ h => h.1.1, fun _ _ h => h.1.2, fun _ _ h _ _ _ hbytes => ⟨⟨rfl, hbytes⟩, h.2⟩⟩
  | write =>
    intro f hf
    rcases List.mem_cons.mp hf with rfl | hf
    · exact ⟨fun _ _ h => h.1.1, fun _ _ h => h.1.2, fun _ _ h _ _ _ hbytes => ⟨⟨rfl, hbytes⟩, h.2⟩⟩
    · obtain rfl := List.mem_singleton.mp hf
      exact ⟨fun _ _ h => h.2.2.1, fun _ _ h => h.2.2.2,
        fun _ _ h _ _ _ hbytes => ⟨h.1, h.2.1, rfl, hbytes⟩⟩
  | create =>
    intro f hf
    obtain rfl := List.mem_singleton.mp hf
    exact ⟨fun _ _ h => h.1.1, fun _ _ h => h.1.2, fun _ _ h _ _ _ hbytes => ⟨⟨rfl, hbytes⟩, h.2⟩⟩
  | remove => exact hpath
  | stat => exact hpath
  | readDir => exact hpath

/-- A path of which only the pointer came. -/
theorem path_ofImage (t : FsOpType) (b : List UInt8) :
    (t.path (t.serializer.ofImage b)).string.bytes = [] := by
  cases t <;> rfl

end FsOpType

/-- Operations that differ in addresses only, or of which no path came. -/
inductive NetFsOperation.Alike : NetFsOperation → NetFsOperation → Prop
  | op (t : FsOpType) (v w : t.Args) (args : t.ArgsAlike v w) : Alike (.op t v) (.op t w)
  | nowhere (t : FsOpType) (v w : t.Args) (left : (t.path v).string.bytes = [])
      (right : (t.path w).string.bytes = []) : Alike (.op t v) (.op t w)
  | other (type : ℕ) : Alike (.other type) (.other type)

theorem slzNetFsOperationRead_coupled (old old' : List UInt8) :
    Coupled Input.Alike (fun r r' => r.1 = r'.1 ∧ (r.1 = true → r.2.Alike r'.2))
      (slzNetFsOperationRead old) (slzNetFsOperationRead old') := by
  refine (safeRead_coupled 4).bind fun r _ ⟨heq, hall⟩ => ?_
  subst heq
  dsimp only
  by_cases hok : r.1 = true
  · have hdrop : ∀ d : List UInt8, (d.take 4).drop r.2.length = [] := fun d =>
      List.drop_eq_nil_of_le (by rw [hall hok, List.length_take]; exact Nat.min_le_left _ _)
    rw [hdrop, hdrop, if_neg (by rw [hok]; simp), if_neg (by rw [hok]; simp)]
    cases FsOpType.ofCode (leNat (r.2 ++ [])) with
    | none => exact .pure ⟨rfl, fun _ => .other _⟩
    | some t =>
      refine (Serializer.read_coupled t.argsAlike_respects (FsOpType.ArgsAlike.refl t) _ _).bind
        fun v w hvw => .pure ⟨rfl, fun _ => ?_⟩
      rcases hvw with halike | ⟨b, b', hv, hw⟩
      · exact .op t _ _ halike
      · exact .nowhere t _ _ (by rw [hv, t.path_ofImage]) (by rw [hw, t.path_ofImage])
  · have hfalse : r.1 = false := Bool.eq_false_iff.mpr hok
    rw [if_pos hfalse, if_pos hfalse]
    exact .pure ⟨rfl, fun h => by cases h⟩

/-! ## Answering -/

/-- Messages one behind the other, each as far as the connection took it. -/
def sentBytes (parts : List (Message × ℕ)) : List UInt8 := parts.flatMap fun p => p.1.wire.take p.2

/-- Behind what was taken before, the connections took messages with the same content,
and the same number of bytes of each. -/
structure SentAlike (base base' : List UInt8) (s t : Sink UInt8) : Prop where
  room : s.room = t.room
  sent : ∃ parts parts' : List (Message × ℕ),
    List.Forall₂ (fun p p' => p.1.Same p'.1 ∧ p.2 = p'.2) parts parts' ∧
      s.accepted = base ++ sentBytes parts ∧ t.accepted = base' ++ sentBytes parts'

/-- Servers that differ in what their heaps look like. -/
structure Server.Alike (base base' : List UInt8) (s t : Server) : Prop where
  image : s.image = t.image
  input : s.input.Alike t.input
  output : SentAlike base base' s.output t.output
  errorIntercepted : s.errorIntercepted = t.errorIntercepted

/-- Pointers to the same bytes, or null on both sides. -/
structure Buffer.Alike (b c : Buffer) : Prop where
  bytes : b.bytes = c.bytes
  null : b.address = 0 ↔ c.address = 0

theorem Buffer.block_alike (a a' : ℕ+) (bytes : List UInt8) :
    (Buffer.block a bytes).Alike (.block a' bytes) :=
  ⟨rfl, iff_of_false a.ne_zero a'.ne_zero⟩

theorem ArrayField.same_of_alike {α : Type} {f : ArrayField α} {v w : α}
    (hcount : f.count v = f.count w) (h : (f.field v).Alike (f.field w)) : f.Same v w :=
  ⟨hcount, by rw [ArrayField.elements, ArrayField.elements, hcount, h.bytes], fun _ => h.null⟩

namespace Buffer.Alike

variable {b c : Buffer} {n size : ℕ}

theorem string (h : b.Alike c) : Message.Same (.string ⟨n, b⟩) (.string ⟨n, c⟩) := by
  refine .string _ _ ⟨.content _ (.pointer _ _ .nil), fun f hf => ?_⟩
  obtain rfl := List.mem_singleton.mp hf
  exact ArrayField.same_of_alike rfl h

theorem statResponse (h : b.Alike c) :
    Message.Same (.statResponse ⟨size, n, b⟩) (.statResponse ⟨size, n, c⟩) := by
  refine .statResponse _ _ ⟨.content _ (.content _ (.pointer _ _ .nil)), fun f hf => ?_⟩
  obtain rfl := List.mem_singleton.mp hf
  exact ArrayField.same_of_alike rfl h

theorem listing (h : b.Alike c) : Message.Same (.listing ⟨n, b⟩) (.listing ⟨n, c⟩) := by
  refine .listing _ _ ⟨.content _ (.pointer _ _ .nil), fun f hf => ?_⟩
  obtain rfl := List.mem_singleton.mp hf
  exact ArrayField.same_of_alike rfl h

end Buffer.Alike

theorem Message.Same.write_coupled {m m' : Message} (h : m.Same m') (base base' : List UInt8) :
    Coupled (SentAlike base base') Eq m.write m'.write := by
  intro s t hst
  obtain ⟨parts, parts', hparts, hs, ht⟩ := hst.sent
  obtain ⟨k, s', t', -, hs', ht', hroom, hends⟩ := h.write_matched s t hst.room
  have hsent : SentAlike base base' s' t' := by
    refine ⟨hroom, parts ++ [(m, k)], parts' ++ [(m', k)], ?_, ?_, ?_⟩
    · exact List.rel_append hparts (.cons ⟨h, rfl⟩ .nil)
    · rw [hs', hs, sentBytes, sentBytes, List.flatMap_append, List.append_assoc]
      simp
    · rw [ht', ht, sentBytes, sentBytes, List.flatMap_append, List.append_assoc]
      simp
  rcases hends with ⟨ok, hx, hy, -⟩ | ⟨e, hx, hy⟩
  · rw [hx, hy]
    exact .ok rfl hsent
  · rw [hx, hy]
    exact .error hsent

section Server

variable {α β : Type} {base base' : List UInt8} {R : α → β → Prop}

theorem onImage_coupled (x : FsM α) :
    Coupled (Server.Alike base base') Eq (onImage x) (onImage x) :=
  (Coupled.refl x).onPart (fun _ _ h => h.image) fun _ _ h _ _ himage => { h with image := himage }

theorem onInput_coupled {x : InM α} {y : InM β} (h : Coupled Input.Alike R x y) :
    Coupled (Server.Alike base base') R (onInput x) (onInput y) :=
  h.onPart (fun _ _ h => h.input) fun _ _ h _ _ hinput => { h with input := hinput }

theorem onOutput_coupled {x : OutM α} {y : OutM β} (h : Coupled (SentAlike base base') R x y) :
    Coupled (Server.Alike base base') R (onOutput x) (onOutput y) :=
  h.onPart (fun _ _ h => h.output) fun _ _ h _ _ houtput => { h with output := houtput }

theorem answer_coupled {m m' : Message} (h : m.Same m') :
    Coupled (Server.Alike base base') Eq (answer m.write) (answer m'.write) := by
  refine (onOutput_coupled (h.write_coupled base base')).bind_eq fun ok => ?_
  exact .ite (.pure rfl) (.throw _)

theorem toNetString_coupled (text : List UInt8) :
    Coupled (Server.Alike base base') (fun v w => Message.Same (.string v) (.string w))
      (toNetString text) (toNetString text) := by
  refine (onInput_coupled (malloc_coupled _)).bind_option (.throw _) fun a b => ?_
  exact .pure (Buffer.block_alike a b _).string

theorem heapBlock_coupled (bytes : List UInt8) :
    Coupled (Server.Alike base base') Buffer.Alike (heapBlock bytes) (heapBlock bytes) := by
  refine (onInput_coupled (malloc_coupled _)).bind_option
    (.ite (.pure ⟨rfl, Iff.rfl⟩) (.throw _)) fun a b => ?_
  exact .pure (Buffer.block_alike a b _)

theorem get_coupled : Coupled (Server.Alike base base') (Server.Alike base base')
    (get : SrvM Server) (get : SrvM Server) := fun _ _ h => .ok h h

theorem writeEmptyError_coupled :
    Coupled (Server.Alike base base') Eq writeEmptyError writeEmptyError := by
  refine get_coupled.bind fun s t h => ?_
  rw [h.errorIntercepted]
  exact .ite (.pure rfl) ((toNetString_coupled []).bind fun _ _ hstr => answer_coupled hstr)

theorem fsopError_coupled (e : FsError) :
    Coupled (Server.Alike base base') Eq (fsopError e) (fsopError e) := by
  refine get_coupled.bind fun s t h => ?_
  rw [h.errorIntercepted]
  refine .ite (.pure rfl) ?_
  have hset : Coupled (Server.Alike base base') Eq
      (set { s with errorIntercepted := true } : SrvM PUnit)
      (set { t with errorIntercepted := true } : SrvM PUnit) := fun _ _ _ =>
    .ok rfl { h with errorIntercepted := rfl }
  exact hset.bind_eq fun _ => (toNetString_coupled _).bind fun _ _ hstr =>
    .ite (.throw _) (answer_coupled hstr)

theorem exited_coupled {R : α → β → Prop} (e : FsError) {r r' : EStateM.Result Stop Server Unit}
    (h : TwoRuns.Alike (Server.Alike base base') Eq r r') :
    TwoRuns.Alike (Server.Alike base base') R (exited e r) (exited e r') := by
  cases h with
  | ok value state => exact .error state
  | @error e' s' t' state =>
    cases e' with
    | die e' => exact .error state
    | fault => exact .error state
    | diverged => exact .error state

theorem intercepted_coupled {x : SrvM α} {y : SrvM β}
    (h : Coupled (Server.Alike base base') R x y) :
    Coupled (Server.Alike base base') R (intercepted x) (intercepted y) := by
  intro s t hst
  have hends := h s t hst
  unfold intercepted
  generalize x s = r at hends
  generalize y t = r' at hends
  cases hends with
  | ok value state => exact .ok value state
  | @error e s' t' state =>
    cases e with
    | die e => exact exited_coupled e (fsopError_coupled e s' t' state)
    | fault => exact .error state
    | diverged => exact .error state

theorem splitArg_coupled {v w : NetString} (h : v.string.bytes = w.string.bytes) :
    Coupled (Server.Alike base base') Eq (splitArg v) (splitArg w) := by
  rw [splitArg, splitArg, h]
  cases cString w.string.bytes with
  | none => exact .throw _
  | some s => exact onImage_coupled _

/-- A handler without the characters of a path leaves its memory. -/
theorem splitArg_nowhere {v : NetString} (h : v.string.bytes = []) (f : Path → SrvM α) :
    (splitArg v >>= f) = throw .fault := by
  rw [splitArg, h]
  rfl

theorem processOperation_nowhere (fuel : ℕ) (fds : FsDescriptors) (t : FsOpType) (args : t.Args)
    (h : (t.path args).string.bytes = []) : processOperation fuel fds (.op t args) = throw .fault := by
  cases t with
  | _ => exact splitArg_nowhere h _

theorem fsopRead_coupled (fds : FsDescriptors) {v w : FsOpReadArgs}
    (hpath : v.path.string.bytes = w.path.string.bytes) (hoffset : v.offset = w.offset)
    (hlength : v.length = w.length) :
    Coupled (Server.Alike base base') Eq (fsopRead fds v) (fsopRead fds w) := by
  rw [fsopRead, fsopRead, hoffset, hlength]
  refine (splitArg_coupled hpath).bind_eq fun path => (onImage_coupled _).bind_eq fun inode => ?_
  refine (onInput_coupled (malloc_coupled _)).bind_option (.throw _) fun a b => ?_
  exact (onImage_coupled _).bind_eq fun read => writeEmptyError_coupled.bind_eq fun _ =>
    answer_coupled (Buffer.block_alike a b read).string

theorem fsopWrite_coupled (fuel : ℕ) (fds : FsDescriptors) {v w : FsOpWriteArgs}
    (hpath : v.path.string.bytes = w.path.string.bytes) (hoffset : v.offset = w.offset)
    (hlength : v.length = w.length) (hdata : v.data.bytes = w.data.bytes) :
    Coupled (Server.Alike base base') Eq (fsopWrite fuel fds v) (fsopWrite fuel fds w) := by
  rw [fsopWrite, fsopWrite, hoffset, hlength, hdata]
  refine (splitArg_coupled hpath).bind_eq fun path => (onImage_coupled _).bind_eq fun inode => ?_
  exact .ite (.throw _) ((onImage_coupled _).bind_eq fun _ => writeEmptyError_coupled)

theorem fsopCreate_coupled (fuel : ℕ) (fds : FsDescriptors) {v w : FsOpCreateArgs}
    (hpath : v.path.string.bytes = w.path.string.bytes) (hflags : v.flags = w.flags) :
    Coupled (Server.Alike base base') Eq (fsopCreate fuel fds v) (fsopCreate fuel fds w) := by
  rw [fsopCreate, fsopCreate, hflags]
  refine (splitArg_coupled hpath).bind_eq fun path => (onImage_coupled _).bind_eq fun inode => ?_
  refine (onImage_coupled _).bind_eq fun name => .ite (.throw _) ?_
  exact (onImage_coupled _).bind_eq fun _ => (onImage_coupled _).bind_eq fun _ =>
    writeEmptyError_coupled

theorem fsopRemove_coupled (fuel : ℕ) (fds : FsDescriptors) {v w : FsOpRemoveArgs}
    (hpath : v.path.string.bytes = w.path.string.bytes) :
    Coupled (Server.Alike base base') Eq (fsopRemove fuel fds v) (fsopRemove fuel fds w) := by
  refine (splitArg_coupled hpath).bind_eq fun path => (onImage_coupled _).bind_eq fun inode => ?_
  refine (onImage_coupled _).bind_eq fun name => (onImage_coupled _).bind_eq fun file => ?_
  exact (onImage_coupled _).bind_eq fun _ => writeEmptyError_coupled

theorem fsopStat_coupled (fds : FsDescriptors) {v w : FsOpStatArgs}
    (hpath : v.path.string.bytes = w.path.string.bytes) :
    Coupled (Server.Alike base base') Eq (fsopStat fds v) (fsopStat fds w) := by
  refine (splitArg_coupled hpath).bind_eq fun path => (onImage_coupled _).bind_eq fun inode => ?_
  refine (onImage_coupled _).bind_eq fun size => (onImage_coupled _).bind_eq fun count => ?_
  refine (onImage_coupled _).bind_eq fun trace => (heapBlock_coupled _).bind fun b c hbc => ?_
  exact writeEmptyError_coupled.bind_eq fun _ => answer_coupled hbc.statResponse

theorem fsopReadDir_coupled (fds : FsDescriptors) {v w : FsOpReadDirArgs}
    (hpath : v.path.string.bytes = w.path.string.bytes) :
    Coupled (Server.Alike base base') Eq (fsopReadDir fds v) (fsopReadDir fds w) := by
  refine (splitArg_coupled hpath).bind_eq fun path => (onImage_coupled _).bind_eq fun inode => ?_
  refine (onImage_coupled _).bind_eq fun content => (heapBlock_coupled _).bind fun b c hbc => ?_
  exact writeEmptyError_coupled.bind_eq fun _ => answer_coupled hbc.listing

/-- The handlers use what is alike. -/
theorem processOperation_coupled (fuel : ℕ) (fds : FsDescriptors) {op op' : NetFsOperation}
    (h : op.Alike op') :
    Coupled (Server.Alike base base') Eq (processOperation fuel fds op)
      (processOperation fuel fds op') := by
  cases h with
  | other type => exact .pure rfl
  | nowhere t v w left right =>
    rw [processOperation_nowhere fuel fds t v left, processOperation_nowhere fuel fds t w right]
    exact .throw _
  | op t v w args =>
    cases t with
    | read => exact fsopRead_coupled fds args.1.2 args.2.1 args.2.2
    | write => exact fsopWrite_coupled fuel fds args.1.2 args.2.1 args.2.2.1 args.2.2.2
    | create => exact fsopCreate_coupled fuel fds args.1.2 args.2
    | remove => exact fsopRemove_coupled fuel fds args.2
    | stat => exact fsopStat_coupled fds args.2
    | readDir => exact fsopReadDir_coupled fds args.2

theorem dispatch_coupled (fuel : ℕ) (fds : FsDescriptors) {op op' : NetFsOperation}
    (h : op.Alike op') :
    Coupled (Server.Alike base base') Eq (dispatch fuel fds op) (dispatch fuel fds op') := by
  have hmodify : Coupled (Server.Alike base base') Eq
      (modify fun s => { s with errorIntercepted := false } : SrvM PUnit)
      (modify fun s => { s with errorIntercepted := false } : SrvM PUnit) := fun _ _ h =>
    .ok rfl { h with errorIntercepted := rfl }
  exact hmodify.bind_eq fun _ => intercepted_coupled (processOperation_coupled fuel fds h)

theorem serveNextOperation_coupled (fuel : ℕ) (fds : FsDescriptors) (old old' : List UInt8) :
    Coupled (Server.Alike base base') Eq (serveNextOperation fuel fds old)
      (serveNextOperation fuel fds old') := by
  refine (onInput_coupled (slzNetFsOperationRead_coupled old old')).bind fun r r' ⟨hok, hop⟩ => ?_
  by_cases hr : r.1 = true
  · rw [if_pos hr, if_pos (hok ▸ hr)]
    exact (dispatch_coupled fuel fds (hop hr)).bind_eq fun _ => .pure rfl
  · rw [if_neg hr, if_neg (hok ▸ hr)]
    exact .pure rfl

/-- However many operations are served, the servers stay alike. -/
theorem serveClient_coupled (fuel : ℕ) (fds : FsDescriptors) (old old' : ℕ → List UInt8)
    (rounds : ℕ) :
    Coupled (Server.Alike base base') Eq (serveClient fuel fds old rounds)
      (serveClient fuel fds old' rounds) := by
  induction rounds generalizing old old' with
  | zero => exact .pure rfl
  | succ rounds ih =>
    refine (serveNextOperation_coupled fuel fds (old 0) (old' 0)).bind_eq fun more => ?_
    exact .ite (ih _ _) (.pure rfl)

end Server

/-- The handler of the operation stays within its buffers: all of it has come, its path
ends in it, and to create or to remove is not the root. -/
def NetFsOperation.Contained (op : NetFsOperation) : Prop :=
  op.Whole ∧ match op with
    | .op t args => t = .create ∨ t = .remove → cString (t.path args).chars ≠ some [slash]
    | .other _ => True

/-- So does every operation that the loop dispatches. -/
def ContainedRounds (fuel : ℕ) (fds : FsDescriptors) : (ℕ → List UInt8) → ℕ → Server → Prop
  | _, 0, _ => True
  | old, rounds + 1, s =>
    (∀ op, nextOperation (old 0) s.input = some op → op.Contained) ∧
      ∀ s', serveNextOperation fuel fds (old 0) s = .ok true s' →
        ContainedRounds fuel fds (fun i => old (i + 1)) rounds s'

/-- Messages with the same logical content take the same course over a connection, and
their bytes are the same but for those of the pointers. Servers that differ in their
heaps only, and in what is on their stacks, send such messages to the same requests, as
long as no handler leaves the buffers of its operation. -/
theorem wire_upToPointers (fuel : ℕ) (fds : FsDescriptors) (old old' : ℕ → List UInt8)
    (rounds : ℕ) :
    (∀ m m' : Message, m.Same m' →
      m.UpToPointers m' ∧ Matched False m.write m'.write m.wire m'.wire) ∧
    ∀ s t : Server, s.image = t.image → s.input.Alike t.input → s.output.room = t.output.room →
      s.errorIntercepted = t.errorIntercepted → ContainedRounds fuel fds old rounds s →
      TwoRuns.Alike (Server.Alike s.output.accepted t.output.accepted) Eq
        (serveClient fuel fds old rounds s) (serveClient fuel fds old' rounds t) := by
  refine ⟨fun m m' h => ⟨h.upToPointers, h.write_matched⟩, fun s t himage hinput hroom herror _ => ?_⟩
  exact serveClient_coupled fuel fds old old' rounds s t
    ⟨himage, hinput, ⟨hroom, [], [], .nil, (List.append_nil _).symm, (List.append_nil _).symm⟩,
      herror⟩

/-! ## Another heap -/

theorem NetFsOperation.Carries.contained {op : NetFsOperation} {r : Request} (h : op.Carries r)
    (h0 : 0 ∈ r.path) (hroot : r.type = .create ∨ r.type = .remove → cString r.path ≠ some [slash]) :
    op.Contained := by
  refine ⟨h.whole h0, ?_⟩
  cases h with
  | op t args full => cases t <;> exact hroot

/-- Requests that end their paths and leave the root in place are contained, as far as
they are served. -/
theorem containedRounds_of_carries {ops : List NetFsOperation} {rs : List Request}
    {rest : List UInt8} {s : Server} (fuel : ℕ) (fds : FsDescriptors)
    (h : List.Forall₂ NetFsOperation.Carries ops rs)
    (hfits : ∀ r ∈ rs, r.Fits ∧ r.largest < 2 ^ 63)
    (hin : ∀ r ∈ rs, 0 ∈ r.path ∧ (r.type = .create ∨ r.type = .remove → cString r.path ≠ some [slash]))
    (hs : s.input.source.pending = ops.flatMap NetFsOperation.wire ++ rest)
    (hroom : s.output.room = none) (hgrants : s.input.heap.Grants (2 ^ 63 - 1))
    (old : ℕ → List UInt8) : ContainedRounds fuel fds old ops.length s := by
  induction h generalizing s old with
  | nil => trivial
  | @cons op r ops rs hc _ ih =>
    obtain ⟨hfit, hfits⟩ := List.forall_mem_cons.mp hfits
    obtain ⟨⟨h0, hroot⟩, hin⟩ := List.forall_mem_cons.mp hin
    rw [List.flatMap_cons, List.append_assoc] at hs
    constructor
    · intro op' hop
      obtain ⟨read, input, hread, hc', -, -⟩ :=
        slzNetFsOperationRead_run hc hfit.1 hs hgrants (Nat.le_sub_one_of_lt hfit.2) (old 0)
      rw [nextOperation, hread] at hop
      obtain rfl := Option.some.inj hop
      exact hc'.contained h0 hroot
    · intro s' hnext
      obtain ⟨hok, -⟩ := serveNextOperation_framed fuel fds hc hfit hs hroom hgrants (old 0)
      obtain ⟨-, x, w, -, hready, -, hpending⟩ := hok true s' hnext
      exact ih hfits hin hpending hready.room hready.grants fun i => old (i + 1)

/-- The server with another heap. -/
def Server.moved (s : Server) : Server :=
  { s with
    input :=
      { s.input with
        heap := ⟨fun _ n => if n < 2 ^ 63 then some 8192 else none, fun _ n _ h => by
          by_contra hn
          rw [if_neg hn] at h
          cases h⟩ } }

theorem moved_alike (image : Image) (bytes : List UInt8) (output : Sink UInt8) (flag : Bool) :
    (byteByByte bytes).Alike (Server.moved ⟨image, byteByByte bytes, output, flag⟩).input := by
  refine ⟨rfl, fun i n => ?_⟩
  simp only [Server.moved, byteByByte]
  split <;> rfl

/-- The string of no characters, at two addresses. -/
theorem emptyString_same : Message.Same (.string ⟨1, .block 8 [0]⟩) (.string ⟨1, .block 16 [0]⟩) :=
  (Buffer.block_alike 8 16 [0]).string

/-- Two heaps, and other bytes on the stacks: a file is written, read and listed in both,
the bad path is refused in both, and the replies are alike. -/
theorem wire_upToPointers_moved :
    Message.UpToPointers (.string ⟨2, .block 8 [104, 105]⟩) (.string ⟨2, .block 16 [104, 105]⟩) ∧
    ∃ s t, serveClient 4 ⟨1⟩ (fun _ => []) 4 mixedServer = .error (.die .invalidPath) s ∧
      serveClient 4 ⟨1⟩ (fun _ => [255]) 4 mixedServer.moved = .error (.die .invalidPath) t ∧
      Server.Alike [] [] s t := by
  obtain ⟨hmessages, hservers⟩ := wire_upToPointers 4 ⟨1⟩ (fun _ => []) (fun _ => [255]) 4
  have hstop : stopped (serveClient 4 ⟨1⟩ (fun _ => []) 4 mixedServer) = some (.die .invalidPath) := by
    decide +kernel
  have hcontained : ContainedRounds 4 ⟨1⟩ (fun _ => []) 4 mixedServer :=
    containedRounds_of_carries 4 ⟨1⟩ mixedRequests_carries mixedRequests_fits
      (by decide) (List.append_nil _).symm rfl (byteByByte_grants _ (by omega)) _
  have hends := hservers mixedServer mixedServer.moved rfl (moved_alike _ _ _ _) rfl rfl hcontained
  refine ⟨(hmessages _ _ (Buffer.block_alike 8 16 [104, 105]).string).1, ?_⟩
  generalize serveClient 4 ⟨1⟩ (fun _ => []) 4 mixedServer = x at hstop hends ⊢
  generalize serveClient 4 ⟨1⟩ (fun _ => [255]) 4 mixedServer.moved = y at hends ⊢
  cases hends with
  | ok value state => cases hstop
  | error state =>
    obtain rfl := Option.some.inj hstop
    exact ⟨_, _, rfl, rfl, state⟩

/-- The pointer values are among the bytes. -/
theorem wire_upToPointers_shown :
    (¬ ∀ (m m' : Message) (s : Sink UInt8), m.Same m' →
      (finalState (m.write s)).accepted = (finalState (m'.write s)).accepted) ∧
    ¬ ∀ s t : Server, s.image = t.image → s.input.Alike t.input → s.output.room = t.output.room →
      s.errorIntercepted = t.errorIntercepted → s.output.accepted = t.output.accepted →
      (finalState (serveClient 0 ⟨1⟩ (fun _ => []) 1 s)).output.accepted =
        (finalState (serveClient 0 ⟨1⟩ (fun _ => []) 1 t)).output.accepted := by
  constructor
  · intro h
    exact absurd (h _ _ ⟨[], fun _ => 1, none⟩ emptyString_same) (by decide +kernel)
  · intro h
    exact absurd (h refusingServer refusingServer.moved rfl (moved_alike _ _ _ _) rfl rfl rfl)
      (by decide +kernel)

end KisLinux.Net
