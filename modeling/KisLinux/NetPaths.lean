import KisLinux.NetPartial

/-!
# Received paths

The reader of an array allocates and fills the buffer of a path, and nobody after
it looks at the bytes before `split_path` takes them for a string. `PathComes`
is what a stream must hold for that.
-/
namespace KisLinux.Net
open ByteMemory StateRun ShortTransfer Fs

variable {α : Type}

/-- A type that is no operation reaches no handler, and has no path. -/
def NetFsOperation.path? : NetFsOperation → Option NetString
  | .op t args => some (t.path args)
  | .other _ => none

/-- The buffer was allocated for this path, all of its bytes came from the stream,
and a NUL is one of them. -/
structure ReceivedString (s : Input) (path : NetString) : Prop where
  allocated : ∃ i a, s.heap.answers i path.length = some a ∧ path.string.address = a
  came : path.string.bytes <:+: s.source.pending
  filled : path.string.bytes.length = path.length
  terminated : 0 ∈ path.string.bytes

/-- `split_path` finds the end of such a string among the received bytes. -/
theorem ReceivedString.ends {s : Input} {path : NetString} (h : ReceivedString s path) :
    ∃ w, cString path.string.bytes = some w ∧ w.length < path.length := by
  obtain ⟨w, hw⟩ := exists_cString h.terminated
  rw [← h.filled]
  exact ⟨w, hw, cString_length_lt hw⟩

theorem ReceivedString.before {s s₁ : Input} {d : List UInt8} {path : NetString}
    (h : ReceivedString s₁ path) (hgave : s.Gave s₁ d) : ReceivedString s path where
  allocated := hgave.heap ▸ h.allocated
  came := by
    rw [hgave.source.pending]
    exact h.came.trans (List.suffix_append _ _).isInfix
  filled := h.filled
  terminated := h.terminated

/-! ## The first array of the arguments -/

/-- The path is the first array field, no other one touches it, and the image only
has a pointer value of the sender. -/
structure PathFirst (path : α → NetString) (slz : Serializer α) (f : ArrayField α)
    (fs : List (ArrayField α)) : Prop where
  arrays : slz.arrays = f :: fs
  elemSize : f.elemSize = 1
  path_set : ∀ n b v, path (f.set n b v) = ⟨n, b⟩
  field_eq : ∀ v, f.field v = (path v).string
  others : ∀ g ∈ fs, ∀ n b v, path (g.set n b v) = path v
  dangling : ∀ image, (path (slz.ofImage image)).string.bytes = []

theorem FsOpType.pathFirst (t : FsOpType) : ∃ f fs, PathFirst t.path t.serializer f fs := by
  cases t with
  | write =>
    exact ⟨_, _, rfl, rfl, fun _ _ _ => rfl, fun _ => rfl,
      List.forall_mem_singleton.mpr fun _ _ _ => rfl, fun _ => rfl⟩
  | _ =>
    exact ⟨_, _, rfl, rfl, fun _ _ _ => rfl, fun _ => rfl, List.forall_mem_nil _,
      fun _ => rfl⟩

section Arrays

variable {f : ArrayField α} {fs : List (ArrayField α)} {v w : α} {s s' : Input} {r : Bool × α}

/-- What the reader of an array leaves in the two fields: the old pointer, none, a
block that is not full, or the elements that came. -/
theorem slzArrayRead_cases (hf : f.elemSize = 1) (h : slzArrayRead f v s = .ok r s') :
    ∃ n b, r.2 = f.set n b v ∧ (b = f.field v ∨ b.bytes.length < n ∨ b = .null ∨
      ∃ a bytes rest, b = .block a bytes ∧ bytes.length = n ∧ s.heap.answers 0 n = some a ∧
        s.source.pending = leBytes 8 n ++ bytes ++ rest) := by
  obtain ⟨s₁, hcount, hgave⟩ := safeRead_run 8 s
  rw [slzArrayRead, bind_of_ok hcount] at h
  by_cases hall : 8 ≤ s.source.pending.length
  · have hd : (s.source.pending.take 8).length = 8 := List.length_take_of_le hall
    have hcounted : leBytes 8 (leNat (s.source.pending.take 8)) = s.source.pending.take 8 := by
      have hbytes := leBytes_leNat (s.source.pending.take 8)
      rwa [hd] at hbytes
    have hlt : leNat (s.source.pending.take 8) < wordSize :=
      (leNat_lt _).trans_le (by rw [hd]; rfl)
    have hdrop : s.source.pending.take 8 ++ (leBytes 8 (f.count v)).drop (s.source.pending.take 8).length =
        s.source.pending.take 8 := by
      rw [hd, List.drop_of_length_le (leBytes_length 8 _).le, List.append_nil]
    have hpending := hgave.source.pending
    rw [← hcounted] at hpending
    simp only [hdrop, decide_eq_true hall, Bool.true_eq_false, if_false] at h
    generalize leNat (s.source.pending.take 8) = n at h hlt hpending
    split at h
    · obtain ⟨rfl, -⟩ := EStateM.Result.ok.inj h
      exact ⟨n, .null, rfl, .inr (.inr (.inl rfl))⟩
    · obtain ⟨address, s₂, hmalloc, h⟩ := bind_eq_ok.mp h
      obtain ⟨haddress, rfl⟩ := EStateM.Result.ok.inj hmalloc
      rw [hf, wmul, Nat.one_mul, Nat.mod_eq_of_lt hlt, hgave.heap] at haddress
      cases address with
      | none =>
        obtain ⟨rfl, -⟩ := EStateM.Result.ok.inj h
        exact ⟨n, .null, rfl, .inr (.inr (.inl rfl))⟩
      | some a =>
        obtain ⟨s₃, helements, hgave₃⟩ :=
          safeRead_run (wmul f.elemSize n) { s₁ with heap := s₁.heap.next }
        dsimp only at h
        rw [bind_of_ok helements] at h
        obtain ⟨rfl, -⟩ := EStateM.Result.ok.inj h
        have hrest := hgave₃.source.pending
        simp only [hf, wmul, Nat.one_mul, Nat.mod_eq_of_lt hlt] at hrest ⊢
        refine ⟨n, _, rfl, ?_⟩
        by_cases hn : n ≤ s₁.source.pending.length
        · refine .inr (.inr (.inr ⟨a, _, s₃.source.pending, rfl, List.length_take_of_le hn, haddress, ?_⟩))
          rw [hpending, List.append_assoc]
          exact congrArg _ hrest
        · refine .inr (.inl ?_)
          have hshort := List.length_take_le' n s₁.source.pending
          exact hshort.trans_lt (Nat.lt_of_not_le hn)
  · simp only [decide_eq_false hall, if_true] at h
    obtain ⟨rfl, -⟩ := EStateM.Result.ok.inj h
    exact ⟨_, _, rfl, .inl rfl⟩

/-- A full array is read into a block of its own. -/
theorem slzArrayRead_block {bytes rest : List UInt8} {a : ℕ+} (hf : f.elemSize = 1)
    (hs : s.source.pending = leBytes 8 bytes.length ++ bytes ++ rest) (hne : bytes ≠ [])
    (ha : s.heap.answers 0 bytes.length = some a) :
    ∃ s', slzArrayRead f v s = .ok (true, f.set bytes.length (.block a bytes) v) s' := by
  have hlt : bytes.length < wordSize := (s.heap.granted_lt 0 _ a ha).trans (by decide)
  rw [List.append_assoc] at hs
  obtain ⟨s₁, hcount, hgave, hpending⟩ := safeRead_of_pending hs
  rw [leBytes_length] at hcount
  have hcounted : leNat (leBytes 8 bytes.length ++
      (leBytes 8 (f.count v)).drop (leBytes 8 bytes.length).length) = bytes.length := by
    rw [leBytes_length, List.drop_of_length_le (leBytes_length 8 _).le, List.append_nil,
      leNat_leBytes hlt]
  have hsize : wmul f.elemSize bytes.length = bytes.length := by
    rw [hf, wmul, Nat.one_mul, Nat.mod_eq_of_lt hlt]
  have hmalloc : malloc bytes.length s₁ = .ok (some a) { s₁ with heap := s₁.heap.next } := by
    rw [malloc, hgave.heap, ha]
  obtain ⟨s₂, helements, -, -⟩ :=
    safeRead_of_pending (s := { s₁ with heap := s₁.heap.next }) hpending
  refine ⟨s₂, ?_⟩
  rw [slzArrayRead, bind_of_ok hcount]
  simp only [hcounted, Bool.true_eq_false, if_false, hsize]
  rw [if_neg (fun hz => hne (List.eq_nil_of_length_eq_zero hz)), bind_of_ok hmalloc]
  simp only
  rw [bind_of_ok helements, pure_run]

/-- The other arrays leave the path alone. -/
theorem slzArraysRead_path {path : α → NetString}
    (hfs : ∀ g ∈ fs, ∀ n b v, path (g.set n b v) = path v) (hsize : ∀ g ∈ fs, g.elemSize = 1)
    (h : slzArraysRead fs v s = .ok r s') : path r.2 = path v := by
  induction fs generalizing v s with
  | nil =>
    obtain ⟨rfl, -⟩ := EStateM.Result.ok.inj h
    rfl
  | cons f fs ih =>
    obtain ⟨r₁, s₁, hfirst, h⟩ := bind_eq_ok.mp h
    obtain ⟨n, b, hset, -⟩ := slzArrayRead_cases (hsize f List.mem_cons_self) hfirst
    have hpath : path r₁.2 = path v := by rw [hset, hfs f List.mem_cons_self]
    split at h
    · rw [ih (fun g hg => hfs g (List.mem_cons_of_mem _ hg))
        (fun g hg => hsize g (List.mem_cons_of_mem _ hg)) h, hpath]
    · obtain ⟨rfl, -⟩ := EStateM.Result.ok.inj h
      exact hpath

end Arrays

/-! ## The condition on the stream -/

/-- Behind an image of `size` bytes come a count, as many elements, for which the
allocator has room, and a NUL among them. -/
def PathComes (size : ℕ) (heap : Heap) (stream : List UInt8) : Prop :=
  ∃ image bytes rest, image.length = size ∧ 0 ∈ bytes ∧ heap.answers 0 bytes.length ≠ none ∧
    stream = image ++ (leBytes 8 bytes.length ++ bytes ++ rest)

section Serializers

variable {path : α → NetString} {slz : Serializer α} {f : ArrayField α} {fs : List (ArrayField α)}
  {v : α} {s s' : Input} {r : Bool × α}

/-- What the path is after all arrays depends on the first one. -/
theorem Serializer.read_first (hpath : PathFirst path slz f fs) (hsize : ∀ g ∈ fs, g.elemSize = 1)
    (h : slz.read v s = .ok r s') (hall : slz.size ≤ s.source.pending.length) :
    ∃ image s₁ r₁ s₂, s.Gave s₁ (s.source.pending.take slz.size) ∧
      slzArrayRead f (slz.ofImage image) s₁ = .ok r₁ s₂ ∧ path r.2 = path r₁.2 := by
  obtain ⟨s₁, himage, hgave⟩ := safeRead_run slz.size s
  rw [Serializer.read, bind_of_ok himage] at h
  simp only [decide_eq_true hall, if_true] at h
  rw [hpath.arrays] at h
  obtain ⟨r₁, s₂, hfirst, h⟩ := bind_eq_ok.mp h
  refine ⟨_, s₁, r₁, s₂, hgave, hfirst, ?_⟩
  split at h
  · exact slzArraysRead_path hpath.others hsize h
  · obtain ⟨rfl, -⟩ := EStateM.Result.ok.inj h
    rfl

/-- A path whose bytes are there and end came in full. -/
theorem Serializer.pathComes_of_read (hpath : PathFirst path slz f fs)
    (hsize : ∀ g ∈ fs, g.elemSize = 1) (h : slz.read v s = .ok r s')
    (hfull : (path r.2).string.bytes.length = (path r.2).length)
    (h0 : 0 ∈ (path r.2).string.bytes) : PathComes slz.size s.heap s.source.pending := by
  by_cases hall : slz.size ≤ s.source.pending.length
  · obtain ⟨image, s₁, r₁, s₂, hgave, hfirst, hsame⟩ := Serializer.read_first hpath hsize h hall
    obtain ⟨n, b, hset, hcases⟩ := slzArrayRead_cases hpath.elemSize hfirst
    rw [hsame, hset, hpath.path_set] at hfull h0
    rcases hcases with hold | hshort | rfl | ⟨a, bytes, rest, rfl, -, hanswer, hstream⟩
    · rw [hold, hpath.field_eq, hpath.dangling] at h0
      cases h0
    · exact absurd hfull hshort.ne
    · cases h0
    · obtain rfl : bytes.length = n := hfull
      refine ⟨_, bytes, rest, List.length_take_of_le hall, h0, ?_, ?_⟩
      · rw [← hgave.heap, hanswer]
        exact Option.some_ne_none a
      · exact hgave.source.pending.trans (congrArg _ hstream)
  · obtain ⟨s₁, himage, -⟩ := safeRead_run slz.size s
    rw [Serializer.read, bind_of_ok himage] at h
    simp only [decide_eq_false hall, Bool.false_eq_true, if_false] at h
    obtain ⟨rfl, -⟩ := EStateM.Result.ok.inj h
    rw [hpath.dangling] at h0
    cases h0

/-- A path that comes is received. -/
theorem Serializer.receivedString_of_comes (hpath : PathFirst path slz f fs)
    (hsize : ∀ g ∈ fs, g.elemSize = 1) (h : slz.read v s = .ok r s')
    (hcomes : PathComes slz.size s.heap s.source.pending) : ReceivedString s (path r.2) := by
  obtain ⟨image, bytes, rest, himage, h0, hanswer, hstream⟩ := hcomes
  obtain ⟨a, ha⟩ := Option.ne_none_iff_exists'.mp hanswer
  have hall : slz.size ≤ s.source.pending.length := by
    rw [hstream, List.length_append, himage]
    exact Nat.le_add_right _ _
  obtain ⟨image', s₁, r₁, s₂, hgave, hfirst, hsame⟩ := Serializer.read_first hpath hsize h hall
  have hrest : s₁.source.pending = leBytes 8 bytes.length ++ bytes ++ rest := by
    have hpending := hgave.source.pending
    rw [hstream, ← himage, List.take_left] at hpending
    exact (List.append_cancel_left hpending).symm
  obtain ⟨s₃, hblock⟩ := slzArrayRead_block hpath.elemSize hrest (List.ne_nil_of_mem h0)
    (hgave.heap ▸ ha)
  rw [hblock] at hfirst
  obtain ⟨rfl, -⟩ := EStateM.Result.ok.inj hfirst
  rw [hsame, hpath.path_set]
  exact ⟨⟨0, a, ha, rfl⟩, ⟨image ++ leBytes 8 bytes.length, rest, by simp only [hstream, Buffer.block,
    List.append_assoc]⟩, rfl, h0⟩

end Serializers

/-- The condition on the stream for the next operation, if it is one. -/
def OperationComes (s : Input) : Prop :=
  ∀ t : FsOpType, s.source.pending.take 4 = leBytes 4 t.code →
    PathComes t.serializer.size s.heap (s.source.pending.drop 4)

theorem FsOpType.code_of_ofCode {n : ℕ} {t : FsOpType} (h : ofCode n = some t) : t.code = n := by
  unfold ofCode at h
  split at h <;> cases h <;> rfl

/-- What the union's reader does with four bytes and more. -/
theorem slzNetFsOperationRead_tag {old : List UInt8} {s s' : Input} {r : Bool × NetFsOperation}
    (h : slzNetFsOperationRead old s = .ok r s') (hall : 4 ≤ s.source.pending.length) :
    ∃ s₁, s.Gave s₁ (s.source.pending.take 4) ∧ s₁.source.pending = s.source.pending.drop 4 ∧
      ((∃ n, r.2 = .other n ∧ ∀ t : FsOpType, s.source.pending.take 4 ≠ leBytes 4 t.code) ∨
        ∃ t v args, s.source.pending.take 4 = leBytes 4 t.code ∧
          t.serializer.read v s₁ = .ok args s' ∧ r.2 = .op t args.2) := by
  obtain ⟨s₁, htag, hgave⟩ := safeRead_run 4 s
  have hrest : s₁.source.pending = s.source.pending.drop 4 :=
    List.append_cancel_left (hgave.source.pending.symm.trans (List.take_append_drop 4 _).symm)
  have hlen : (s.source.pending.take 4).length = 4 := List.length_take_of_le hall
  have hold : s.source.pending.take 4 ++ (old.take 4).drop (s.source.pending.take 4).length =
      s.source.pending.take 4 := by
    rw [hlen, List.drop_of_length_le (List.length_take_le 4 old), List.append_nil]
  have hbytes := leBytes_leNat (s.source.pending.take 4)
  rw [hlen] at hbytes
  rw [slzNetFsOperationRead, bind_of_ok htag] at h
  simp only [hold, decide_eq_true hall, Bool.true_eq_false, if_false] at h
  refine ⟨s₁, hgave, hrest, ?_⟩
  cases hcode : FsOpType.ofCode (leNat (s.source.pending.take 4)) with
  | none =>
    rw [hcode] at h
    obtain ⟨rfl, -⟩ := EStateM.Result.ok.inj h
    refine .inl ⟨_, rfl, fun t ht => ?_⟩
    rw [ht, leNat_leBytes (code_lt t), FsOpType.ofCode_code] at hcode
    cases hcode
  | some t =>
    rw [hcode] at h
    obtain ⟨args, s₂, hargs, h⟩ := bind_eq_ok.mp h
    obtain ⟨rfl, rfl⟩ := EStateM.Result.ok.inj h
    refine .inr ⟨t, _, args, ?_, hargs, rfl⟩
    rw [FsOpType.code_of_ofCode hcode, hbytes]

/-- Every path that the reader of the union hands on is received. -/
theorem slzNetFsOperationRead_path (old : List UInt8) (s : Input) :
    (∀ op s', slzNetFsOperationRead old s = .ok (true, op) s' → ∀ path, op.path? = some path →
      ReceivedString s path) ↔ OperationComes s := by
  obtain ⟨op, s', hrun⟩ := slzNetFsOperationRead_result old s
  by_cases hall : 4 ≤ s.source.pending.length
  · rw [decide_eq_true hall] at hrun
    obtain ⟨s₁, hgave, hrest, hcases⟩ := slzNetFsOperationRead_tag hrun hall
    constructor
    · intro h t ht
      rcases hcases with ⟨n, -, hno⟩ | ⟨t', v, args, ht', hargs, hop⟩
      · exact absurd ht (hno t)
      · obtain rfl : t' = t := by
          have hcode := congrArg leNat (ht'.symm.trans ht)
          rw [leNat_leBytes (code_lt t'), leNat_leBytes (code_lt t)] at hcode
          have hsome := congrArg FsOpType.ofCode hcode
          rw [FsOpType.ofCode_code, FsOpType.ofCode_code] at hsome
          exact Option.some.inj hsome
        obtain ⟨f, fs, hpath⟩ := t'.pathFirst
        have hreceived := h op s' hrun _ (by rw [show op = _ from hop]; rfl)
        have hsize := t'.elemSize_eq
        rw [hpath.arrays] at hsize
        rw [← hrest, ← hgave.heap]
        exact Serializer.pathComes_of_read hpath (fun g hg => hsize g (List.mem_cons_of_mem _ hg))
          hargs hreceived.filled hreceived.terminated
    · intro h op' s'' hrun' path hop'
      rw [hrun] at hrun'
      obtain ⟨hpair, rfl⟩ := EStateM.Result.ok.inj hrun'
      obtain rfl : op = op' := congrArg Prod.snd hpair
      rcases hcases with ⟨n, hop, -⟩ | ⟨t, v, args, ht, hargs, hop⟩
      · obtain rfl : op = .other n := hop
        cases hop'
      · obtain rfl : op = .op t args.2 := hop
        obtain rfl := Option.some.inj hop'
        obtain ⟨f, fs, hpath⟩ := t.pathFirst
        have hsize := t.elemSize_eq
        rw [hpath.arrays] at hsize
        have hcomes := h t ht
        rw [← hrest, ← hgave.heap] at hcomes
        exact (Serializer.receivedString_of_comes hpath
          (fun g hg => hsize g (List.mem_cons_of_mem _ hg)) hargs hcomes).before hgave
  · rw [decide_eq_false hall] at hrun
    refine iff_of_true (fun op' s'' hrun' => ?_) fun t ht => ?_
    · rw [hrun] at hrun'
      cases hrun'
    · have hlen := congrArg List.length ht
      rw [leBytes_length, List.length_take] at hlen
      omega

/-! ## Whole conversations -/

/-- The states in which a thread that began in `s` waits for an operation. -/
inductive Waits (fuel : ℕ) (fds : FsDescriptors) (s : Server) : Server → Prop
  | refl : Waits fuel fds s s
  | next {s' s'' : Server} (old : List UInt8) (before : Waits fuel fds s s')
      (served : serveNextOperation fuel fds old s' = .ok true s'') : Waits fuel fds s s''

/-- Every operation of a conversation has a path that was received, exactly when
such a path comes each time the thread waits for an operation. -/
theorem serveNextOperation_paths (fuel : ℕ) (fds : FsDescriptors) (s : Server) :
    (∀ s', Waits fuel fds s s' → ∀ old op input,
      slzNetFsOperationRead old s'.input = .ok (true, op) input → ∀ path, op.path? = some path →
        ReceivedString s'.input path ∧
          ∃ w, cString path.string.bytes = some w ∧ w.length < path.length) ↔
      ∀ s', Waits fuel fds s s' → OperationComes s'.input := by
  constructor
  · intro h s' hs'
    exact (slzNetFsOperationRead_path [] s'.input).mp fun op input hrun path hop =>
      (h s' hs' [] op input hrun path hop).1
  · intro h s' hs' old op input hrun path hop
    have hreceived := (slzNetFsOperationRead_path old s'.input).mpr (h s' hs') op input hrun path hop
    exact ⟨hreceived, hreceived.ends⟩

/-- A complete Stat message with the path `/a`, sent without the NUL. -/
def unterminatedStat : List UInt8 :=
  leBytes 4 FsOpType.stat.code ++ (List.replicate 16 0 ++ (leBytes 8 2 ++ [slash, 97]))

def unterminatedServer : Server :=
  ⟨⟨fun _ => 0, 0, []⟩, byteByByte unterminatedStat, byteSink, false⟩

theorem unterminatedStat_not_comes : ¬OperationComes unterminatedServer.input := by
  intro h
  obtain ⟨image, bytes, rest, himage, h0, -, hstream⟩ := h .stat rfl
  have hsplit : List.replicate 16 0 ++ (leBytes 8 2 ++ [slash, 97]) =
      image ++ (leBytes 8 bytes.length ++ bytes ++ rest) := hstream
  have htail := List.append_inj_right hsplit himage.symm
  rw [List.append_assoc] at htail
  have hbytes := List.append_inj_right htail (by rw [leBytes_length, leBytes_length])
  have hmem : (0 : UInt8) ∈ [slash, 97] := by
    rw [hbytes]
    exact List.mem_append_left _ h0
  exact absurd hmem (by decide)

/-- The message is read as 1 and dispatched, and `split_path` reads past its path. -/
theorem serveNextOperation_paths_unterminated :
    (∃ op input path, slzNetFsOperationRead [] unterminatedServer.input = .ok (true, op) input ∧
      op.path? = some path ∧ ¬ReceivedString unterminatedServer.input path) ∧
    ∃ s', serveNextOperation 0 ⟨1⟩ [] unterminatedServer = .error .fault s' := by
  constructor
  · have hnot := unterminatedStat_not_comes
    rw [← slzNetFsOperationRead_path []] at hnot
    simp only [not_forall] at hnot
    obtain ⟨op, input, hrun, path, hpath, hnot⟩ := hnot
    exact ⟨op, input, path, hrun, hpath, hnot⟩
  · have hfault : stopped (serveNextOperation 0 ⟨1⟩ [] unterminatedServer) = some .fault := by
      decide +kernel
    exact ⟨_, of_stopped hfault⟩

end KisLinux.Net
