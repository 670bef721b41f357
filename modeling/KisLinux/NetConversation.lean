import KisLinux.FsTree
import KisLinux.NetFraming

/-!
# Conversations

A connection carries one request after another to the server, and the server's
bytes go back to the client. `Replies` describes these bytes: a reply for every
request that was completed and, when one was not, a refusal that ends them.
-/
namespace KisLinux.Net
open ByteMemory StateRun ShortTransfer Fs

def Request.type : Request → FsOpType
  | read _ _ _ => .read
  | write _ _ _ => .write
  | create _ _ => .create
  | remove _ => .remove
  | stat _ => .stat
  | readDir _ => .readDir

theorem FsOpType.request_type (t : FsOpType) (args : t.Args) : (t.request args).type = t := by
  cases t <;> rfl

/-- The bytes that answer requests of the types `ts`, and what the client makes
of them. The flag tells whether the last of them is a refusal. -/
inductive Replies : Bool → List FsOpType → List Received → List UInt8 → Prop
  | nil : Replies false [] [] []
  | served {failed : Bool} {t : FsOpType} {ts : List FsOpType} {x : Received} {xs : List Received}
      {w ws : List UInt8} (reply : Reply t x w) (rest : Replies failed ts xs ws) :
      Replies failed (t :: ts) (x :: xs) (w ++ ws)
  | refused {t : FsOpType} {ts : List FsOpType} {message w : List UInt8}
      (refusal : Refusal message w) : Replies true (t :: ts) [.refused (message ++ [0])] w

/-- A client that sends requests of the types `ts` and ends with the first problem. -/
def receiveAll (old : List UInt8) : List FsOpType → InM (List Received)
  | [] => pure []
  | t :: ts => do
    let x ← receive old t
    match x with
    | .connectionProblems => pure [x]
    | .refused _ => pure [x]
    | _ => do
      let xs ← receiveAll old ts
      pure (x :: xs)

section Client

variable {s : Input} {rest : List UInt8} (old : List UInt8)

theorem receiveAll_served {t : FsOpType} {ts : List FsOpType} {x : Received} {p : List UInt8}
    {s₁ : Input} (hp : Payload t x p) (hrun : receive old t s = .ok x s₁) :
    receiveAll old (t :: ts) s = (receiveAll old ts >>= fun xs => pure (x :: xs)) s₁ := by
  rw [receiveAll, bind_of_ok hrun]
  cases hp <;> rfl

/-- The client takes exactly the server's bytes, one reply for one request. -/
theorem receiveAll_run {failed : Bool} {ts : List FsOpType} {xs : List Received} {w : List UInt8}
    (h : Replies failed ts xs w) (hs : s.source.pending = w ++ rest)
    (hheap : s.heap.Grants (2 ^ 63 - 1)) :
    ∃ s', receiveAll old ts s = .ok xs s' ∧ s'.source.pending = rest := by
  induction h generalizing s with
  | nil => exact ⟨s, rfl, hs⟩
  | served reply _ ih =>
    rw [List.append_assoc] at hs
    obtain ⟨s₁, hrun, hpending, hheap₁⟩ := receive_run old reply hs hheap
    obtain ⟨s', hrest, hpending'⟩ := ih hpending hheap₁
    obtain ⟨a, p, hp, -⟩ := reply
    refine ⟨s', ?_, hpending'⟩
    rw [receiveAll_served old hp hrun, bind_of_ok hrest, pure_run]
  | refused refusal =>
    obtain ⟨s', hrun, hpending⟩ := receive_refused old refusal _ hs hheap
    exact ⟨s', by rw [receiveAll, bind_of_ok hrun]; rfl, hpending⟩

end Client

/-! ## The server's side -/

section Serve

variable {s s' : Server} {op : NetFsOperation} {r : Request} {rest : List UInt8}
  (fuel : ℕ) (fds : FsDescriptors)

/-- A completed operation is answered by a reply. One that dies is answered by one
status, unless it died of an allocation that failed: nothing is sent then. -/
theorem dispatch_framed (t : FsOpType) (args : t.Args) (hroom : s.output.room = none)
    (hgrants : s.input.heap.Grants (2 ^ 63 - 1)) :
    (∀ s', dispatch fuel fds (.op t args) s = .ok () s' → ∃ x w, Reply t x w ∧ s'.Ready ∧
      s'.output.accepted = s.output.accepted ++ w ∧ s'.input.source = s.input.source) ∧
    ∀ e s', dispatch fuel fds (.op t args) s = .error (.die e) s' →
      (e ≠ .memory → ∃ w, Refusal (reported e) w ∧ s'.output.accepted = s.output.accepted ++ w) ∧
      (e = .memory → s'.output.accepted = s.output.accepted) := by
  have hclean : (modify fun s : Server => { s with errorIntercepted := false } : SrvM Unit) s =
      .ok () { s with errorIntercepted := false } := rfl
  have hready : Server.Ready { s with errorIntercepted := false } := ⟨hroom, rfl, hgrants⟩
  have hframed := processOperation_framed fuel fds t args hready
  rw [dispatch, bind_of_ok hclean]
  cases hx : processOperation fuel fds (.op t args) { s with errorIntercepted := false } with
  | ok u s₁ =>
    rw [intercepted_of_ok hx]
    refine ⟨fun s' h => ?_, fun e s' h => by cases h⟩
    obtain ⟨-, rfl⟩ := EStateM.Result.ok.inj h
    exact hframed.ok s₁ hx
  | error stop s₁ =>
    cases stop with
    | die e =>
      rw [intercepted_of_die hx]
      refine ⟨fun s' h => (exited_ne_ok h).elim, fun e' s' h => ?_⟩
      obtain ⟨rfl, rfl⟩ := exited_eq_die h
      have hsilent := hframed.stop _ s₁ hx
      refine ⟨fun hmem => ?_, ?_⟩
      · obtain ⟨w, s₂, hrun, hrefusal, hsent⟩ := fsopError_run hmem (hready.silent hsilent)
        rw [hrun]
        exact ⟨w, hrefusal, by rw [finalState_ok, hsent.accepted, hsilent.output]⟩
      · rintro rfl
        obtain ⟨s₂, hrun, hsent⟩ := fsopError_memory (hready.silent hsilent)
        rw [hrun, finalState_error, hsent.accepted, hsilent.output, List.append_nil]
    | fault =>
      rw [intercepted, hx]
      exact ⟨fun s' h => (by cases h), fun e s' h => (by cases h)⟩
    | diverged =>
      rw [intercepted, hx]
      exact ⟨fun s' h => (by cases h), fun e s' h => (by cases h)⟩

theorem serveNextOperation_framed (hc : op.Carries r) (hfits : r.Fits ∧ r.largest < 2 ^ 63)
    (hs : s.input.source.pending = op.wire ++ rest) (hroom : s.output.room = none)
    (hgrants : s.input.heap.Grants (2 ^ 63 - 1)) (old : List UInt8) :
    (∀ more s', serveNextOperation fuel fds old s = .ok more s' → more = true ∧
      ∃ x w, Reply r.type x w ∧ s'.Ready ∧ s'.output.accepted = s.output.accepted ++ w ∧
        s'.input.source.pending = rest) ∧
    ∀ e s', serveNextOperation fuel fds old s = .error (.die e) s' → e ≠ .memory →
      ∃ w, Refusal (reported e) w ∧ s'.output.accepted = s.output.accepted ++ w := by
  obtain ⟨op', input, hread, hc', hpending, hgrants'⟩ :=
    slzNetFsOperationRead_run hc hfits.1 hs hgrants (by omega) old
  cases hc' with
  | op t args full =>
    rw [FsOpType.request_type]
    obtain ⟨hok, hdie⟩ := dispatch_framed fuel fds (s := { s with input := input }) t args hroom
      hgrants'
    rw [serveNextOperation, bind_of_ok (onInput_of_ok hread), if_pos rfl]
    refine ⟨fun more s' h => ?_, fun e s' h hmem => ?_⟩
    · obtain ⟨u, s₁, hrun, hpure⟩ := bind_eq_ok.mp h
      obtain ⟨rfl, rfl⟩ := EStateM.Result.ok.inj hpure
      obtain ⟨x, w, hreply, hready, haccepted, hsource⟩ := hok s₁ hrun
      exact ⟨rfl, x, w, hreply, hready, haccepted, by rw [hsource]; exact hpending⟩
    · cases hrun : dispatch fuel fds (.op t args) { s with input := input } with
      | ok u s₁ =>
        rw [bind_of_ok hrun] at h
        cases h
      | error stop s₁ =>
        rw [bind_of_error hrun] at h
        obtain ⟨rfl, rfl⟩ := EStateM.Result.error.inj h
        exact (hdie e s₁ hrun).1 hmem

/-- The server loop came through, or `failed` in `die` or `die_fatal`, but not because
an allocation failed. -/
def Finished : EStateM.Result Stop Server Unit → Bool → Prop
  | .ok _ _, failed => failed = false
  | .error (.die e) _, failed => e ≠ .memory ∧ failed = true
  | .error _ _, _ => False

/-- A run of the server loop over requests that it completes or refuses sends the
replies to them, up to the first refusal, and a client that reads its answers one
by one takes exactly these bytes. -/
theorem serveClient_framing {ops : List NetFsOperation} {rs : List Request}
    (h : List.Forall₂ NetFsOperation.Carries ops rs)
    (hfits : ∀ r ∈ rs, r.Fits ∧ r.largest < 2 ^ 63)
    (hs : s.input.source.pending = ops.flatMap NetFsOperation.wire ++ rest)
    (hroom : s.output.room = none) (hgrants : s.input.heap.Grants (2 ^ 63 - 1))
    (old : ℕ → List UInt8) {result : EStateM.Result Stop Server Unit} {failed : Bool}
    (hrun : serveClient fuel fds old ops.length s = result)
    (hresult : Finished result failed) :
    ∃ xs w, (finalState result).output.accepted = s.output.accepted ++ w ∧
      Replies failed (rs.map Request.type) xs w ∧
      ∀ (client : Input) (more old' : List UInt8), client.source.pending = w ++ more →
        client.heap.Grants (2 ^ 63 - 1) →
        ∃ client', receiveAll old' (rs.map Request.type) client = .ok xs client' ∧
          client'.source.pending = more := by
  have hbytes : ∃ xs w, (finalState result).output.accepted = s.output.accepted ++ w ∧
      Replies failed (rs.map Request.type) xs w := by
    induction h generalizing s old result with
    | nil =>
      subst hrun
      obtain rfl : failed = false := hresult
      exact ⟨[], [], (List.append_nil _).symm, .nil⟩
    | @cons op r ops rs hc _ ih =>
      rw [List.flatMap_cons, List.append_assoc] at hs
      obtain ⟨hok, hdie⟩ := serveNextOperation_framed fuel fds hc
        (hfits r (by simp)) hs hroom hgrants (old 0)
      rw [List.length_cons, serveClient] at hrun
      cases hnext : serveNextOperation fuel fds (old 0) s with
      | ok next s₁ =>
        obtain ⟨rfl, x, w, hreply, hready, haccepted, hpending⟩ := hok next s₁ hnext
        rw [bind_of_ok hnext, if_pos rfl] at hrun
        obtain ⟨xs, ws, haccepted', hreplies⟩ := ih (fun x hx => hfits x (List.mem_cons_of_mem _ hx))
          hpending hready.room hready.grants (fun i => old (i + 1)) hrun hresult
        exact ⟨x :: xs, w ++ ws, by rw [haccepted', haccepted, List.append_assoc],
          .served hreply hreplies⟩
      | error stop s₁ =>
        rw [bind_of_error hnext] at hrun
        subst hrun
        cases stop with
        | die e =>
          obtain ⟨hmem, rfl⟩ : e ≠ .memory ∧ failed = true := hresult
          obtain ⟨w, hrefusal, haccepted⟩ := hdie e s₁ hnext hmem
          exact ⟨_, w, haccepted, .refused hrefusal⟩
        | fault => exact hresult.elim
        | diverged => exact hresult.elim
  obtain ⟨xs, w, haccepted, hreplies⟩ := hbytes
  exact ⟨xs, w, haccepted, hreplies, fun client more old' hclient hheap =>
    receiveAll_run old' hreplies hclient hheap⟩

end Serve

/-! ## What a handler finds in its arguments -/

theorem cString_of_take {b w : List UInt8} {n : ℕ} (h : cString (b.take n) = some w) :
    cString b = some w := by
  induction b generalizing n w with
  | nil =>
    rw [List.take_nil] at h
    cases h
  | cons c b ih =>
    cases n with
    | zero => cases h
    | succ n =>
      rw [List.take_succ_cons, cString] at h
      rw [cString]
      split at h
      · next hc => rwa [if_pos hc]
      · next hc =>
        obtain ⟨w', hw', rfl⟩ := Option.map_eq_some_iff.mp h
        rw [if_neg hc, ih hw']
        rfl

theorem splitArg_run {path : NetString} {w : List UInt8} (h : cString path.chars = some w) :
    splitArg path = onImage (Fs.liftExcept (splitPath w)) := by
  rw [splitArg, cString_of_take h]

/-- A request for the state of a path without a slash. -/
def statWithoutSlash : NetFsOperation := .op .stat (⟨⟨2, blockAt8 [120, 0]⟩⟩ : FsOpPathArgs)

/-- A connection over which that request comes. -/
def refusingServer : Server :=
  ⟨⟨fun _ => 0, 0, []⟩, byteByByte statWithoutSlash.wire, byteSink, false⟩

theorem statWithoutSlash_carries : statWithoutSlash.Carries (.stat [120, 0]) := by
  refine .op .stat _ fun f hf => ?_
  obtain rfl := List.mem_singleton.mp hf
  exact ⟨by rw [wordSize]; simp only; omega, Nat.le_refl 2⟩

/-- A file is written and read, its directory is listed, and a bad path ends the thread. -/
def mixedRequests : List NetFsOperation :=
  [.op .write (⟨⟨3, blockAt8 [47, 97, 0]⟩, 0, 2, blockAt16 [104, 105]⟩ : FsOpWriteArgs),
    .op .read (⟨⟨3, blockAt8 [47, 97, 0]⟩, 0, 16⟩ : FsOpReadArgs),
    .op .readDir (⟨⟨2, blockAt8 [47, 0]⟩⟩ : FsOpPathArgs), statWithoutSlash]

theorem mixedRequests_carries : List.Forall₂ NetFsOperation.Carries mixedRequests
    [.write [47, 97, 0] 0 [104, 105], .read [47, 97, 0] 0 16, .readDir [47, 0], .stat [120, 0]] :=
  .cons (.op .write _ (List.forall_mem_cons.mpr ⟨⟨by decide, Nat.le_refl 3⟩,
      List.forall_mem_singleton.mpr ⟨by decide, Nat.le_refl 2⟩⟩))
    (.cons (.op .read _ (List.forall_mem_singleton.mpr ⟨by decide, Nat.le_refl 3⟩))
      (.cons (.op .readDir _ (List.forall_mem_singleton.mpr ⟨by decide, Nat.le_refl 2⟩))
        (.cons statWithoutSlash_carries .nil)))

theorem mixedRequests_fits : ∀ r ∈ [Request.write [47, 97, 0] 0 [104, 105], .read [47, 97, 0] 0 16,
    .readDir [47, 0], .stat [120, 0]], r.Fits ∧ r.largest < 2 ^ 63 :=
  List.forall_mem_cons.mpr ⟨⟨Nat.two_pow_pos 64, by decide⟩, List.forall_mem_cons.mpr
    ⟨⟨⟨Nat.two_pow_pos 64, show 2 ^ 4 < 2 ^ 64 from Nat.pow_lt_pow_right Nat.one_lt_two (by decide)⟩,
        by decide⟩,
      List.forall_mem_cons.mpr ⟨⟨trivial, by decide⟩,
        List.forall_mem_singleton.mpr ⟨trivial, by decide⟩⟩⟩⟩

/-- A connection to the small tree over which these requests come. -/
def mixedServer : Server :=
  ⟨treeImage, byteByByte (mixedRequests.flatMap NetFsOperation.wire), byteSink, false⟩

theorem serveClient_framing_mixed : ∃ s',
    serveClient 4 ⟨1⟩ (fun _ => []) 4 mixedServer = .error (.die .invalidPath) s' ∧
    Replies true [.write, .read, .readDir, .stat] [.done, .read [104, 105], .readDir [treeItem],
      .refused (messageBytes "Invalid path" ++ [0])] s'.output.accepted := by
  have hgrants : ∀ bytes, (byteByByte bytes).heap.Grants (2 ^ 63 - 1) :=
    fun bytes => byteByByte_grants bytes (by omega)
  have hstop : stopped (serveClient 4 ⟨1⟩ (fun _ => []) 4 mixedServer) = some (.die .invalidPath) := by
    decide +kernel
  have hreceived : value (receiveAll [] [.write, .read, .readDir, .stat] (byteByByte
      (finalState (serveClient 4 ⟨1⟩ (fun _ => []) 4 mixedServer)).output.accepted)) =
      some [.done, .read [104, 105], .readDir [treeItem],
        .refused (messageBytes "Invalid path" ++ [0])] := by
    decide +kernel
  have hframing := fun result => @serveClient_framing mixedServer [] 4 ⟨1⟩ mixedRequests _
    mixedRequests_carries mixedRequests_fits (List.append_nil _).symm rfl (hgrants _) (fun _ => []) result true
  rw [show mixedRequests.length = 4 from rfl] at hframing
  generalize serveClient 4 ⟨1⟩ (fun _ => []) 4 mixedServer = res at hstop hreceived hframing ⊢
  obtain ⟨xs, w, haccepted, hreplies, hclient⟩ := hframing res rfl
    (by rw [of_stopped hstop]; exact ⟨by decide, rfl⟩)
  obtain ⟨client', hreceive, -⟩ := hclient (byteByByte w) [] [] (List.append_nil w).symm (hgrants w)
  have hw : (finalState res).output.accepted = w := haccepted
  rw [hw] at hreceived
  obtain ⟨rfl, -⟩ := EStateM.Result.ok.inj (hreceive.symm.trans (of_value hreceived))
  exact ⟨finalState res, of_stopped hstop, by rw [hw]; exact hreplies⟩

end KisLinux.Net
