import KisLinux.NetVerdict

/-!
# The commands `write` and `cat`

The two loops of `main_cli.c` that move a file, chunk by chunk, over a connection
to a thread of the server. The client has one request under way at a time, so
that the thread's turn lies between the request and the read of its answer.
-/
namespace KisLinux.Net
open ByteMemory StateRun ShortTransfer NameTree Fs

/-- What a client process ends with when it does not come through. -/
inductive ClientStop
  /-- `die` and `die_fatal`. -/
  | die (message : List UInt8)
  /-- An access outside every object. -/
  | fault
  | diverged
  deriving DecidableEq, Repr

/-- A client process, its connection, and the thread at the other end of it. -/
structure Client where
  /-- What is still to come on the standard input. -/
  stdin : List UInt8
  /-- `feof(stdin)`. -/
  eof : Bool
  stdout : List UInt8
  toServer : Sink UInt8
  fromServer : Input
  server : Server

abbrev CliM := EStateM ClientStop Client

/-- The bytes that a call put on a connection arrive behind those on their way. -/
def Input.deliver (s : Input) (before after : Sink UInt8) : Input :=
  { s with
    source := { s.source with
      pending := s.source.pending ++ after.accepted.drop before.accepted.length } }

/-- `slz_NetFsOperation_write` on the client's socket. -/
def sendOperation (op : NetFsOperation) : CliM Bool := fun c =>
  match slzNetFsOperationWrite op c.toServer with
  | .ok sent out => .ok sent { c with
      toServer := out
      server := { c.server with input := c.server.input.deliver c.toServer out } }
  | .error _ out => .error .fault { c with toServer := out }

/-- The thread at the other end got to the state `s`. -/
def Client.turned (c : Client) (s : Server) : Client :=
  { c with server := s, fromServer := c.fromServer.deliver c.server.output s.output }

/-- The thread says nothing, and the connection stays open: its end in `die` and
`die_fatal` closes no socket, the end of the whole process does. -/
def staysSilent : Stop → Bool
  | .die e => e = .memory
  | .fault => false
  | .diverged => true

/-- `serve_next_operation` of the thread at the other end. The client waits for ever
when there is neither an answer nor an end of the connection. -/
def serverTurn (fuel : ℕ) (fds : FsDescriptors) (old : List UInt8) : CliM Unit := fun c =>
  let round := serveNextOperation fuel fds old c.server
  if (stopped round).any staysSilent then .error .diverged (c.turned (finalState round))
  else .ok () (c.turned (finalState round))

/-- What the client reads behind a request of the type `t`. -/
def receiveAnswer (old : List UInt8) (t : FsOpType) : CliM Received := fun c =>
  match receive old t c.fromServer with
  | .ok x input => .ok x { c with fromServer := input }
  | .error _ input => .error .fault { c with fromServer := input }

/-- `malloc` in the client. -/
def clientMalloc (size : ℕ) : CliM (Option ℕ+) := fun c =>
  .ok (c.fromServer.heap.answers 0 size)
    { c with fromServer := { c.fromServer with heap := c.fromServer.heap.next } }

/-- `to_string` in the client. -/
def clientString (s : List UInt8) : CliM NetString := do
  let address ← clientMalloc (s.length + 1)
  match address with
  | none => throw (.die (reported .memory))
  | some a => pure ⟨s.length + 1, .block a (s ++ [0])⟩

def connectionProblems : List UInt8 := messageBytes "Connection problems"

/-- Every problem with an answer is passed to `die_fatal`. -/
def orDie : Received → CliM Received
  | .connectionProblems => throw (.die connectionProblems)
  | .refused message => throw (.die message)
  | x => pure x

/-- A request and its answer. -/
def perform (fuel : ℕ) (fds : FsDescriptors) (old : List UInt8) (t : FsOpType) (args : t.Args) :
    CliM Received := do
  let sent ← sendOperation (.op t args)
  if sent = false then throw (.die connectionProblems)
  else do
    serverTurn fuel fds old
    let x ← receiveAnswer old t
    orDie x

/-- `buf_size`. -/
def bufSize : ℕ := 1024 * 1024 * 2

/-- `fread`; it notices the end of the input when it wants more than there is. -/
def fread (n : ℕ) : CliM (List UInt8) := fun c =>
  .ok (c.stdin.take n)
    { c with stdin := c.stdin.drop n, eof := c.eof || decide (c.stdin.length < n) }

def fwrite (d : List UInt8) : CliM Unit := fun c => .ok () { c with stdout := c.stdout ++ d }

/-- The loop of `perform_write`, for at most so many rounds. -/
def performWriteLoop (fuel : ℕ) (fds : FsDescriptors) (path : NetString) (buffer : ℕ+) :
    ℕ → (ℕ → List UInt8) → ℕ → CliM Unit
  | 0, _, _ => throw .diverged
  | rounds + 1, old, offset => do
    let c ← get
    if c.eof then pure ()
    else do
      let chunk ← fread bufSize
      let _ ← perform fuel fds (old 0) .write
        (⟨path, offset, chunk.length, .block buffer chunk⟩ : FsOpWriteArgs)
      performWriteLoop fuel fds path buffer rounds (fun i => old (i + 1)) (wadd offset chunk.length)

/-- `perform_write`. A round but the last takes something from the input, and the
end of the loop is one more test. -/
def performWrite (fuel : ℕ) (fds : FsDescriptors) (old : ℕ → List UInt8) (path : List UInt8)
    (offset : ℕ) : CliM Unit := do
  let str ← clientString path
  let buffer ← clientMalloc bufSize
  match buffer with
  | none => throw .fault
  | some buffer => do
    let c ← get
    performWriteLoop fuel fds str buffer (c.stdin.length + 2) old offset

/-- `perform_read`; the answer is copied to a buffer of `bufSize` bytes. -/
def performRead (fuel : ℕ) (fds : FsDescriptors) (old : List UInt8) (path : List UInt8)
    (offset length : ℕ) : CliM (List UInt8) := do
  let str ← clientString path
  let x ← perform fuel fds old .read (⟨str, offset, length⟩ : FsOpReadArgs)
  match x with
  | .read d => if d.length ≤ bufSize then pure d else throw .fault
  | _ => throw .fault

/-- The loop of `cat`. -/
def catLoop (fuel : ℕ) (fds : FsDescriptors) (path : List UInt8) :
    ℕ → (ℕ → List UInt8) → ℕ → CliM Unit
  | 0, _, _ => throw .diverged
  | rounds + 1, old, total => do
    let bytes ← performRead fuel fds (old 0) path total bufSize
    if bytes = [] then pure ()
    else do
      fwrite bytes
      catLoop fuel fds path rounds (fun i => old (i + 1)) (wadd total bytes.length)

/-- `cat`, with at most so many reads. -/
def cat (fuel : ℕ) (fds : FsDescriptors) (old : ℕ → List UInt8) (path : List UInt8)
    (rounds : ℕ) : CliM Unit := do
  let buffer ← clientMalloc bufSize
  match buffer with
  | none => throw .fault
  | some _ => catLoop fuel fds path rounds old 0

/-! ## One request -/

/-- The connection is up, nothing is on its way, and neither side runs out of memory. -/
structure Client.Connected (c : Client) : Prop where
  toServer : c.toServer.room = none
  fromServer : c.server.output.room = none
  asked : c.server.input.source.pending = []
  answered : c.fromServer.source.pending = []
  heap : c.fromServer.heap.Grants (2 ^ 63 - 1)
  serverHeap : c.server.input.heap.Grants (2 ^ 63 - 1)

/-- The terminal of `c'` is where the one of `c` was. -/
structure Client.SameTerminal (c c' : Client) : Prop where
  stdin : c'.stdin = c.stdin
  eof : c'.eof = c.eof
  stdout : c'.stdout = c.stdout

theorem Input.deliver_pending {s : Input} {before after : Sink UInt8} {w : List UInt8}
    (hs : s.source.pending = []) (h : after.accepted = before.accepted ++ w) :
    (s.deliver before after).source.pending = w := by
  simp [Input.deliver, hs, h]

/-- An operation that leaves the process has not been answered. -/
theorem dispatch_stopped {fuel : ℕ} {fds : FsDescriptors} {t : FsOpType} {args : t.Args}
    {s s' : Server} {e : Stop} (hroom : s.output.room = none)
    (hgrants : s.input.heap.Grants (2 ^ 63 - 1)) (he : ∀ d, e ≠ .die d)
    (h : dispatch fuel fds (.op t args) s = .error e s') : s'.output = s.output := by
  have hframed := processOperation_framed fuel fds t args
    (s := { s with errorIntercepted := false }) ⟨hroom, rfl, hgrants⟩
  have hready : Server.Ready { s with errorIntercepted := false } := ⟨hroom, rfl, hgrants⟩
  rw [dispatch, bind_of_ok (modify_run _ s), intercepted] at h
  split at h
  · cases h
  · next d t hrun =>
    obtain ⟨rfl, -⟩ := EStateM.Result.error.inj
      ((exited_ready d (hready.silent (hframed.stop _ _ hrun))).symm.trans h)
    exact absurd rfl (he d)
  · next hrun =>
    obtain ⟨rfl, rfl⟩ := EStateM.Result.error.inj h
    exact (hframed.stop _ _ hrun).output

/-- Without an answer the client has connection problems. -/
theorem receive_nothing {s : Input} (hs : s.source.pending = []) (old : List UInt8) (t : FsOpType) :
    ∃ s', receive old t s = .ok .connectionProblems s' := by
  obtain ⟨s₁, hread, -⟩ := safeRead_run 16 s
  have hread : safeRead 16 s = .ok (false, []) s₁ := by
    rw [hs] at hread
    exact hread
  have hstring := bind_of_ok (f := fun r => (if r.1 = true then slzArraysRead slzString.arrays
      (slzString.ofImage (r.2 ++ (slzString.image (slzString.ofImage old)).drop r.2.length))
    else pure (false, slzString.ofImage
      (r.2 ++ (slzString.image (slzString.ofImage old)).drop r.2.length)))) hread
  have herror : readError old s = .ok (some .connectionProblems) s₁ := bind_of_ok hstring
  exact ⟨s₁, bind_of_ok herror⟩

/-- A round of the server that comes through has dispatched what it read. -/
theorem serveNextOperation_ok {fuel : ℕ} {fds : FsDescriptors} {old : List UInt8} {s s' : Server}
    (h : serveNextOperation fuel fds old s = .ok true s') :
    ∃ op input, slzNetFsOperationRead old s.input = .ok (true, op) input ∧
      dispatch fuel fds op { s with input := input } = .ok () s' := by
  obtain ⟨⟨ok, op⟩, s₁, hread, hrest⟩ := bind_eq_ok.mp h
  obtain ⟨input, hinput, rfl⟩ := onPart_eq_ok hread
  cases ok with
  | false => cases hrest
  | true =>
    obtain ⟨u, s₂, hrun, hpure⟩ := bind_eq_ok.mp hrest
    obtain ⟨-, rfl⟩ := EStateM.Result.ok.inj hpure
    exact ⟨op, input, hinput, hrun⟩

section Turn

variable {s s' : Server} {op : NetFsOperation} {r : Request} {fuel : ℕ} {fds : FsDescriptors}
  {old : List UInt8}

/-- A round that completes its request serves it. -/
theorem serveNextOperation_served (hc : op.Carries r) (hfits : r.Fits ∧ r.largest < 2 ^ 63)
    (hs : s.input.source.pending = op.wire ++ []) (hroom : s.output.room = none)
    (hgrants : s.input.heap.Grants (2 ^ 63 - 1)) (h : serveNextOperation fuel fds old s = .ok true s') :
    ∃ x w, Reply r.type x w ∧ s'.Ready ∧ s'.output.accepted = s.output.accepted ++ w ∧
      s'.input.source.pending = [] ∧ Served fds s.image r x s'.image := by
  obtain ⟨hok, -⟩ := serveNextOperation_framed fuel fds hc hfits hs hroom hgrants old
  obtain ⟨-, x, w, hreply, hready, haccepted, hpending⟩ := hok true s' h
  refine ⟨x, w, hreply, hready, haccepted, hpending, ?_⟩
  obtain ⟨op₁, input₁, hread₁, hrun⟩ := serveNextOperation_ok h
  obtain ⟨op₂, input₂, hread₂, hc₂, -⟩ :=
    slzNetFsOperationRead_run hc hfits.1 hs hgrants (Nat.le_sub_one_of_lt hfits.2) old
  obtain ⟨hpair, rfl⟩ := EStateM.Result.ok.inj (hread₁.symm.trans hread₂)
  obtain rfl : op₁ = op₂ := congrArg Prod.snd hpair
  exact .intro (s := { s with input := input₁ }) hc₂ hroom hrun hreply haccepted

/-- A round that does not complete its request stops where the dispatch of it does. -/
theorem serveNextOperation_error {e : Stop} (hc : op.Carries r)
    (hfits : r.Fits ∧ r.largest < 2 ^ 63) (hs : s.input.source.pending = op.wire ++ [])
    (hgrants : s.input.heap.Grants (2 ^ 63 - 1))
    (h : serveNextOperation fuel fds old s = .error e s') :
    ∃ op' input, op'.Carries r ∧ input.heap.Grants (2 ^ 63 - 1) ∧
      dispatch fuel fds op' { s with input := input } = .error e s' := by
  obtain ⟨op', input, hread, hc', -, hgrants'⟩ :=
    slzNetFsOperationRead_run hc hfits.1 hs hgrants (Nat.le_sub_one_of_lt hfits.2) old
  rw [serveNextOperation, bind_of_ok (onInput_of_ok hread), if_pos rfl] at h
  rcases bind_eq_error.mp h with hrun | ⟨u, s₁, -, hpure⟩
  · exact ⟨op', input, hc', hgrants', hrun⟩
  · cases hpure

/-- A round that leaves the process has answered nothing. -/
theorem serveNextOperation_stopped {e : Stop} (hc : op.Carries r)
    (hfits : r.Fits ∧ r.largest < 2 ^ 63) (hs : s.input.source.pending = op.wire ++ [])
    (hroom : s.output.room = none) (hgrants : s.input.heap.Grants (2 ^ 63 - 1))
    (he : ∀ d, e ≠ .die d) (h : serveNextOperation fuel fds old s = .error e s') :
    s'.output = s.output := by
  obtain ⟨op', input, hc', hgrants', hrun⟩ := serveNextOperation_error hc hfits hs hgrants h
  cases hc' with
  | op t args full => exact dispatch_stopped (s := { s with input := input }) hroom hgrants' he hrun

end Turn

/-- On the volume of `s` the thread does not leave the request `r` without a word. -/
def NeverSilent (fuel : ℕ) (fds : FsDescriptors) (s : Server) (r : Request) : Prop :=
  ∀ (op : NetFsOperation) (input : Input) (e : Stop) (s' : Server), op.Carries r →
    input.heap.Grants (2 ^ 63 - 1) → dispatch fuel fds op { s with input := input } = .error e s' →
    staysSilent e = false

/-- What a client prints when the thread did not complete its request. -/
def complaint : Stop → List UInt8
  | .die e => reported e ++ [0]
  | .fault | .diverged => connectionProblems

/-- The last round of the thread did not complete its request, which is what the client
complains of. -/
def Client.Failed (fuel : ℕ) (fds : FsDescriptors) (message : List UInt8) (c : Client) : Prop :=
  ∃ old s e, serveNextOperation fuel fds old s = .error e c.server ∧ message = complaint e

/-- A client that works on the path `s` gives up: a request failed, or there is no
memory for a path as long as this. -/
def Client.GivesUp (fuel : ℕ) (fds : FsDescriptors) (s message : List UInt8) (c : Client) : Prop :=
  c.Failed fuel fds message ∨ 2 ^ 63 ≤ s.length + 1 ∧ message = reported .memory

section Perform

variable {c : Client} {t : FsOpType} {args : t.Args} (fuel : ℕ) (fds : FsDescriptors)
  (old : List UInt8)

theorem receiveAnswer_of {x : Received} {input : Input} (h : receive old t c.fromServer = .ok x input) :
    receiveAnswer old t c = .ok x { c with fromServer := input } := by
  rw [receiveAnswer, h]

theorem serverTurn_of {old : List UInt8}
    (h : (stopped (serveNextOperation fuel fds old c.server)).any staysSilent = false) :
    serverTurn fuel fds old c =
      .ok () (c.turned (finalState (serveNextOperation fuel fds old c.server))) := by
  rw [serverTurn, h]
  rfl

/-- The server's turn on a request that waits for it, and what the client then reads:
a problem, or the answer to the completed request. -/
theorem receiveAnswer_run {op : NetFsOperation} {r : Request} (hc : op.Carries r)
    (hfits : r.Fits ∧ r.largest < 2 ^ 63) (hup : c.toServer.room = none)
    (hdown : c.server.output.room = none) (hasked : c.server.input.source.pending = op.wire)
    (hanswered : c.fromServer.source.pending = []) (hheap : c.fromServer.heap.Grants (2 ^ 63 - 1))
    (hserver : c.server.input.heap.Grants (2 ^ 63 - 1)) (hspeaks : NeverSilent fuel fds c.server r) :
    ∃ x c', (serverTurn fuel fds old >>= fun _ => receiveAnswer old r.type) c = .ok x c' ∧
      ((∃ message, orDie x = throw (.die message) ∧ c'.Failed fuel fds message) ∨
        (∃ p, Payload r.type x p) ∧ Served fds c.server.image r x c'.server.image ∧ c'.Connected ∧
          c.SameTerminal c') := by
  have hwire : c.server.input.source.pending = op.wire ++ [] := by rw [hasked, List.append_nil]
  cases hrun : serveNextOperation fuel fds old c.server with
  | ok more s' =>
    rw [bind_of_ok (serverTurn_of fuel fds (by rw [hrun]; rfl)), hrun, finalState_ok]
    obtain ⟨hok, -⟩ := serveNextOperation_framed fuel fds hc hfits hwire hdown hserver old
    obtain ⟨rfl, -⟩ := hok more s' hrun
    obtain ⟨x, w, hreply, hready, haccepted, hpending, hserved⟩ :=
      serveNextOperation_served hc hfits hwire hdown hserver hrun
    have hcame : (c.turned s').fromServer.source.pending = w ++ [] := by
      rw [List.append_nil]
      exact Input.deliver_pending hanswered haccepted
    obtain ⟨input, hreceive, hrest, hheap'⟩ := receive_run old hreply hcame hheap
    obtain ⟨a, p, hp, -⟩ := hreply
    exact ⟨x, _, receiveAnswer_of old hreceive, .inr ⟨⟨p, hp⟩, hserved,
      ⟨hup, hready.room, hpending, hrest, hheap', hready.grants⟩, ⟨rfl, rfl, rfl⟩⟩⟩
  | error e s' =>
    obtain ⟨op', input, hc', hgrants', hstopped⟩ :=
      serveNextOperation_error hc hfits hwire hserver hrun
    have hspoken := hspeaks op' input e s' hc' hgrants' hstopped
    rw [bind_of_ok (serverTurn_of fuel fds (by rw [hrun]; exact hspoken)), hrun, finalState_error]
    cases e with
    | die d =>
      have hmem : d ≠ .memory := of_decide_eq_false hspoken
      obtain ⟨-, hrefused⟩ := serveNextOperation_framed fuel fds hc hfits hwire hdown hserver old
      obtain ⟨w, hrefusal, haccepted⟩ := hrefused d s' hrun hmem
      have hcame : (c.turned s').fromServer.source.pending = w ++ [] := by
        rw [List.append_nil]
        exact Input.deliver_pending hanswered haccepted
      obtain ⟨input, hreceive, -⟩ := receive_refused old hrefusal r.type hcame hheap
      exact ⟨_, _, receiveAnswer_of old hreceive, .inl ⟨_, rfl, old, _, _, hrun, rfl⟩⟩
    | fault =>
      have hsame := serveNextOperation_stopped hc hfits hwire hdown hserver (by simp) hrun
      obtain ⟨input, hreceive⟩ := receive_nothing (s := (c.turned s').fromServer)
        (Input.deliver_pending hanswered (by rw [hsame, List.append_nil])) old r.type
      exact ⟨_, _, receiveAnswer_of old hreceive, .inl ⟨_, rfl, old, _, _, hrun, rfl⟩⟩
    | diverged => cases hspoken

theorem Payload.orDie {x : Received} {p : List UInt8} (h : Payload t x p) : orDie x = pure x := by
  cases h <;> rfl

/-- A request ends the process, or it is served and the connection stays up. -/
theorem perform_run {r : Request} (h : c.Connected) (hc : NetFsOperation.Carries (.op t args) r)
    (hfits : r.Fits ∧ r.largest < 2 ^ 63) (hspeaks : NeverSilent fuel fds c.server r) :
    (∃ message c', perform fuel fds old t args c = .error (.die message) c' ∧
      c'.Failed fuel fds message) ∨
      ∃ x p c', perform fuel fds old t args c = .ok x c' ∧ Payload r.type x p ∧
        Served fds c.server.image r x c'.server.image ∧ c'.Connected ∧ c.SameTerminal c' := by
  obtain ⟨out, hwrite, haccepted, hroom⟩ := slzNetFsOperationWrite_run hc h.toServer
  have hsend : sendOperation (.op t args) c = .ok true
      { c with
        toServer := out
        server := { c.server with input := c.server.input.deliver c.toServer out } } := by
    rw [sendOperation, hwrite]
  have htype : r.type = t := by
    cases hc with
    | op _ _ full => exact FsOpType.request_type t args
  obtain ⟨x, c', hrun, hcases⟩ := receiveAnswer_run fuel fds old
    (c := { c with
        toServer := out
        server := { c.server with input := c.server.input.deliver c.toServer out } })
    hc hfits hroom h.fromServer (Input.deliver_pending h.asked haccepted) h.answered h.heap
    h.serverHeap hspeaks
  rw [htype] at hrun
  obtain ⟨u, c₁, hturn, hanswer⟩ := bind_eq_ok.mp hrun
  have hperform : perform fuel fds old t args c = orDie x c' := by
    rw [perform, bind_of_ok hsend, if_neg Bool.noConfusion, bind_of_ok hturn, bind_of_ok hanswer]
  rw [hperform]
  rcases hcases with ⟨message, hdie, hfailed⟩ | ⟨⟨p, hp⟩, hserved, hconnected, hsame⟩
  · exact .inl ⟨message, c', by rw [hdie]; rfl, hfailed⟩
  · refine .inr ⟨x, p, c', ?_, hp, hserved, hconnected, ⟨hsame.stdin, hsame.eof, hsame.stdout⟩⟩
    rw [hp.orDie]
    rfl

end Perform

/-! ## What a request does to one file -/

section File

variable {g : Geometry} {img img' : Image} {live : Finset ℕ} {n : TreeNode} {item : DirectoryItem}
  {fds : FsDescriptors} {cs : List (List UInt8)} {p d bytes : List UInt8} {x : Received} {o len : ℕ}

/-- A completed Write has overwritten the file, or had nothing to write. -/
theorem Served.write_located (h : Served fds img (.write p o d) x img') (htree : TreeOn g img live n)
    (hroot : fds.rootInode = g.root) (h0 : 0 ∈ p) (hcs : (Request.write p o d).components = cs)
    (hd : d.length < 2 ^ 63) (hfile : n.locate cs = some (.file item bytes)) :
    d = [] ∧ img' = img ∨ o ≤ bytes.length ∧ Written g img img' item.inode o d := by
  obtain ⟨fuel, type, args, s, s', hr, hopen, rfl, rfl, -, hrun, -⟩ := h.run
  cases type with
  | write =>
    let args : FsOpWriteArgs := args
    obtain ⟨hp, rfl, rfl⟩ := Request.write.inj hr
    obtain ⟨q, cs', b, hq, hpath, hwrite, -⟩ := @fsopWrite_ok _ _ _ _ args hopen hrun
    obtain rfl := (hq.components (r := .write p args.offset (args.data.bytes.take args.length)) hp
      h0).symm.trans hcs
    exact writeFile_located htree hroot hq.splitsTo hq.zero_notMem hd hfile hpath hwrite
  | _ => cases hr

/-- A completed Read gives the piece of the file and leaves the image alone. -/
theorem Served.read_located (h : Served fds img (.read p o len) x img') (htree : TreeOn g img live n)
    (hroot : fds.rootInode = g.root) (h0 : 0 ∈ p) (hcs : (Request.read p o len).components = cs)
    (hfile : n.locate cs = some (.file item bytes)) :
    x = .read ((bytes.drop o).take len) ∧ img' = img := by
  obtain ⟨fuel, type, args, s, s', hr, hopen, rfl, rfl, -, hrun, hsame⟩ := h.run
  cases type with
  | read =>
    let args : FsOpReadArgs := args
    obtain ⟨hp, rfl, rfl⟩ := Request.read.inj hr
    obtain ⟨q, cs', b, d, hq, hpath, hread, hlen, hanswered, himage⟩ :=
      @fsopRead_ok _ _ _ args hopen hrun
    obtain rfl := (hq.components (r := .read p args.offset args.length) hp h0).symm.trans hcs
    obtain rfl := readFile_located htree hroot hq.splitsTo hq.zero_notMem hlen hfile hpath hread
    exact ⟨hsame _ hanswered, himage⟩
  | _ => cases hr

/-- The tree behind a completed Write. -/
theorem Served.overwrites (h : Served fds img (.write p o d) x img') (htree : TreeOn g img live n)
    (hroot : fds.rootInode = g.root) (h0 : 0 ∈ p) (hcs : (Request.write p o d).components = cs)
    (hd : d.length < 2 ^ 63) (hfile : n.locate cs = some (.file item bytes)) :
    ∃ n', TreeOn g img' live n' ∧ n'.locate cs = some (.file item (overwrite bytes o d)) := by
  rcases h.write_located htree hroot h0 hcs hd hfile with ⟨rfl, rfl⟩ | ⟨-, hw⟩
  · exact ⟨n, htree, by rw [overwrite_nil]; exact hfile⟩
  · refine ⟨_, htree.written hfile hw, ?_⟩
    rw [Node.locate_update hfile hfile, if_pos (List.prefix_refl cs), List.drop_length]
    rfl

theorem TreeOn.length_lt (htree : TreeOn g img live n) (hfile : n.locate cs = some (.file item bytes)) :
    bytes.length < 2 ^ 63 := by
  obtain ⟨hall, -, hlive⟩ := htree.located hfile
  have hbound := htree.owned.size_bound (hlive _ (label_mem_heads _))
  have hsize := g.size_lt
  rw [Node.label] at hbound
  rw [← (stored_file.mp hall).2, content_length]
  omega

end File

/-! ## Strings -/

section Strings

variable {c : Client} (a b : ℕ+) (s d : List UInt8) (o len : ℕ)

theorem Client.Connected.next (h : c.Connected) :
    Client.Connected
      { c with fromServer := { c.fromServer with heap := c.fromServer.heap.next } } where
  toServer := h.toServer
  fromServer := h.fromServer
  asked := h.asked
  answered := h.answered
  heap := h.heap.next
  serverHeap := h.serverHeap

/-- `malloc` in a process that does not run out of memory. -/
theorem clientMalloc_run (h : c.Connected) {size : ℕ} (hsize : size < 2 ^ 63) :
    ∃ a, clientMalloc size c = .ok (some a)
      { c with fromServer := { c.fromServer with heap := c.fromServer.heap.next } } := by
  obtain ⟨a, ha⟩ := h.heap 0 size (Nat.le_sub_one_of_lt hsize)
  exact ⟨a, by rw [clientMalloc, ha]⟩

/-- No string is so long that it could not be sent. -/
theorem clientString_cases (hheap : c.fromServer.heap.Grants (2 ^ 63 - 1)) :
    (∃ c', 2 ^ 63 ≤ s.length + 1 ∧ clientString s c = .error (.die (reported .memory)) c') ∨
      ∃ a, s.length + 1 < 2 ^ 63 ∧ clientString s c = .ok ⟨s.length + 1, .block a (s ++ [0])⟩
        { c with fromServer := { c.fromServer with heap := c.fromServer.heap.next } } := by
  have hmalloc : clientMalloc (s.length + 1) c = .ok (c.fromServer.heap.answers 0 (s.length + 1))
      { c with fromServer := { c.fromServer with heap := c.fromServer.heap.next } } := rfl
  rw [clientString, bind_of_ok hmalloc]
  cases ha : c.fromServer.heap.answers 0 (s.length + 1) with
  | none =>
    refine .inl ⟨_, Nat.le_of_not_lt fun hlt => ?_, rfl⟩
    obtain ⟨a, hsome⟩ := hheap 0 (s.length + 1) (Nat.le_sub_one_of_lt hlt)
    cases ha.symm.trans hsome
  | some a => exact .inr ⟨a, c.fromServer.heap.granted_lt 0 _ a ha, rfl⟩

theorem sent_chars : NetString.chars ⟨s.length + 1, .block a (s ++ [0])⟩ = s ++ [0] :=
  List.take_of_length_le (by simp [Buffer.block])

theorem sent_full (hs : s.length + 1 < 2 ^ 63) :
    1 * (s.length + 1) < wordSize ∧ 1 * (s.length + 1) ≤ (s ++ [0]).length := by
  rw [Nat.one_mul, List.length_append]
  exact ⟨lt_wordSize hs, Nat.le_refl _⟩

theorem carries_write (hs : s.length + 1 < 2 ^ 63) (hd : d.length < 2 ^ 63) :
    NetFsOperation.Carries
      (.op .write (⟨⟨s.length + 1, .block a (s ++ [0])⟩, o, d.length, .block b d⟩ : FsOpWriteArgs))
      (.write (s ++ [0]) o d) := by
  have hdata : 1 * d.length < wordSize ∧ 1 * d.length ≤ d.length := by
    rw [Nat.one_mul]
    exact ⟨lt_wordSize hd, Nat.le_refl _⟩
  have hr : FsOpType.request .write
      (⟨⟨s.length + 1, .block a (s ++ [0])⟩, o, d.length, .block b d⟩ : FsOpWriteArgs) =
      .write (s ++ [0]) o d := by
    change Request.write (NetString.chars _) o (d.take d.length) = _
    rw [sent_chars, List.take_length]
  exact hr ▸ .op .write _ (List.forall_mem_cons.mpr ⟨⟨(sent_full s hs).1, (sent_full s hs).2⟩,
    List.forall_mem_singleton.mpr ⟨hdata.1, hdata.2⟩⟩)

theorem carries_read (hs : s.length + 1 < 2 ^ 63) :
    NetFsOperation.Carries
      (.op .read (⟨⟨s.length + 1, .block a (s ++ [0])⟩, o, len⟩ : FsOpReadArgs))
      (.read (s ++ [0]) o len) := by
  have hr : FsOpType.request .read
      (⟨⟨s.length + 1, .block a (s ++ [0])⟩, o, len⟩ : FsOpReadArgs) = .read (s ++ [0]) o len := by
    change Request.read (NetString.chars _) o len = _
    rw [sent_chars]
  exact hr ▸ .op .read _
    (List.forall_mem_singleton.mpr ⟨(sent_full s hs).1, (sent_full s hs).2⟩)

end Strings

/-! ## Requests to a file are not left without a word -/

/-- The handler comes through, or it dies of something else than a failed allocation. -/
def Aloud (res : EStateM.Result Stop Server Unit) : Prop :=
  ∀ e s', res = .error e s' → ∃ d, e = .die d ∧ d ≠ .memory

section Aloud

variable {g : Geometry} {live : Finset ℕ} {n m : TreeNode} {item : DirectoryItem} {fds : FsDescriptors}
  {cs : List (List UInt8)} {bytes : List UInt8} {s s' : Server} {path : NetString} {r : Request}
  {fuel : ℕ}

theorem Aloud.ok : Aloud (.ok () s') := fun _ _ h => by cases h

theorem Aloud.die {d : FsError} (hd : d ≠ .memory) : Aloud (.error (.die d) s') := fun _ _ h =>
  ⟨d, (EStateM.Result.error.inj h).1.symm, hd⟩

theorem Aloud.after {α : Type} {x : SrvM α} {k : α → SrvM Unit} {a : α} (hx : x s = .ok a s')
    (h : Aloud (k a s')) : Aloud ((x >>= k) s) := by
  rwa [bind_of_ok hx]

theorem Aloud.stopped {α : Type} {x : SrvM α} {k : α → SrvM Unit} {d : FsError}
    (hx : x s = .error (.die d) s') (hd : d ≠ .memory) : Aloud ((x >>= k) s) := by
  rw [bind_of_error hx]
  exact .die hd

theorem Aloud.status (hs : s.Ready) : Aloud (writeEmptyError s) := by
  obtain ⟨a, s', hrun, -⟩ := writeEmptyError_run hs
  rw [hrun]
  exact .ok

theorem Aloud.reply {y : OutM Bool} {w : List UInt8} (hs : s.Ready) (hy : Sends y w) :
    Aloud ((writeEmptyError >>= fun _ => answer y) s) := by
  obtain ⟨a, s₁, hrun, -, hready⟩ := writeEmptyError_run hs
  obtain ⟨s₂, hanswer, -⟩ := answer_run hy hready.room hready.grants
  rw [bind_of_ok hrun, hanswer]
  exact .ok

theorem Aloud.locateArg {k : ℕ → SrvM Unit} (htree : TreeOn g s.image live n)
    (hroot : fds.rootInode = g.root) (hr : path.chars = r.path) (h0 : 0 ∈ r.path)
    (hm : n.locate r.components = some m) (hk : Aloud (k m.label.inode s)) :
    Aloud ((splitArg path >>= fun q => onImage (locatePath fds q) >>= k) s) := by
  rcases splitArg_names hr h0 s with ⟨e, hnames, hsplit⟩ | ⟨q, hq, -, hsplit, -⟩
  · exact .stopped hsplit (by simp [names_error hnames])
  · have hpath := locatePath_walk htree hroot hq.splitsTo hq.zero_notMem
    rw [Node.walk_eq_ok.mpr hm] at hpath
    exact .after hsplit (.after (onImage_of_ok hpath) hk)

theorem fsopWrite_aloud (args : FsOpWriteArgs) (hs : s.Ready) (htree : TreeOn g s.image live n)
    (hroot : fds.rootInode = g.root) (hr : args.path.chars = r.path) (h0 : 0 ∈ r.path)
    (hfilled : args.length ≤ args.data.bytes.length)
    (hd : (args.data.bytes.take args.length).length < 2 ^ 63)
    (hfile : n.locate r.components = some (.file item bytes)) : Aloud (fsopWrite fuel fds args s) := by
  refine .locateArg htree hroot hr h0 hfile ?_
  have hflags := writeFile_flags (o := args.offset) (d := args.data.bytes.take args.length) fuel htree
    hfile
  rw [if_neg (Nat.not_lt_of_le hfilled)]
  by_cases hnot : flagsOf g s.image item.inode &&& flgFile = 0
  · exact .stopped (onImage_of_error (hflags.trans (if_pos hnot))) (by simp)
  · have hrun := hflags.trans (if_neg hnot)
    rcases writeFileUnchecked_node (o := args.offset) fuel [] htree hfile hd
      with ⟨-, hdie⟩ | ⟨-, ⟨img', hok, -⟩ | ⟨e, img', he, hdie, -⟩⟩
    · exact .stopped (onImage_of_error (hrun.trans hdie)) (by simp)
    · exact .after (onImage_of_ok (hrun.trans hok)) (.status ⟨hs.room, hs.clean, hs.grants⟩)
    · exact .stopped (onImage_of_error (hrun.trans hdie)) (noRoom_ne_memory he)

theorem fsopRead_aloud (args : FsOpReadArgs) (hs : s.Ready) (htree : TreeOn g s.image live n)
    (hroot : fds.rootInode = g.root) (hr : args.path.chars = r.path) (h0 : 0 ∈ r.path)
    (hlen : args.length < 2 ^ 63) (hm : n.locate r.components = some m) :
    Aloud (fsopRead fds args s) := by
  refine .locateArg htree hroot hr h0 hm ?_
  obtain ⟨a, s₁, hmalloc, hsilent, himage⟩ := malloc_granted hlen hs
  have hready := hs.silent hsilent
  have hread := readFile_node (o := args.offset) htree hm hlen
  rw [← himage] at hread
  refine .after hmalloc ?_
  split at hread
  · exact .stopped (onImage_of_error hread) (by simp)
  · have hlt := Nat.lt_of_le_of_lt (readFile_length hread) hlen
    have hsends := sends_string (b := .block a _) hlt
    exact .after (onImage_of_ok hread) (.reply ⟨hready.room, hready.clean, hready.grants⟩ hsends)

/-- What the handler says is heard. -/
theorem Aloud.speaks (hroom : s.output.room = none)
    (h : ∀ op input, op.Carries r → Server.Ready { s with input := input, errorIntercepted := false } →
      Aloud (processOperation fuel fds op { s with input := input, errorIntercepted := false })) :
    NeverSilent fuel fds s r := by
  intro op input e s' hc hgrants hrun
  have hready : Server.Ready { s with input := input, errorIntercepted := false } :=
    ⟨hroom, rfl, hgrants⟩
  have hdispatch : dispatch fuel fds op { s with input := input } =
      intercepted (processOperation fuel fds op)
        { s with input := input, errorIntercepted := false } := by
    rw [dispatch, bind_of_ok (modify_run _ _)]
  cases hres : processOperation fuel fds op { s with input := input, errorIntercepted := false } with
  | ok u s₁ => cases hrun.symm.trans (hdispatch.trans (intercepted_of_ok hres))
  | error stop s₁ =>
    obtain ⟨d, rfl, hd⟩ := h op input hc hready _ _ hres
    obtain ⟨s₂, hdied⟩ := dispatch_dies (s := { s with input := input }) hc hready hres
    obtain ⟨rfl, -⟩ := EStateM.Result.error.inj (hrun.symm.trans hdied)
    exact decide_eq_false hd

variable {p d : List UInt8} {o len : ℕ}

theorem speaks_write (hroom : s.output.room = none) (htree : TreeOn g s.image live n)
    (hroot : fds.rootInode = g.root) (h0 : 0 ∈ p) (hd : d.length < 2 ^ 63)
    (hfile : n.locate (Request.write p o d).components = some (.file item bytes)) :
    NeverSilent fuel fds s (.write p o d) := by
  refine Aloud.speaks hroom fun op input hc hready => ?_
  have hpath : 0 ∈ (Request.write p o d).path := h0
  generalize hr : Request.write p o d = r at hc hfile hpath
  cases hc with
  | op type args full =>
    cases type with
    | write =>
      obtain ⟨rfl, rfl, rfl⟩ := Request.write.inj hr
      have hfilled := (full _ (List.mem_cons_of_mem _ List.mem_cons_self)).filled
      exact fsopWrite_aloud args hready htree hroot rfl hpath
        ((Nat.one_mul _).symm.trans_le hfilled) hd hfile
    | _ => cases hr

theorem speaks_read (hroom : s.output.room = none) (htree : TreeOn g s.image live n)
    (hroot : fds.rootInode = g.root) (h0 : 0 ∈ p) (hlen : len < 2 ^ 63)
    (hm : n.locate (Request.read p o len).components = some m) : NeverSilent fuel fds s (.read p o len) := by
  refine Aloud.speaks hroom fun op input hc hready => ?_
  have hpath : 0 ∈ (Request.read p o len).path := h0
  generalize hr : Request.read p o len = r at hc hm hpath
  cases hc with
  | op type args full =>
    cases type with
    | read =>
      obtain ⟨rfl, rfl, rfl⟩ := Request.read.inj hr
      exact fsopRead_aloud args hready htree hroot rfl hpath hlen hm
    | _ => cases hr

end Aloud

/-! ## One request of a loop -/

section Round

variable {g : Geometry} {live : Finset ℕ} {n : TreeNode} {item : DirectoryItem} {fds : FsDescriptors}
  {cs : List (List UInt8)} {s d bytes : List UInt8} {c : Client} {o len : ℕ} (fuel : ℕ)
  (old : List UInt8) (a b : ℕ+)

theorem cString_sent (h : Spells s cs) : cString (s ++ [0]) = some s :=
  cString_append_zero [] h.zero_notMem

theorem largest_lt (hs : s.length + 1 < 2 ^ 63) {r : Request} (hr : r.path = s ++ [0])
    (hd : r.data.length < 2 ^ 63) : r.largest < 2 ^ 63 := by
  rw [Request.largest, hr, List.length_append]
  exact Nat.max_lt.mpr ⟨hs, hd⟩

/-- A Write of the client: the chunk is in the file behind it. -/
theorem perform_write_run (h : c.Connected) (htree : TreeOn g c.server.image live n)
    (hroot : fds.rootInode = g.root) (hs : s.length + 1 < 2 ^ 63) (hspells : Spells s cs)
    (hfile : n.locate cs = some (.file item bytes)) (ho : o ≤ bytes.length) (hd : d.length < 2 ^ 63) :
    (∃ message c', perform fuel fds old .write
        (⟨⟨s.length + 1, .block a (s ++ [0])⟩, o, d.length, .block b d⟩ : FsOpWriteArgs) c =
          .error (.die message) c' ∧ c'.Failed fuel fds message) ∨
      ∃ x c' n', perform fuel fds old .write
        (⟨⟨s.length + 1, .block a (s ++ [0])⟩, o, d.length, .block b d⟩ : FsOpWriteArgs) c = .ok x c' ∧
        c'.Connected ∧ c.SameTerminal c' ∧ TreeOn g c'.server.image live n' ∧
        n'.locate cs = some (.file item (overwrite bytes o d)) := by
  have hlt : o < wordSize := lt_wordSize (ho.trans_lt (TreeOn.length_lt htree hfile))
  have hcs : (Request.write (s ++ [0]) o d).components = cs :=
    components_of_spells (cString_sent hspells) hspells
  refine (perform_run fuel fds old h (carries_write a b s d o hs hd) ⟨hlt, largest_lt hs rfl hd⟩
    (speaks_write h.fromServer htree hroot (by simp) hd (hcs ▸ hfile))).imp_right ?_
  rintro ⟨x, p, c', hrun, -, hserved, hconnected, hsame⟩
  obtain ⟨n', htree', hfile'⟩ := hserved.overwrites htree hroot (by simp) hcs hd hfile
  exact ⟨x, c', n', hrun, hconnected, hsame, htree', hfile'⟩

/-- A Read of the client. -/
theorem perform_read_run (h : c.Connected) (htree : TreeOn g c.server.image live n)
    (hroot : fds.rootInode = g.root) (hs : s.length + 1 < 2 ^ 63) (hspells : Spells s cs)
    (hfile : n.locate cs = some (.file item bytes)) (ho : o ≤ bytes.length) (hlen : len < 2 ^ 63) :
    (∃ message c', perform fuel fds old .read
        (⟨⟨s.length + 1, .block a (s ++ [0])⟩, o, len⟩ : FsOpReadArgs) c = .error (.die message) c' ∧
        c'.Failed fuel fds message) ∨
      ∃ c', perform fuel fds old .read (⟨⟨s.length + 1, .block a (s ++ [0])⟩, o, len⟩ : FsOpReadArgs) c =
          .ok (.read ((bytes.drop o).take len)) c' ∧
        c'.Connected ∧ c.SameTerminal c' ∧ c'.server.image = c.server.image := by
  have hlt : o < wordSize := lt_wordSize (ho.trans_lt (TreeOn.length_lt htree hfile))
  have hcs : (Request.read (s ++ [0]) o len).components = cs :=
    components_of_spells (cString_sent hspells) hspells
  refine (perform_run fuel fds old h (carries_read a s o len hs)
    ⟨⟨hlt, lt_wordSize hlen⟩, largest_lt hs rfl (by simp [Request.data])⟩
    (speaks_read h.fromServer htree hroot (by simp) hlen (hcs ▸ hfile))).imp_right ?_
  rintro ⟨x, p, c', hrun, -, hserved, hconnected, hsame⟩
  obtain ⟨rfl, himage⟩ := hserved.read_located htree hroot (by simp) hcs hfile
  exact ⟨c', hrun, hconnected, hsame, himage⟩

end Round

/-! ## The loops -/

section Loops

variable {g : Geometry} {live : Finset ℕ} {item : DirectoryItem} {fds : FsDescriptors}
  {cs : List (List UInt8)} {s : List UInt8} (fuel : ℕ) (a : ℕ+)

/-- The loop of `perform_write` puts what is left of the input behind the first
`o` bytes of the file; the rounds are those of the source. -/
theorem performWriteLoop_run (hroot : fds.rootInode = g.root) (hs : s.length + 1 < 2 ^ 63)
    (hspells : Spells s cs) (b : ℕ+) {rounds : ℕ} (old : ℕ → List UInt8) {c : Client} {n : TreeNode}
    {bytes : List UInt8} {o : ℕ} (h : c.Connected) (htree : TreeOn g c.server.image live n)
    (hfile : n.locate cs = some (.file item bytes)) (ho : o ≤ bytes.length)
    (heof : c.eof = true → c.stdin = []) (hrounds : c.stdin.length + (if c.eof then 1 else 2) ≤ rounds) :
    (∃ message c', performWriteLoop fuel fds ⟨s.length + 1, .block a (s ++ [0])⟩ b rounds old o c =
        .error (.die message) c' ∧ c'.Failed fuel fds message) ∨
      ∃ c' n', performWriteLoop fuel fds ⟨s.length + 1, .block a (s ++ [0])⟩ b rounds old o c =
          .ok () c' ∧ TreeOn g c'.server.image live n' ∧
        n'.locate cs = some (.file item (overwrite bytes o c.stdin)) := by
  induction rounds generalizing c n bytes o old with
  | zero =>
    split at hrounds <;> omega
  | succ rounds ih =>
    rw [performWriteLoop, bind_of_ok (get_run c)]
    by_cases hc : c.eof = true
    · rw [if_pos hc, heof hc, overwrite_nil]
      exact .inr ⟨c, n, rfl, htree, hfile⟩
    · rw [if_neg hc] at hrounds ⊢
      have hread : fread bufSize c = .ok (c.stdin.take bufSize) { c with
          stdin := c.stdin.drop bufSize
          eof := c.eof || decide (c.stdin.length < bufSize) } := rfl
      have hchunk : (c.stdin.take bufSize).length ≤ bufSize := List.length_take_le _ _
      rw [bind_of_ok hread]
      rcases perform_write_run fuel (old 0) a b
          (c := { c with
            stdin := c.stdin.drop bufSize
            eof := c.eof || decide (c.stdin.length < bufSize) })
          ⟨h.toServer, h.fromServer, h.asked, h.answered, h.heap, h.serverHeap⟩ htree hroot hs hspells
          hfile ho (hchunk.trans_lt (by decide)) with
        ⟨message, c', hrun, hfailed⟩ | ⟨x, c', n', hrun, hconnected, hsame, htree', hfile'⟩
      · exact .inl ⟨message, c', bind_of_error hrun, hfailed⟩
      · have hlen := overwrite_length (c.stdin.take bufSize) ho
        have hlt := TreeOn.length_lt htree' hfile'
        have hadd : wadd o (c.stdin.take bufSize).length = o + (c.stdin.take bufSize).length :=
          Nat.mod_eq_of_lt (lt_wordSize (by omega))
        rw [bind_of_ok hrun, hadd]
        have ho' : o + (c.stdin.take bufSize).length ≤
            (overwrite bytes o (c.stdin.take bufSize)).length := by omega
        have hrest : c'.stdin = c.stdin.drop bufSize := hsame.stdin
        have hend : c'.eof = true ↔ c.stdin.length < bufSize := by
          rw [hsame.eof, Bool.eq_false_of_not_eq_true hc, Bool.false_or, decide_eq_true_eq]
        have hdone : c'.eof = true → c'.stdin = [] := fun he => by
          rw [hrest, List.drop_eq_nil_of_le (Nat.le_of_lt (hend.mp he))]
        have hleft : c'.stdin.length + (if c'.eof then 1 else 2) ≤ rounds := by
          rw [hrest, List.length_drop]
          by_cases he : c'.eof = true
          · rw [if_pos he]
            have hshort := hend.mp he
            omega
          · rw [if_neg he]
            have hlong := mt hend.mpr he
            have hpos : 0 < bufSize := by decide
            omega
        rcases ih (fun i => old (i + 1)) hconnected htree' hfile' ho' hdone hleft with
          hdie | ⟨c'', n'', hloop, htree'', hfile''⟩
        · exact .inl hdie
        · refine .inr ⟨c'', n'', hloop, htree'', ?_⟩
          rw [hfile'', overwrite_overwrite _ _ ho, hrest, List.take_append_drop]

/-- `perform_read` on a file. -/
theorem performRead_run (hroot : fds.rootInode = g.root) (hspells : Spells s cs)
    (old : List UInt8) {c : Client} {n : TreeNode} {bytes : List UInt8} {o : ℕ} (h : c.Connected)
    (htree : TreeOn g c.server.image live n) (hfile : n.locate cs = some (.file item bytes))
    (ho : o ≤ bytes.length) :
    (∃ message c', performRead fuel fds old s o bufSize c = .error (.die message) c' ∧
      c'.GivesUp fuel fds s message) ∨
      ∃ c', performRead fuel fds old s o bufSize c = .ok ((bytes.drop o).take bufSize) c' ∧
        c'.Connected ∧ c.SameTerminal c' ∧ c'.server.image = c.server.image := by
  rw [performRead]
  rcases clientString_cases s h.heap with ⟨c', hlong, hdie⟩ | ⟨a, hs, hstring⟩
  · exact .inl ⟨_, c', bind_of_error hdie, .inr ⟨hlong, rfl⟩⟩
  · rw [bind_of_ok hstring]
    rcases perform_read_run fuel old a h.next htree hroot hs hspells hfile ho
        (show bufSize < 2 ^ 63 by decide) with
      ⟨message, c', hrun, hfailed⟩ | ⟨c', hrun, hconnected, hsame, himage⟩
    · exact .inl ⟨message, c', bind_of_error hrun, .inl hfailed⟩
    · refine .inr ⟨c', ?_, hconnected, ⟨hsame.stdin, hsame.eof, hsame.stdout⟩, himage⟩
      rw [bind_of_ok hrun]
      change (if ((bytes.drop o).take bufSize).length ≤ bufSize then
        pure ((bytes.drop o).take bufSize) else throw .fault : CliM (List UInt8)) c' = _
      rw [if_pos (List.length_take_le _ _), pure_run]

/-- The loop of `cat` prints the file from `total` on, and it ends: every round but
the last moves `total`. -/
theorem catLoop_run (hroot : fds.rootInode = g.root) (hspells : Spells s cs) {rounds : ℕ}
    (old : ℕ → List UInt8) {c : Client} {n : TreeNode} {bytes : List UInt8} {total : ℕ}
    (h : c.Connected) (htree : TreeOn g c.server.image live n)
    (hfile : n.locate cs = some (.file item bytes)) (htotal : total ≤ bytes.length)
    (hrounds : bytes.length - total < rounds) :
    (∃ message c', catLoop fuel fds s rounds old total c = .error (.die message) c' ∧
      c'.GivesUp fuel fds s message) ∨
      ∃ c', catLoop fuel fds s rounds old total c = .ok () c' ∧
        c'.stdout = c.stdout ++ bytes.drop total := by
  induction rounds generalizing c total old with
  | zero => omega
  | succ rounds ih =>
    rw [catLoop]
    rcases performRead_run fuel hroot hspells (old 0) h htree hfile htotal with
      ⟨message, c', hrun, hgives⟩ | ⟨c', hrun, hconnected, hsame, himage⟩
    · exact .inl ⟨message, c', bind_of_error hrun, hgives⟩
    · rw [bind_of_ok hrun]
      have hlen : ((bytes.drop total).take bufSize).length = min bufSize (bytes.length - total) := by
        rw [List.length_take, List.length_drop]
      by_cases hend : (bytes.drop total).take bufSize = []
      · -- the server answers with nothing only at the end of the file
        have hnone : bytes.drop total = [] := (List.take_eq_nil_iff.mp hend).resolve_left (by decide)
        rw [if_pos hend]
        exact .inr ⟨c', rfl, by rw [hsame.stdout, hnone, List.append_nil]⟩
      · have hpos := List.length_pos_iff.mpr hend
        have hlt := TreeOn.length_lt htree hfile
        have hadd : wadd total ((bytes.drop total).take bufSize).length =
            total + ((bytes.drop total).take bufSize).length :=
          Nat.mod_eq_of_lt (lt_wordSize (by omega))
        have hprint : fwrite ((bytes.drop total).take bufSize) c' = .ok () { c' with
            stdout := c'.stdout ++ (bytes.drop total).take bufSize } := rfl
        rw [if_neg hend, bind_of_ok hprint, hadd]
        refine (ih (fun i => old (i + 1)) (c := { c' with
            stdout := c'.stdout ++ (bytes.drop total).take bufSize })
          ⟨hconnected.toServer, hconnected.fromServer, hconnected.asked, hconnected.answered,
            hconnected.heap, hconnected.serverHeap⟩ (himage ▸ htree) (by omega) (by omega)).imp_right ?_
        rintro ⟨c'', hloop, hout⟩
        refine ⟨c'', hloop, ?_⟩
        rw [hout, hsame.stdout, List.append_assoc, ← List.drop_drop,
          List.prefix_iff_eq_append.mp (List.take_prefix _ _)]

end Loops

section Commands

variable {g : Geometry} {live : Finset ℕ} {n : TreeNode} {item : DirectoryItem} {fds : FsDescriptors}
  {cs : List (List UInt8)} {s bytes : List UInt8} {c : Client} {o : ℕ}

theorem performWrite_run (fuel : ℕ) (old : ℕ → List UInt8) (h : c.Connected)
    (htree : TreeOn g c.server.image live n) (hroot : fds.rootInode = g.root) (hspells : Spells s cs)
    (hfile : n.locate cs = some (.file item bytes)) (ho : o ≤ bytes.length) (heof : c.eof = false) :
    (∃ message c', performWrite fuel fds old s o c = .error (.die message) c' ∧
      c'.GivesUp fuel fds s message) ∨
      ∃ c' n', performWrite fuel fds old s o c = .ok () c' ∧ TreeOn g c'.server.image live n' ∧
        n'.locate cs = some (.file item (overwrite bytes o c.stdin)) := by
  rw [performWrite]
  rcases clientString_cases s h.heap with ⟨c', hlong, hdie⟩ | ⟨a, hs, hstring⟩
  · exact .inl ⟨_, c', bind_of_error hdie, .inr ⟨hlong, rfl⟩⟩
  · obtain ⟨b, hbuffer⟩ := clientMalloc_run h.next (show bufSize < 2 ^ 63 by decide)
    rw [bind_of_ok hstring, bind_of_ok hbuffer]
    have hrounds : c.stdin.length + (if c.eof then 1 else 2) ≤ c.stdin.length + 2 := by
      split <;> omega
    rcases performWriteLoop_run fuel a hroot hs hspells b old h.next.next htree hfile ho
        (fun he => by cases heof.symm.trans he) hrounds with ⟨message, c', hrun, hfailed⟩ | hdone
    · exact .inl ⟨message, c', hrun, .inl hfailed⟩
    · exact .inr hdone

theorem cat_run (fuel : ℕ) (old : ℕ → List UInt8) {rounds : ℕ} (h : c.Connected)
    (htree : TreeOn g c.server.image live n) (hroot : fds.rootInode = g.root) (hspells : Spells s cs)
    (hfile : n.locate cs = some (.file item bytes)) (hrounds : bytes.length < rounds) :
    (∃ message c', cat fuel fds old s rounds c = .error (.die message) c' ∧
      c'.GivesUp fuel fds s message) ∨
      ∃ c', cat fuel fds old s rounds c = .ok () c' ∧ c'.stdout = c.stdout ++ bytes := by
  obtain ⟨b, hbuffer⟩ := clientMalloc_run h (show bufSize < 2 ^ 63 by decide)
  rw [cat, bind_of_ok hbuffer]
  exact catLoop_run fuel hroot hspells old h.next htree hfile (Nat.zero_le _) hrounds

/-- `write` and then `cat` over another connection: unless a request fails, the
input is in the file from the offset on, and `cat` prints the whole file. -/
theorem write_cat (fuel fuel' : ℕ) (old old' : ℕ → List UInt8) (h : c.Connected)
    (htree : TreeOn g c.server.image live n) (hroot : fds.rootInode = g.root) (hspells : Spells s cs)
    (hfile : n.locate cs = some (.file item bytes)) (ho : o ≤ bytes.length) (heof : c.eof = false) :
    (∃ message c', performWrite fuel fds old s o c = .error (.die message) c' ∧
      c'.GivesUp fuel fds s message) ∨
      ∃ c', performWrite fuel fds old s o c = .ok () c' ∧
        ∀ (r : Client) (rounds : ℕ), r.Connected → r.server.image = c'.server.image →
          bytes.length + c.stdin.length < rounds →
          (∃ message r', cat fuel' fds old' s rounds r = .error (.die message) r' ∧
            r'.GivesUp fuel' fds s message) ∨
            ∃ r', cat fuel' fds old' s rounds r = .ok () r' ∧ r'.stdout =
              r.stdout ++ (bytes.take o ++ c.stdin ++ bytes.drop (o + c.stdin.length)) := by
  rcases performWrite_run fuel old h htree hroot hspells hfile ho heof with
    hdie | ⟨c', n', hwrite, htree', hfile'⟩
  · exact .inl hdie
  · refine .inr ⟨c', hwrite, fun r rounds hr himage hrounds => ?_⟩
    have hlen := overwrite_length c.stdin ho
    have hmore : (overwrite bytes o c.stdin).length < rounds := by omega
    exact cat_run fuel' old' hr (himage ▸ htree') hroot hspells hfile' hmore

end Commands

/-- A client with an input, connected to a thread on the image. -/
def clientOn (img : Image) (stdin : List UInt8) : Client :=
  ⟨stdin, false, [], byteSink, byteByByte [], threadOn img⟩

theorem clientOn_connected (img : Image) (stdin : List UInt8) : (clientOn img stdin).Connected :=
  ⟨rfl, rfl, rfl, rfl, byteByByte_grants [] (by omega), byteByByte_grants [] (by omega)⟩

/-- The image behind a `write` to `/a`. -/
def imageWritten (img : Image) (offset : ℕ) (stdin : List UInt8) : Image :=
  (finalState (performWrite 4 ⟨1⟩ (fun _ => []) [47, 97] offset (clientOn img stdin))).server.image

theorem imageWritten_of {img : Image} {offset : ℕ} {stdin : List UInt8} {c : Client}
    (h : performWrite 4 ⟨1⟩ (fun _ => []) [47, 97] offset (clientOn img stdin) = .ok () c) :
    imageWritten img offset stdin = c.server.image := by
  rw [imageWritten, h, finalState_ok]

def writeHello : NetFsOperation :=
  .op .write (⟨⟨3, blockAt8 [47, 97, 0]⟩, 0, 5, blockAt16 [104, 101, 108, 108, 111]⟩ : FsOpWriteArgs)

/-- A volume with one file, in which stands `hello`. -/
def helloImage : Image := imageAfter (imageAfter freshImage createA) writeHello

theorem helloImage_treeOn : ∃ g live n item, TreeOn g helloImage live n ∧ 1 = g.root ∧
    n.locate [[97]] = some (.file item [104, 101, 108, 108, 111]) := by
  have hwrite : writeHello.Carries (.write [47, 97, 0] 0 [104, 101, 108, 108, 111]) := .op .write _
    (List.forall_mem_cons.mpr ⟨⟨by decide, Nat.le_refl 3⟩,
      List.forall_mem_singleton.mpr ⟨by decide, Nat.le_refl 5⟩⟩)
  obtain ⟨x, hx⟩ := served_thread freshImage createA_carries (by decide +kernel)
  obtain ⟨y, hy⟩ := served_thread (imageAfter freshImage createA) hwrite (by decide +kernel)
  obtain ⟨t, hexplains, live, n, htree, -, ht⟩ :=
    (Serves.cons ⟨by decide, Or.inl rfl⟩ hx (.cons ⟨by decide, by simp⟩ hy
      (.nil _))).explained (refines_formatted freshImage_formatted) rfl
  cases hexplains with
  | cons next answer agrees rest =>
    obtain rfl := Option.some.inj (next.symm.trans
      (show _ = some (.dir () (.file [97] () [] .nil)) by decide +kernel))
    cases rest with
    | cons next answer agrees rest =>
      obtain rfl := Option.some.inj (next.symm.trans
        (show _ = some (.dir () (.file [97] () [104, 101, 108, 108, 111] .nil)) by decide +kernel))
      cases rest with
      | nil =>
        have hlocate : (n.locate [[97]]).map (Node.relabel fun _ => ()) =
            some (.file () [104, 101, 108, 108, 111]) := by
          rw [← Node.relabel_locate, ht]
          rfl
        obtain ⟨m, hm, hmap⟩ := Option.map_eq_some_iff.mp hlocate
        obtain ⟨item, rfl⟩ := Refines.eq_file (congrArg some hmap)
        exact ⟨treeVolume, live, n, item, htree, rfl, hm⟩

/-- Three bytes in the middle of `hello` make it `hippo`. -/
theorem write_cat_file : ∃ c r,
    performWrite 4 ⟨1⟩ (fun _ => []) [47, 97] 1 (clientOn helloImage [105, 112, 112]) = .ok () c ∧
    cat 4 ⟨1⟩ (fun _ => []) [47, 97] 9 (clientOn c.server.image []) = .ok () r ∧
    r.stdout = [104, 105, 112, 112, 111] := by
  have hwrite : returned (performWrite 4 ⟨1⟩ (fun _ => []) [47, 97] 1
      (clientOn helloImage [105, 112, 112])) = true := by decide +kernel
  have hcat : returned (cat 4 ⟨1⟩ (fun _ => []) [47, 97] 9
      (clientOn (imageWritten helloImage 1 [105, 112, 112]) [])) = true := by
    decide +kernel
  obtain ⟨g, live, n, item, htree, hroot, hfile⟩ := helloImage_treeOn
  have hspells : Spells [47, 97] [[97]] :=
    ⟨List.forall_mem_singleton.mpr ⟨by decide, by decide, by decide⟩, .inl ⟨rfl, by decide⟩⟩
  generalize helloImage = img at htree hwrite hcat ⊢
  rcases write_cat (c := clientOn img [105, 112, 112]) 4 4 (fun _ => []) (fun _ => [])
      (clientOn_connected img _) htree hroot hspells hfile (show 1 ≤ 5 by decide) rfl with
    ⟨message, c', hdie, -⟩ | ⟨c', hrun, hprints⟩
  · rw [hdie] at hwrite
    cases hwrite
  · rw [imageWritten_of hrun] at hcat
    rcases hprints (clientOn c'.server.image []) 9 (clientOn_connected _ _) rfl (show 5 + 3 < 9 by decide) with
      ⟨message, r', hdie, -⟩ | ⟨r', hcatrun, hout⟩
    · rw [hdie] at hcat
      cases hcat
    · exact ⟨c', r', hrun, hcatrun, hout⟩

end KisLinux.Net
