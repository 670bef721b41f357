import KisLinux.NetCommands
import KisLinux.NetVerdict
import KisLinux.Numerals

/-!
# The client program

`main` of `main_cli.c`, from the command line to the last byte that is printed. Name
service and `connect` are a parameter. What a run comes to is then told by the tree
of files alone, and so is a session of commands, each over a connection of its own.
-/
namespace KisLinux.Net
open ByteMemory StateRun ShortTransfer NameTree Numerals Fs

/-! ## The address of the server -/

/-- What `gethostbyname` and `connect` come to. -/
inductive Dial
  | up
  /-- A call that fails, with the text of its `errno`. -/
  | failed (text : List UInt8)
  /-- `gethostbyname` returns `NULL`. -/
  | unknownHost

/-- What a client process finds around it. -/
structure Environment where
  /-- The server of a host behind a port. -/
  dial : List UInt8 → ℕ → Dial
  /-- What the stack holds where a scanned number should be stored. -/
  stackPort : ℕ
  stackOffset : ℕ
  stackOffset_lt : stackOffset < wordSize

/-- `':'`. -/
def colon : UInt8 := 58

def invalidAddress : List UInt8 := messageBytes "Invalid address"

/-- `strerror(ERANGE)`. -/
def outOfRange : String := "Numerical result out of range"

/-- The number fits a `long`. -/
def fitsLong (negative : Bool) (magnitude : ℕ) : Bool :=
  magnitude < 2 ^ 63 || (negative && magnitude = 2 ^ 63)

/-- `htons` takes the low 16 bits. -/
def portNumber (negative : Bool) (magnitude : ℕ) : ℕ :=
  ((if negative then -(magnitude : ℤ) else magnitude) % 65536).toNat

/-- `split_address`. The conversion `%d` is one to `long`, and what it leaves in `errno`
is what the allocation behind it is blamed for. -/
def splitAddress (env : Environment) (addr : List UInt8) : CliM (List UInt8 × ℕ) := do
  let host := addr.takeWhile (· ≠ colon)
  let port := scan (addr.drop (host.length + 1))
  if colon ∉ addr ∨ port = .mismatch then throw (.die invalidAddress)
  else do
    let address ← clientMalloc (host.length + 1)
    match address, port with
    | none, _ => throw (.die (reported .memory))
    | some _, .number negative magnitude =>
      if fitsLong negative magnitude then pure (host, portNumber negative magnitude)
      else throw (.die (messageBytes (FsError.memory.text ++ ": " ++ outOfRange)))
    | some _, _ => pure (host, env.stackPort)

/-- `initialize_client`; the connection itself is part of the state. -/
def initializeClient (env : Environment) (address : List UInt8) : CliM Unit := do
  let (host, port) ← splitAddress env address
  match env.dial host port with
  | .up => pure ()
  | .failed text => throw (.die (messageBytes "Socket error: " ++ text))
  | .unknownHost => throw .fault

/-! ## Commands -/

/-- The commands with their arguments. -/
inductive Command
  | mkfile (path : List UInt8)
  | mkdir (path : List UInt8)
  | ls (path : List UInt8)
  | cat (path : List UInt8)
  | write (path : List UInt8)
  | writeAt (path offset : List UInt8)
  | rm (path : List UInt8)
  | stat (path : List UInt8)
  deriving DecidableEq, Repr

/-- `tolower` in the C locale. -/
def toLower (c : UInt8) : UInt8 := if 65 ≤ c ∧ c ≤ 90 then c + 32 else c

/-- `strcasecmp`. -/
def sameCase (name : String) (s : List UInt8) : Bool := (messageBytes name).map toLower = s.map toLower

/-- The chain of `CMD`s: the address of the server and the command. -/
def Command.ofArgs : List (List UInt8) → Option (List UInt8 × Command)
  | [_, address, name, path] =>
    if sameCase "mkfile" name then some (address, .mkfile path)
    else if sameCase "mkdir" name then some (address, .mkdir path)
    else if sameCase "ls" name then some (address, .ls path)
    else if sameCase "cat" name then some (address, .cat path)
    else if sameCase "write" name then some (address, .write path)
    else if sameCase "rm" name then some (address, .rm path)
    else if sameCase "stat" name then some (address, .stat path)
    else none
  | [_, address, name, path, offset] =>
    if sameCase "write" name then some (address, .writeAt path offset) else none
  | _ => none

/-- `HELP_STRING`, with the blanks that the preprocessor leaves. -/
def helpString : String :=
  "Usage: ./rfs <address> <command> <arguments> \n\nCommands with arguments: \n init <size> \n " ++
  "ls <path> \n cat <path> \n stat <path> \n mkdir <path> \n mkfile <path> \n " ++
  "write <path> [offset] \n rm <path> \n"

/-- The offset of `write`, scanned with `%llu`. -/
def scanOffset (env : Environment) (s : List UInt8) : Except (List UInt8) ℕ :=
  match scan s with
  | .mismatch => .error (messageBytes "Invalid argument")
  | .eof => .ok env.stackOffset
  | .number negative magnitude =>
    if wordSize ≤ magnitude then .error (messageBytes ("Internal error: " ++ outOfRange))
    else .ok (if negative then wsub 0 magnitude else magnitude)

/-- `make_item`. -/
def makeItem (fuel : ℕ) (fds : FsDescriptors) (old : List UInt8) (path : List UInt8)
    (flags : UInt8) : CliM Unit := do
  let str ← clientString path
  let _ ← perform fuel fds old .create (⟨str, flags⟩ : FsOpCreateArgs)
  pure ()

/-- A line of `ls`. -/
def itemLine (inode : ℕ) (name : List UInt8) : List UInt8 := decimal inode ++ [32] ++ name ++ [10]

/-- The items are printed from one block of the heap, and a name goes on up to its NUL. -/
def printItems : List DirectoryItem → CliM Unit
  | [] => pure ()
  | item :: rest =>
    match cString ((encodeItems (item :: rest)).drop 8) with
    | none => throw .fault
    | some name => do
      fwrite (itemLine item.inode name)
      printItems rest

/-- What `stat` prints. -/
def statText (size : ℕ) (blocks : List ℕ) : List UInt8 :=
  decimal size ++ messageBytes " bytes, " ++ decimal blocks.length ++ messageBytes " blocks\n" ++
    blocks.flatMap (fun b => decimal b ++ [32]) ++ [10]

/-- `response.blocks`, number by number. -/
def blockNumbers (count : ℕ) (blocks : List UInt8) : List ℕ :=
  (List.range count).map fun i => leNat ((blocks.drop (8 * i)).take 8)

/-- The body of a command. -/
def Command.execute (env : Environment) (fuel : ℕ) (fds : FsDescriptors) (old : ℕ → List UInt8)
    (rounds : ℕ) (address : List UInt8) : Command → CliM Unit
  | .mkfile path => do
    initializeClient env address
    makeItem fuel fds (old 0) path flgFile
  | .mkdir path => do
    initializeClient env address
    makeItem fuel fds (old 0) path flgDirectory
  | .ls path => do
    let str ← clientString path
    initializeClient env address
    let x ← perform fuel fds (old 0) .readDir (⟨str⟩ : FsOpPathArgs)
    match x with
    | .readDir items => printItems items
    | _ => throw .fault
  | .cat path => do
    initializeClient env address
    Net.cat fuel fds old path rounds
  | .write path => do
    initializeClient env address
    performWrite fuel fds old path 0
  | .writeAt path offset => do
    match scanOffset env offset with
    | .error message => throw (.die message)
    | .ok offset => do
      initializeClient env address
      performWrite fuel fds old path offset
  | .rm path => do
    let str ← clientString path
    initializeClient env address
    let _ ← perform fuel fds (old 0) .remove (⟨str⟩ : FsOpPathArgs)
    pure ()
  | .stat path => do
    let str ← clientString path
    initializeClient env address
    let x ← perform fuel fds (old 0) .stat (⟨str⟩ : FsOpPathArgs)
    match x with
    | .stat size count blocks => fwrite (statText size (blockNumbers count blocks))
    | _ => throw .fault

/-- `main`; `rounds` bounds the loop of `cat`. -/
def main (env : Environment) (fuel : ℕ) (fds : FsDescriptors) (old : ℕ → List UInt8) (rounds : ℕ)
    (argv : List (List UInt8)) : CliM Unit :=
  match Command.ofArgs argv with
  | none => fwrite (messageBytes helpString ++ [10])
  | some (address, command) => command.execute env fuel fds old rounds address

/-! ## A command, seen by the tree -/

/-- The number that a command writes from, unless there is a complaint about it. -/
def Command.offset (env : Environment) : Command → Except (List UInt8) ℕ
  | .writeAt _ offset => scanOffset env offset
  | _ => .ok 0

def Command.path : Command → List UInt8
  | .mkfile path | .mkdir path | .ls path | .cat path | .write path | .writeAt path _ | .rm path
  | .stat path => path

/-- The first request of a command. -/
def Command.request (stdin : List UInt8) (o : ℕ) : Command → Request
  | .mkfile path => .create (path ++ [0]) flgFile
  | .mkdir path => .create (path ++ [0]) flgDirectory
  | .ls path => .readDir (path ++ [0])
  | .cat path => .read (path ++ [0]) 0 bufSize
  | .write path | .writeAt path _ => .write (path ++ [0]) o (stdin.take bufSize)
  | .rm path => .remove (path ++ [0])
  | .stat path => .stat (path ++ [0])

/-- All that a command asks the server for, as if it were one request. -/
def Command.whole (stdin : List UInt8) (o : ℕ) : Command → Request
  | .write path | .writeAt path _ => .write (path ++ [0]) o stdin
  | command => command.request stdin o

/-- What a process ends with that does not reach its server. -/
def Dial.stop : Dial → Option ClientStop
  | .up => none
  | .failed text => some (.die (messageBytes "Socket error: " ++ text))
  | .unknownHost => some .fault

/-- What the process ends with before it asks the server for anything. -/
def Environment.reach (env : Environment) (addr : List UInt8) : Option ClientStop :=
  let host := addr.takeWhile (· ≠ colon)
  if colon ∉ addr then some (.die invalidAddress)
  else
    match scan (addr.drop (host.length + 1)) with
    | .mismatch => some (.die invalidAddress)
    | .eof => (env.dial host env.stackPort).stop
    | .number negative magnitude =>
      if fitsLong negative magnitude then (env.dial host (portNumber negative magnitude)).stop
      else some (.die (messageBytes (FsError.memory.text ++ ": " ++ outOfRange)))

/-- What a command prints that is done on the tree, and the tree behind it. The numbers
of nodes and blocks and the bytes of a directory are left open. -/
inductive FileTree.Shows (g : Geometry) (t : FileTree) (stdin : List UInt8) (o : ℕ) :
    Command → List UInt8 → FileTree → Prop
  | mkfile {path : List UInt8} {t' : FileTree} (next : t.next (.create (path ++ [0]) flgFile) = some t') :
      Shows g t stdin o (.mkfile path) [] t'
  | mkdir {path : List UInt8} {t' : FileTree}
      (next : t.next (.create (path ++ [0]) flgDirectory) = some t') :
      Shows g t stdin o (.mkdir path) [] t'
  | ls {path : List UInt8} {sub : Entries (List UInt8) Unit (List UInt8)} {inodes : List ℕ}
      (located : t.locate (Request.readDir (path ++ [0])).components = some (.dir () sub))
      (length_eq : inodes.length = sub.names.length) :
      Shows g t stdin o (.ls path) (List.zipWith itemLine inodes sub.names).flatten t
  | cat {path : List UInt8} {k : FileTree} {out : List UInt8}
      (located : t.locate (Request.read (path ++ [0]) 0 bufSize).components = some k)
      (length_eq : out.length = k.extent) (file : ∀ bytes, k = .file () bytes → out = bytes) :
      Shows g t stdin o (.cat path) out t
  | write {path bytes : List UInt8}
      (located : t.locate (Request.write (path ++ [0]) o stdin).components = some (.file () bytes))
      (offset_le : o ≤ bytes.length ∨ stdin = []) :
      Shows g t stdin o (.write path) []
        (t.update (Node.mapData fun bytes => overwrite bytes o stdin)
          (Request.write (path ++ [0]) o stdin).components)
  | writeAt {path offset bytes : List UInt8}
      (located : t.locate (Request.write (path ++ [0]) o stdin).components = some (.file () bytes))
      (offset_le : o ≤ bytes.length ∨ stdin = []) :
      Shows g t stdin o (.writeAt path offset) []
        (t.update (Node.mapData fun bytes => overwrite bytes o stdin)
          (Request.write (path ++ [0]) o stdin).components)
  | stat {path : List UInt8} {k : FileTree} {blocks : List ℕ}
      (located : t.locate (Request.stat (path ++ [0])).components = some k)
      (count_eq : blocks.length = g.blocksRequired k.extent) :
      Shows g t stdin o (.stat path) (statText k.extent blocks) t

/-- What the body of a command comes to on the volume `img`, once it has reached the
server. Nothing is said about a command that overruns its components: what the server
reads there is not defined. -/
inductive Comes (g : Geometry) (fds : FsDescriptors) (img : Image) (t : FileTree) (command : Command)
    (o : ℕ) (c : Client) : EStateM.Result ClientStop Client Unit → Option FileTree → Prop
  | shown {c' : Client} {out : List UInt8} {t' : FileTree}
      (accepted : t.refusal (command.request c.stdin o) = none)
      (shows : t.Shows g c.stdin o command out t') (printed : c'.stdout = c.stdout ++ out)
      (refines : Refines g c'.server.image t')
      (spends : Spends g img c'.server.image (t.takes g (command.whole c.stdin o))) :
      Comes g fds img t command o c (.ok () c') (some t')
  | refused {c' : Client} {e : FsError}
      (declines : Declines g fds img t (command.request c.stdin o) e) (spoken : e ≠ .memory)
      (printed : c'.stdout = c.stdout) (kept : Refines g c'.server.image t)
      (spends : Spends g img c'.server.image (t.takes g (command.request c.stdin o))) :
      Comes g fds img t command o c (.error (.die (reported e ++ [0])) c') (some t)
  | noRoom {c' : Client} {e : FsError} (full : e.NoRoom)
      (short : freeCount g img < t.takes g (command.whole c.stdin o)) :
      Comes g fds img t command o c (.error (.die (reported e ++ [0])) c') none
  | overruns {x : EStateM.Result ClientStop Client Unit}
      (overruns : t.Overruns (command.request c.stdin o)) : Comes g fds img t command o c x none

/-- What a run of the program comes to on the volume `img`, and the tree behind it
unless it is lost. -/
inductive Ran (env : Environment) (g : Geometry) (fds : FsDescriptors) (img : Image) (t : FileTree)
    (argv : List (List UInt8)) (c : Client) :
    EStateM.Result ClientStop Client Unit → Option FileTree → Prop
  | help {c' : Client} (args : Command.ofArgs argv = none)
      (printed : c'.stdout = c.stdout ++ (messageBytes helpString ++ [10]))
      (kept : c'.server.image = img) : Ran env g fds img t argv c (.ok () c') (some t)
  | badOffset {address message : List UInt8} {command : Command} {c' : Client}
      (args : Command.ofArgs argv = some (address, command))
      (offset : command.offset env = .error message) (printed : c'.stdout = c.stdout)
      (kept : c'.server.image = img) : Ran env g fds img t argv c (.error (.die message) c') (some t)
  | unreached {address : List UInt8} {command : Command} {o : ℕ} {stop : ClientStop} {c' : Client}
      (args : Command.ofArgs argv = some (address, command)) (offset : command.offset env = .ok o)
      (reach : env.reach address = some stop) (printed : c'.stdout = c.stdout)
      (kept : c'.server.image = img) : Ran env g fds img t argv c (.error stop c') (some t)
  | asked {address : List UInt8} {command : Command} {o : ℕ}
      {x : EStateM.Result ClientStop Client Unit} {t' : Option FileTree}
      (args : Command.ofArgs argv = some (address, command)) (offset : command.offset env = .ok o)
      (reach : env.reach address = none) (comes : Comes g fds img t command o c x t') :
      Ran env g fds img t argv c x t'

/-! ## One request -/

/-- What a request of the client comes to on a volume of the tree. -/
inductive Performed (g : Geometry) (fds : FsDescriptors) (t : FileTree) (r : Request) (c : Client) :
    EStateM.Result ClientStop Client Received → Prop
  | done {x : Received} {c' : Client} {t' : FileTree} {p : List UInt8} (payload : Payload r.type x p)
      (accepted : t.refusal r = none) (allows : t.Allows g r x t')
      (refines : Refines g c'.server.image t')
      (spends : Spends g c.server.image c'.server.image (t.takes g r)) (connected : c'.Connected)
      (same : c.SameTerminal c') : Performed g fds t r c (.ok x c')
  | refused {e : FsError} {c' : Client} (declines : Declines g fds c.server.image t r e)
      (spoken : e ≠ .memory) (kept : Refines g c'.server.image t)
      (spends : Spends g c.server.image c'.server.image (t.takes g r)) (same : c.SameTerminal c') :
      Performed g fds t r c (.error (.die (reported e ++ [0])) c')
  | noRoom {e : FsError} {c' : Client} (full : e.NoRoom)
      (short : freeCount g c.server.image < t.takes g r) :
      Performed g fds t r c (.error (.die (reported e ++ [0])) c')
  | overruns {x : EStateM.Result ClientStop Client Received} (overruns : t.Overruns r) :
      Performed g fds t r c x

section Perform

variable {c : Client} {type : FsOpType} {args : type.Args} {r : Request} {g : Geometry} {t : FileTree}
  {fds : FsDescriptors}

theorem perform_settled (fuel : ℕ) (old : List UInt8) (h : c.Connected)
    (hc : NetFsOperation.Carries (.op type args) r) (hfits : r.Fits ∧ r.largest < 2 ^ 63) (hr : r.Plain)
    (hshort : ∀ path offset length, r = .read path offset length → length < 2 ^ 63)
    (ht : Refines g c.server.image t) (hroot : fds.rootInode = g.root) :
    Performed g fds t r c (perform fuel fds old type args c) := by
  obtain ⟨out, hwrite, haccepted, hroom⟩ := slzNetFsOperationWrite_run hc h.toServer
  have htype : r.type = type := by
    cases hc with
    | op _ _ full => exact FsOpType.request_type type args
  -- the request is on its way
  obtain ⟨c₁, hsend, hup, hserver, hclient, hterminal⟩ : ∃ c₁ : Client,
      sendOperation (.op type args) c = .ok true c₁ ∧ c₁.toServer.room = none ∧
      c₁.server = { c.server with input := c.server.input.deliver c.toServer out } ∧
      c₁.fromServer = c.fromServer ∧ c.SameTerminal c₁ :=
    ⟨{ c with
        toServer := out
        server := { c.server with input := c.server.input.deliver c.toServer out } },
      by rw [sendOperation, hwrite], hroom, rfl, rfl, ⟨rfl, rfl, rfl⟩⟩
  have hpending : c₁.server.input.source.pending =
      NetFsOperation.wire (.op type args) ++ [] := by
    rw [hserver, List.append_nil]
    exact Input.deliver_pending h.asked haccepted
  have hgrants : c₁.server.input.heap.Grants (2 ^ 63 - 1) := by
    rw [hserver]
    exact h.serverHeap
  have hdown : c₁.server.output.room = none := by
    rw [hserver]
    exact h.fromServer
  have himage : c₁.server.image = c.server.image := by rw [hserver]
  have hheap : c₁.fromServer.heap.Grants (2 ^ 63 - 1) := by
    rw [hclient]
    exact h.heap
  have hanswered : c₁.fromServer.source.pending = [] := by
    rw [hclient]
    exact h.answered
  obtain ⟨op, input, hread, hop, hrest, hgrants'⟩ :=
    slzNetFsOperationRead_run hc hfits.1 hpending hgrants (Nat.le_sub_one_of_lt hfits.2) old
  have hsettled := dispatch_settled (s := { c₁.server with input := input }) fuel hop hr hdown hgrants'
    (himage ▸ ht) hroot
  have hnext : serveNextOperation fuel fds old c₁.server =
      (dispatch fuel fds op >>= fun _ => pure true) { c₁.server with input := input } := by
    rw [serveNextOperation, bind_of_ok (onInput_of_ok hread), if_pos rfl]
  have hperform : perform fuel fds old type args c =
      (serverTurn fuel fds old >>= fun _ => receiveAnswer old r.type >>= orDie) c₁ := by
    rw [perform, bind_of_ok hsend, if_neg Bool.noConfusion, htype]
  rw [hperform]
  cases hres : dispatch fuel fds op { c₁.server with input := input } with
  | ok u s' =>
    rw [hres] at hsettled
    rw [bind_of_ok hres, pure_run] at hnext
    rw [bind_of_ok (serverTurn_of fuel fds (by rw [hnext]; rfl)), hnext, finalState_ok]
    cases hsettled with
    | @done _ y w t' reply sent ready source accepted allows refines spends =>
      have hcame : (c₁.turned s').fromServer.source.pending = w ++ [] := by
        rw [List.append_nil]
        exact Input.deliver_pending hanswered sent
      obtain ⟨input', hreceive, hleft, hheap'⟩ := receive_run old reply hcame hheap
      obtain ⟨a, p, hp, -⟩ := reply
      rw [bind_of_ok (receiveAnswer_of old hreceive), hp.orDie, pure_run]
      exact .done hp accepted allows refines (himage ▸ spends)
        ⟨hup, ready.room, source.symm ▸ hrest, hleft, hheap', ready.grants⟩
        ⟨hterminal.stdin, hterminal.eof, hterminal.stdout⟩
  | error stop s' =>
    rw [hres] at hsettled
    rw [bind_of_error hres] at hnext
    have hrefusal : ∀ {e : FsError} {w : List UInt8}, stop = .die e → e ≠ .memory →
        Refusal (reported e) w → s'.output.accepted = c₁.server.output.accepted ++ w →
        ∃ c', (serverTurn fuel fds old >>= fun _ => receiveAnswer old r.type >>= orDie) c₁ =
          .error (.die (reported e ++ [0])) c' ∧ c'.server = s' ∧ c.SameTerminal c' := by
      rintro e w rfl spoken refusal sent
      have hturn : serverTurn fuel fds old c₁ = .ok () (c₁.turned s') := by
        rw [serverTurn_of fuel fds (by rw [hnext]; exact decide_eq_false spoken), hnext,
          finalState_error]
      have hcame : (c₁.turned s').fromServer.source.pending = w ++ [] := by
        rw [List.append_nil]
        exact Input.deliver_pending hanswered sent
      obtain ⟨input', hreceive, -⟩ := receive_refused old refusal r.type hcame hheap
      exact ⟨_, (bind_of_ok hturn).trans (bind_of_ok (receiveAnswer_of old hreceive)), rfl,
        ⟨hterminal.stdin, hterminal.eof, hterminal.stdout⟩⟩
    cases hsettled with
    | refused refusal sent spoken declines kept spends =>
      obtain ⟨c', hrun, rfl, hsame⟩ := hrefusal rfl spoken refusal sent
      rw [hrun]
      exact .refused (himage ▸ declines) spoken kept (himage ▸ spends) hsame
    | silent sent refusal kept spends => exact absurd refusal (refusal_ne_memory hshort)
    | noRoom refusal sent full short =>
      obtain ⟨c', hrun, -⟩ := hrefusal rfl (noRoom_ne_memory full) refusal sent
      rw [hrun]
      exact .noRoom full (himage ▸ short)
    | overruns hover => exact .overruns hover

end Perform

/-! ## Commands of one request -/

section Requests

variable {g : Geometry} {t : FileTree} {fds : FsDescriptors} {c : Client} {r : Request}
  {path : List UInt8} {o : ℕ} {command : Command}

theorem names_ok {cs : List (List UInt8)} (h : r.names = .ok cs) : cs = r.components := by
  rw [Request.names] at h
  split at h
  · cases h
  · exact (Except.ok.inj h).symm

/-- A request without a refusal leads to a node, which has no objection. -/
theorem accepted_located (h : t.refusal r = none) : ∃ k, r.names = .ok r.components ∧
    t.locate (r.way r.components) = some k ∧ FileTree.objection k r = none := by
  rw [FileTree.refusal] at h
  cases hnames : r.names with
  | error e =>
    rw [hnames] at h
    cases h
  | ok cs =>
    obtain rfl := names_ok hnames
    simp only [hnames] at h
    cases hwalk : t.walk (r.way r.components) with
    | error miss =>
      rw [hwalk] at h
      cases h
    | ok k =>
      rw [hwalk] at h
      exact ⟨k, rfl, Node.walk_eq_ok.mp hwalk, h⟩

theorem refusal_located {k : FileTree} (hnames : r.names = .ok r.components)
    (hk : t.locate (r.way r.components) = some k) : t.refusal r = FileTree.objection k r := by
  rw [FileTree.refusal, hnames]
  simp only [Node.walk_eq_ok.mpr hk]

theorem carries_create (a : ℕ+) (flags : UInt8) (hs : path.length + 1 < 2 ^ 63) :
    NetFsOperation.Carries
      (.op .create (⟨⟨path.length + 1, .block a (path ++ [0])⟩, flags⟩ : FsOpCreateArgs))
      (.create (path ++ [0]) flags) := by
  have hr : FsOpType.request .create
      (⟨⟨path.length + 1, .block a (path ++ [0])⟩, flags⟩ : FsOpCreateArgs) =
      .create (path ++ [0]) flags := by
    change Request.create (NetString.chars _) flags = _
    rw [sent_chars]
  exact hr ▸ .op .create _
    (List.forall_mem_singleton.mpr ⟨(sent_full path hs).1, (sent_full path hs).2⟩)

theorem carries_readDir (a : ℕ+) (hs : path.length + 1 < 2 ^ 63) :
    NetFsOperation.Carries (.op .readDir (⟨⟨path.length + 1, .block a (path ++ [0])⟩⟩ : FsOpPathArgs))
      (.readDir (path ++ [0])) := by
  have hr : FsOpType.request .readDir (⟨⟨path.length + 1, .block a (path ++ [0])⟩⟩ : FsOpPathArgs) =
      .readDir (path ++ [0]) := by
    change Request.readDir (NetString.chars _) = _
    rw [sent_chars]
  exact hr ▸ .op .readDir _
    (List.forall_mem_singleton.mpr ⟨(sent_full path hs).1, (sent_full path hs).2⟩)

theorem carries_stat (a : ℕ+) (hs : path.length + 1 < 2 ^ 63) :
    NetFsOperation.Carries (.op .stat (⟨⟨path.length + 1, .block a (path ++ [0])⟩⟩ : FsOpPathArgs))
      (.stat (path ++ [0])) := by
  have hr : FsOpType.request .stat (⟨⟨path.length + 1, .block a (path ++ [0])⟩⟩ : FsOpPathArgs) =
      .stat (path ++ [0]) := by
    change Request.stat (NetString.chars _) = _
    rw [sent_chars]
  exact hr ▸ .op .stat _
    (List.forall_mem_singleton.mpr ⟨(sent_full path hs).1, (sent_full path hs).2⟩)

theorem clientString_run (h : c.Connected) (hs : path.length + 1 < 2 ^ 63) :
    ∃ a, clientString path c = .ok ⟨path.length + 1, .block a (path ++ [0])⟩
      { c with fromServer := { c.fromServer with heap := c.fromServer.heap.next } } := by
  obtain ⟨a, ha⟩ := clientMalloc_run h hs
  exact ⟨a, bind_of_ok ha⟩

/-- A command that ends with its request, behind steps that print nothing. -/
theorem Comes.of_performed {img : Image} {x : EStateM.Result ClientStop Client Received} {c₀ : Client}
    {k : Received → CliM Unit} {m : CliM Received} (hx : m c = x)
    (hperformed : Performed g fds t (command.request c₀.stdin o) c x) (hout : c.stdout = c₀.stdout)
    (himage : c.server.image = img) (hwhole : command.whole c₀.stdin o = command.request c₀.stdin o)
    (hk : ∀ y c' t', t.refusal (command.request c₀.stdin o) = none →
      t.Allows g (command.request c₀.stdin o) y t' → c'.stdout = c₀.stdout →
      ∃ out c'', k y c' = .ok () c'' ∧ t.Shows g c₀.stdin o command out t' ∧
        c''.stdout = c₀.stdout ++ out ∧ c''.server = c'.server) :
    ∃ t', Comes g fds img t command o c₀ ((m >>= k) c) t' := by
  subst himage
  cases hperformed with
  | @done y c' t' p payload accepted allows refines spends connected same =>
    obtain ⟨out, c'', hrun, hshows, hprinted, hserver⟩ :=
      hk y c' t' accepted allows (same.stdout.trans hout)
    rw [bind_of_ok hx, hrun]
    exact ⟨_, .shown accepted hshows hprinted (hserver ▸ refines)
      (by rw [hwhole, hserver]; exact spends)⟩
  | refused declines spoken kept spends same =>
    rw [bind_of_error hx]
    exact ⟨_, .refused declines spoken (same.stdout.trans hout) kept spends⟩
  | noRoom full short =>
    rw [bind_of_error hx]
    exact ⟨_, .noRoom full (hwhole ▸ short)⟩
  | overruns overruns => exact ⟨_, .overruns overruns⟩

theorem makeItem_comes {c₀ : Client} (fuel : ℕ) (old : List UInt8) (flags : UInt8) (h : c.Connected)
    (hs : path.length + 1 < 2 ^ 63) (hflags : flags = flgFile ∨ flags = flgDirectory)
    (ht : Refines g c.server.image t) (hroot : fds.rootInode = g.root)
    (hr : command.request c₀.stdin o = .create (path ++ [0]) flags)
    (hwhole : command.whole c₀.stdin o = command.request c₀.stdin o)
    (hshow : ∀ t', t.next (.create (path ++ [0]) flags) = some t' →
      t.Shows g c₀.stdin o command [] t')
    (hout : c.stdout = c₀.stdout) :
    ∃ t', Comes g fds c.server.image t command o c₀ (makeItem fuel fds old path flags c) t' := by
  obtain ⟨a, hstring⟩ := clientString_run h hs
  have hplain : (Request.create (path ++ [0]) flags).Plain := ⟨by simp [Request.path], hflags⟩
  have hperformed := perform_settled fuel old h.next (carries_create a flags hs)
    ⟨trivial, largest_lt hs rfl (by simp [Request.data])⟩ hplain (by simp) ht hroot
  rw [makeItem, bind_of_ok hstring]
  refine Comes.of_performed rfl (hr ▸ hperformed) hout rfl hwhole ?_
  intro y c' t' accepted allows hout'
  rw [hr] at allows
  obtain ⟨a, next, -⟩ := allows.told_of (by simp) (by simp)
  exact ⟨[], c', rfl, hshow t' next, by rw [hout', List.append_nil], rfl⟩

theorem cString_append {b w : List UInt8} (h : cString b = some w) (rest : List UInt8) :
    cString (b ++ rest) = some w :=
  cString_of_take (n := b.length) (by rw [List.take_left]; exact h)

/-- All lines of `ls`. -/
theorem printItems_run {items : List DirectoryItem} {names : List (List UInt8)}
    (h : List.Forall₂ (fun x item => cString item.name = some x) names items) (c : Client) :
    printItems items c = .ok () { c with
      stdout := c.stdout ++ (List.zipWith itemLine (items.map DirectoryItem.inode) names).flatten } := by
  induction h generalizing c with
  | nil => simp [printItems]
  | @cons x item names items hx _ ih =>
    have hname : cString ((encodeItems (item :: items)).drop 8) = some x := by
      rw [encodeItems_cons, DirectoryItem.encode, List.append_assoc,
        List.drop_left' (leBytes_length 8 item.inode)]
      exact cString_append hx _
    have hprint : fwrite (itemLine item.inode x) c =
        .ok () { c with stdout := c.stdout ++ itemLine item.inode x } := rfl
    rw [printItems, hname]
    simp only
    rw [bind_of_ok hprint, ih]
    simp [List.append_assoc]

theorem ls_comes (fuel : ℕ) (old : List UInt8) (a : ℕ+) {c₀ : Client} (h : c.Connected)
    (hs : path.length + 1 < 2 ^ 63) (ht : Refines g c.server.image t)
    (hroot : fds.rootInode = g.root) (hout : c.stdout = c₀.stdout) :
    ∃ t', Comes g fds c.server.image t (.ls path) o c₀ ((perform fuel fds old .readDir
      (⟨⟨path.length + 1, .block a (path ++ [0])⟩⟩ : FsOpPathArgs) >>= fun x =>
        match x with
        | .readDir items => printItems items
        | _ => throw .fault) c) t' := by
  have hplain : (Request.readDir (path ++ [0])).Plain := ⟨by simp [Request.path], trivial⟩
  have hperformed := perform_settled fuel old h (carries_readDir a hs)
    ⟨trivial, largest_lt hs rfl (by simp [Request.data])⟩ hplain (by simp) ht hroot
  refine Comes.of_performed rfl hperformed hout rfl rfl ?_
  intro y c' t' accepted allows hout'
  obtain ⟨k, -, hk, hobjection⟩ := accepted_located accepted
  simp only [Command.request, Request.way] at hk allows
  cases k with
  | file l bytes => cases hobjection
  | dir l sub =>
    obtain ⟨answer, next, hanswer, agrees⟩ := allows.told_of (by simp) (by simp)
    rw [FileTree.next_readDir hk] at next
    obtain rfl := Option.some.inj next
    rw [FileTree.answer_readDir hk] at hanswer
    obtain rfl := Option.some.inj hanswer
    cases agrees with
    | @names items names named =>
      refine ⟨_, _, printItems_run named c', .ls hk ?_, by rw [hout'], rfl⟩
      rw [List.length_map, named.length_eq]

theorem blockNumbers_length (count : ℕ) (blocks : List UInt8) :
    (blockNumbers count blocks).length = count := by
  rw [blockNumbers, List.length_map, List.length_range]

theorem stat_comes (fuel : ℕ) (old : List UInt8) (a : ℕ+) {c₀ : Client} (h : c.Connected)
    (hs : path.length + 1 < 2 ^ 63) (ht : Refines g c.server.image t)
    (hroot : fds.rootInode = g.root) (hout : c.stdout = c₀.stdout) :
    ∃ t', Comes g fds c.server.image t (.stat path) o c₀ ((perform fuel fds old .stat
      (⟨⟨path.length + 1, .block a (path ++ [0])⟩⟩ : FsOpPathArgs) >>= fun x =>
        match x with
        | .stat size count blocks => fwrite (statText size (blockNumbers count blocks))
        | _ => throw .fault) c) t' := by
  have hplain : (Request.stat (path ++ [0])).Plain := ⟨by simp [Request.path], trivial⟩
  have hperformed := perform_settled fuel old h (carries_stat a hs)
    ⟨trivial, largest_lt hs rfl (by simp [Request.data])⟩ hplain (by simp) ht hroot
  refine Comes.of_performed rfl hperformed hout rfl rfl ?_
  intro y c' t' accepted allows hout'
  simp only [Command.request] at allows
  cases allows with
  | told next answer agrees => cases answer
  | @stat k _ size count blocks located size_eq count_eq blocks_eq =>
    obtain rfl := size_eq
    have hprint : fwrite (statText k.extent (blockNumbers count blocks)) c' = .ok () { c' with
        stdout := c'.stdout ++ statText k.extent (blockNumbers count blocks) } := rfl
    exact ⟨_, _, hprint, .stat located ((blockNumbers_length count blocks).trans count_eq),
      by rw [hout'], rfl⟩

end Requests

/-! ## `cat` -/

section Cat

variable {g : Geometry} {t k : FileTree} {fds : FsDescriptors} {c : Client} {path : List UInt8} {o : ℕ}

/-- The bytes that a Read gives of a node. -/
structure ReadFrom (k : FileTree) (o len : ℕ) (d : List UInt8) : Prop where
  length_eq : d.length = min len (k.extent - o)
  file : ∀ bytes, k = .file () bytes → d = (bytes.drop o).take len

theorem FileTree.Allows.readFrom {x : Received} {t' : FileTree} {len : ℕ}
    (h : t.Allows g (.read path o len) x t')
    (hk : t.locate (Request.read path o len).components = some k) :
    t' = t ∧ ∃ d, x = .read d ∧ ReadFrom k o len d := by
  cases h with
  | told next answer agrees =>
    obtain rfl := Option.some.inj next
    refine ⟨rfl, ?_⟩
    cases k with
    | file l bytes =>
      rw [FileTree.answer_read hk] at answer
      obtain rfl := Option.some.inj answer
      cases agrees with
      | data =>
        refine ⟨_, rfl, ⟨by simp [FileTree.extent], fun bytes' hbytes => ?_⟩⟩
        obtain ⟨-, rfl⟩ := Node.file.inj hbytes
        rfl
    | dir l sub =>
      rw [FileTree.answer, hk] at answer
      cases answer
  | @entries _ d _ _ sub located length_eq =>
    obtain rfl := Option.some.inj (hk.symm.trans located)
    exact ⟨rfl, d, rfl, ⟨length_eq, fun bytes hbytes => by cases hbytes⟩⟩

theorem FileTree.Refuses.read_iff {e : FsError} {len : ℕ} (h : t.Refuses (.read path o len) e) :
    t.refusal (.read path o len) = some e := by
  cases h with
  | refusal h => exact h

theorem takes_read (path : List UInt8) (o len : ℕ) : t.takes g (.read path o len) = 0 := by
  rw [FileTree.takes]
  split
  · rfl
  · split <;> rfl

/-- `perform_read` gives the next piece of the node, unless the request is refused. -/
theorem performRead_settled (fuel : ℕ) (old : List UInt8) (h : c.Connected)
    (hs : path.length + 1 < 2 ^ 63) (ho : o < wordSize) (ht : Refines g c.server.image t)
    (hroot : fds.rootInode = g.root) :
    (∃ k d c', performRead fuel fds old path o bufSize c = .ok d c' ∧
      t.refusal (.read (path ++ [0]) o bufSize) = none ∧
      t.locate (Request.read (path ++ [0]) o bufSize).components = some k ∧ ReadFrom k o bufSize d ∧
      c'.Connected ∧ c.SameTerminal c' ∧ Refines g c'.server.image t ∧
      Spends g c.server.image c'.server.image 0) ∨
    ∃ e c', performRead fuel fds old path o bufSize c = .error (.die (reported e ++ [0])) c' ∧
      t.refusal (.read (path ++ [0]) o bufSize) = some e ∧ e ≠ .memory ∧ c.SameTerminal c' ∧
      Refines g c'.server.image t ∧ Spends g c.server.image c'.server.image 0 := by
  obtain ⟨a, hstring⟩ := clientString_run h hs
  have hplain : (Request.read (path ++ [0]) o bufSize).Plain := ⟨by simp [Request.path], trivial⟩
  have hperformed := perform_settled fuel old h.next (carries_read a path o bufSize hs)
    ⟨⟨ho, by decide⟩, largest_lt hs rfl (by simp [Request.data])⟩ hplain
    (fun path' o' len' heq => by
      obtain ⟨-, -, rfl⟩ := Request.read.inj heq
      decide) ht hroot
  rw [performRead, bind_of_ok hstring]
  generalize hres : perform fuel fds old .read
    (⟨⟨path.length + 1, .block a (path ++ [0])⟩, o, bufSize⟩ : FsOpReadArgs) _ = res at hperformed
  cases hperformed with
  | @done x c' t' p payload accepted allows refines spends connected same =>
    obtain ⟨k, -, hk, -⟩ := accepted_located accepted
    obtain ⟨rfl, d, rfl, hd⟩ := allows.readFrom hk
    rw [takes_read] at spends
    refine .inl ⟨k, d, c', ?_, accepted, hk, hd, connected, ⟨same.stdin, same.eof, same.stdout⟩,
      refines, spends⟩
    rw [bind_of_ok hres]
    have hfits : d.length ≤ bufSize := hd.length_eq.trans_le (min_le_left _ _)
    change (if d.length ≤ bufSize then pure d else throw .fault : CliM (List UInt8)) c' = .ok d c'
    rw [if_pos hfits, pure_run]
  | @refused e c' declines spoken kept spends same =>
    rw [takes_read] at spends
    exact .inr ⟨e, c', bind_of_error hres, declines.refuses.read_iff, spoken,
      ⟨same.stdin, same.eof, same.stdout⟩, kept, spends⟩
  | noRoom full short =>
    rw [takes_read] at short
    exact absurd short (Nat.not_lt_zero _)
  | overruns overruns => cases overruns

/-- Further on in the node there is nothing to refuse. -/
theorem read_accepted {o' : ℕ} (h : t.refusal (.read path o bufSize) = none)
    (hk : t.locate (Request.read path o bufSize).components = some k) (ho' : o' ≤ k.extent) :
    t.refusal (.read path o' bufSize) = none := by
  obtain ⟨-, hnames, -, -⟩ := accepted_located h
  rw [refusal_located (r := .read path o' bufSize) hnames hk, FileTree.objection,
    if_neg (by decide), if_neg fun hpast => Nat.not_lt_of_le ho' hpast.2]

theorem extent_lt (ht : Refines g c.server.image t) {cs : List (List UInt8)}
    (hk : t.locate cs = some k) : k.extent < 2 ^ 63 := by
  obtain ⟨live, n, htree, -, rfl⟩ := ht
  rw [Node.relabel_locate] at hk
  obtain ⟨m, hm, rfl⟩ := Option.map_eq_some_iff.mp hk
  have hbound := htree.owned.size_bound ((htree.located hm).2.2 _ (label_mem_heads m))
  have hsize := g.size_lt
  rw [← extent_eq htree hm]
  omega

/-- The loop of `cat` prints the rest of the node. -/
theorem catLoop_settled (fuel : ℕ) (hs : path.length + 1 < 2 ^ 63) (hroot : fds.rootInode = g.root)
    {rounds : ℕ} (old : ℕ → List UInt8) {total : ℕ} (h : c.Connected)
    (ht : Refines g c.server.image t)
    (haccepted : t.refusal (.read (path ++ [0]) total bufSize) = none)
    (hk : t.locate (Request.read (path ++ [0]) total bufSize).components = some k)
    (htotal : total ≤ k.extent) (hrounds : k.extent - total < rounds) :
    ∃ out c', catLoop fuel fds path rounds old total c = .ok () c' ∧ c'.stdout = c.stdout ++ out ∧
      out.length = k.extent - total ∧ (∀ bytes, k = .file () bytes → out = bytes.drop total) ∧
      Refines g c'.server.image t ∧ Spends g c.server.image c'.server.image 0 := by
  induction rounds generalizing c total old with
  | zero => omega
  | succ rounds ih =>
    have hlt := extent_lt ht hk
    rw [catLoop]
    rcases performRead_settled fuel (old 0) h hs (lt_wordSize (htotal.trans_lt hlt)) ht hroot with
      ⟨k', d, c', hrun, -, hk', hd, hconnected, hsame, href, hspends⟩ | ⟨e, c', -, hrefused, -⟩
    · obtain rfl := Option.some.inj (hk.symm.trans hk')
      have hlen := hd.length_eq
      rw [bind_of_ok hrun]
      by_cases hend : d = []
      · have hdone : k.extent - total = 0 := by
          have hpos : 0 < bufSize := by decide
          rw [hend, List.length_nil] at hlen
          omega
        rw [if_pos hend]
        refine ⟨[], c', rfl, by rw [hsame.stdout, List.append_nil], by simp [hdone],
          fun bytes hbytes => ?_, href, hspends⟩
        subst hbytes
        exact (List.drop_eq_nil_of_le (Nat.le_of_sub_eq_zero hdone)).symm
      · have hpos := List.length_pos_iff.mpr hend
        have hadd : wadd total d.length = total + d.length := Nat.mod_eq_of_lt (lt_wordSize (by omega))
        have hprint : fwrite d c' = .ok () { c' with stdout := c'.stdout ++ d } := rfl
        have htotal' : total + d.length ≤ k.extent := by omega
        rw [if_neg hend, bind_of_ok hprint, hadd]
        obtain ⟨out, c'', hloop, hout, hlength, hfile, href', hspends'⟩ :=
          ih (fun i => old (i + 1)) (c := { c' with stdout := c'.stdout ++ d })
            ⟨hconnected.toServer, hconnected.fromServer, hconnected.asked, hconnected.answered,
              hconnected.heap, hconnected.serverHeap⟩ href (read_accepted haccepted hk htotal') hk
            htotal' (by omega)
        refine ⟨d ++ out, c'', hloop, ?_, ?_, fun bytes hbytes => ?_, href', hspends.trans hspends'⟩
        · rw [hout, hsame.stdout, List.append_assoc]
        · rw [List.length_append, hlength]
          omega
        · have hprefix : d <+: bytes.drop total := by
            rw [hd.file bytes hbytes]
            exact List.take_prefix _ _
          rw [hfile bytes hbytes, ← List.drop_drop]
          exact List.prefix_iff_eq_append.mp hprefix
    · cases haccepted.symm.trans hrefused

theorem cat_comes (fuel : ℕ) (old : ℕ → List UInt8) {c₀ : Client} (h : c.Connected)
    (hs : path.length + 1 < 2 ^ 63) (ht : Refines g c.server.image t)
    (hroot : fds.rootInode = g.root) (hout : c.stdout = c₀.stdout) {rounds : ℕ}
    (hrounds : 2 ^ 63 ≤ rounds) :
    ∃ t', Comes g fds c.server.image t (.cat path) o c₀ (cat fuel fds old path rounds c) t' := by
  obtain ⟨b, hbuffer⟩ := clientMalloc_run h (show bufSize < 2 ^ 63 by decide)
  have htakes := takes_read (t := t) (g := g) (path ++ [0]) 0 bufSize
  rw [cat, bind_of_ok hbuffer]
  simp only
  cases haccepted : t.refusal (.read (path ++ [0]) 0 bufSize) with
  | none =>
    obtain ⟨k, -, hk, -⟩ := accepted_located haccepted
    have hleft : FileTree.extent k - 0 < rounds := (extent_lt ht hk).trans_le hrounds
    obtain ⟨out, c', hloop, hprinted, hlength, hfile, href, hspends⟩ :=
      catLoop_settled fuel hs hroot old h.next ht haccepted hk (Nat.zero_le _) hleft
    rw [hloop]
    exact ⟨_, .shown haccepted (.cat hk (hlength.trans (Nat.sub_zero _)) hfile)
      (by rw [hprinted, hout]) href (htakes ▸ hspends)⟩
  | some e =>
    -- the first read ends the command
    obtain ⟨k, rfl⟩ := Nat.exists_eq_succ_of_ne_zero (Nat.ne_zero_of_lt (Nat.two_pow_pos 63 |>.trans_le hrounds))
    rw [catLoop]
    rcases performRead_settled (o := 0) fuel (old 0) h.next hs (by decide) ht hroot with
      ⟨k', d, c', -, hnone, -⟩ | ⟨e', c', hrun, hrefused, hspoken, hsame, href, hspends⟩
    · cases haccepted.symm.trans hnone
    · rw [bind_of_error hrun]
      exact ⟨_, .refused (.of_refusal hrefused) hspoken (hsame.stdout.trans hout) href
        (htakes ▸ hspends)⟩

end Cat

/-! ## `write` -/

section Write

variable {g : Geometry} {t : FileTree} {fds : FsDescriptors} {c : Client} {path bytes : List UInt8}
  {o : ℕ} {command : Command}

/-- One round of `perform_write`, with the first `n` bytes of the input. -/
theorem perform_write_settled (path chunk : List UInt8) (fuel : ℕ) (old : List UInt8) (a b : ℕ+)
    (h : c.Connected) (hs : path.length + 1 < 2 ^ 63) (ho : o < wordSize)
    (hchunk : chunk.length ≤ bufSize) (ht : Refines g c.server.image t) (hroot : fds.rootInode = g.root) :
    Performed g fds t (.write (path ++ [0]) o chunk) c (perform fuel fds old .write
      (⟨⟨path.length + 1, .block a (path ++ [0])⟩, o, chunk.length, .block b chunk⟩ : FsOpWriteArgs)
      c) := by
  have hlt : chunk.length < 2 ^ 63 := hchunk.trans_lt (by decide)
  exact perform_settled fuel old h (carries_write a b path chunk o hs hlt)
    ⟨ho, largest_lt hs rfl hlt⟩ ⟨by simp [Request.path], hlt⟩ nofun ht hroot

theorem fread_run (n : ℕ) (c : Client) : fread n c = .ok (c.stdin.take n) { c with
    stdin := c.stdin.drop n
    eof := c.eof || decide (c.stdin.length < n) } := rfl

/-- A round and the rest of the input behind it. -/
theorem overwrite_round {stdin : List UInt8} (n : ℕ) (ho : o ≤ bytes.length ∨ stdin = [])
    (hlt : (overwrite bytes o (stdin.take n)).length < 2 ^ 63) :
    (wadd o (stdin.take n).length ≤ (overwrite bytes o (stdin.take n)).length ∨ stdin.drop n = []) ∧
      overwrite (overwrite bytes o (stdin.take n)) (wadd o (stdin.take n).length) (stdin.drop n) =
        overwrite bytes o stdin := by
  rcases ho with ho | rfl
  · have hlen := overwrite_length (stdin.take n) ho
    have hadd : wadd o (stdin.take n).length = o + (stdin.take n).length :=
      Nat.mod_eq_of_lt (lt_wordSize (by omega))
    rw [hadd]
    exact ⟨.inl (by omega), by rw [overwrite_overwrite _ _ ho, List.take_append_drop]⟩
  · exact ⟨.inr List.drop_nil, by simp⟩

/-- The blocks of a round and of the rest of the input behind it. -/
theorem demand_round (path : List UInt8) {stdin : List UInt8} {n : ℕ} (hn : 0 < n) (ho : o ≤ bytes.length ∨ stdin = [])
    (hlt : (overwrite bytes o (stdin.take n)).length < 2 ^ 63) :
    FileTree.demand g (.file () bytes) (.write path o (stdin.take n)) +
      FileTree.demand g (.file () (overwrite bytes o (stdin.take n)))
        (.write path (wadd o (stdin.take n).length) (stdin.drop n)) =
      FileTree.demand g (.file () bytes) (.write path o stdin) := by
  by_cases hnil : stdin = []
  · simp [hnil, FileTree.demand]
  · have hin := ho.resolve_right hnil
    have htake : stdin.take n ≠ [] := by simp [hnil, Nat.ne_of_gt hn]
    have hlen := overwrite_length (stdin.take n) hin
    have hadd : wadd o (stdin.take n).length = o + (stdin.take n).length :=
      Nat.mod_eq_of_lt (lt_wordSize (by omega))
    simp only [FileTree.demand, hnil, htake, false_or, if_neg (Nat.not_lt_of_le hin), hadd, hlen]
    by_cases hend : stdin.drop n = []
    · rw [if_pos (Or.inl hend), Nat.add_zero,
        List.take_of_length_le (List.drop_eq_nil_iff.mp hend)]
    · have hwhole : (stdin.take n).length + (stdin.drop n).length = stdin.length := by
        rw [← List.length_append, List.take_append_drop]
      have hjoin : max (max bytes.length (o + (stdin.take n).length))
          (o + (stdin.take n).length + (stdin.drop n).length) =
          max bytes.length (o + stdin.length) := by
        omega
      have hfirst := g.blocksRequired_mono (Nat.le_max_left bytes.length (o + (stdin.take n).length))
      have hrest := g.blocksRequired_mono (show max bytes.length (o + (stdin.take n).length) ≤
        max bytes.length (o + stdin.length) by omega)
      rw [if_neg (by simp only [hend, false_or]; omega), hjoin]
      omega

theorem demand_mono {chunk stdin : List UInt8} (h : chunk <+: stdin) :
    FileTree.demand g (.file () bytes) (.write path o chunk) ≤
      FileTree.demand g (.file () bytes) (.write path o stdin) := by
  have hlen := h.length_le
  simp only [FileTree.demand]
  by_cases hpast : bytes.length < o
  · simp [hpast]
  · by_cases hnil : stdin = []
    · obtain rfl : chunk = [] := List.prefix_nil.mp (hnil ▸ h)
      simp
    · have hmono := g.blocksRequired_mono (show max bytes.length (o + chunk.length) ≤
        max bytes.length (o + stdin.length) by omega)
      rw [if_neg (by simp [hnil, hpast] : ¬ (stdin = [] ∨ bytes.length < o))]
      split
      · exact Nat.zero_le _
      · omega

theorem takes_located {r : Request} {k : FileTree} (hnames : r.names = .ok r.components)
    (hk : t.locate (r.way r.components) = some k) : t.takes g r = FileTree.demand g k r := by
  rw [FileTree.takes, hnames]
  simp only [Node.walk_eq_ok.mpr hk]

/-- The loop of `perform_write` overwrites the file with the rest of the input, as long
as there are blocks. -/
theorem performWriteLoop_settled (fuel : ℕ) (hs : path.length + 1 < 2 ^ 63)
    (hroot : fds.rootInode = g.root) (a b : ℕ+) {rounds : ℕ} (old : ℕ → List UInt8) (h : c.Connected)
    (ht : Refines g c.server.image t)
    (hnames : (Request.stat (path ++ [0])).names = .ok (Request.stat (path ++ [0])).components)
    (hk : t.locate (Request.stat (path ++ [0])).components = some (.file () bytes))
    (ho : o ≤ bytes.length ∨ c.stdin = []) (hword : o < wordSize) (heof : c.eof = true → c.stdin = [])
    (hrounds : c.stdin.length + (if c.eof then 1 else 2) ≤ rounds) :
    (∃ c', performWriteLoop fuel fds ⟨path.length + 1, .block a (path ++ [0])⟩ b rounds old o c =
        .ok () c' ∧ c'.stdout = c.stdout ∧ Refines g c'.server.image
          (t.update (Node.mapData fun bytes => overwrite bytes o c.stdin)
            (Request.stat (path ++ [0])).components) ∧
        Spends g c.server.image c'.server.image
          (FileTree.demand g (.file () bytes) (.write (path ++ [0]) o c.stdin))) ∨
    ∃ e c', performWriteLoop fuel fds ⟨path.length + 1, .block a (path ++ [0])⟩ b rounds old o c =
        .error (.die (reported e ++ [0])) c' ∧ e.NoRoom ∧
        freeCount g c.server.image <
          FileTree.demand g (.file () bytes) (.write (path ++ [0]) o c.stdin) := by
  induction rounds generalizing c t bytes o old with
  | zero => split at hrounds <;> omega
  | succ rounds ih =>
    rw [performWriteLoop, bind_of_ok (get_run c)]
    by_cases hc : c.eof = true
    · have hid : t.update (Node.mapData fun bytes => overwrite bytes o c.stdin)
          (Request.stat (path ++ [0])).components = t := by
        rw [heof hc, Node.update_congr (h := id) hk (by simp [Node.mapData]), Node.update_id]
      have hnone : FileTree.demand g (.file () bytes) (.write (path ++ [0]) o c.stdin) = 0 := by
        rw [heof hc, FileTree.demand, if_pos (Or.inl rfl)]
      rw [if_pos hc, hid, hnone]
      exact .inl ⟨c, rfl, rfl, ht, .refl g _⟩
    · rw [if_neg hc] at hrounds ⊢
      rw [bind_of_ok (fread_run bufSize c)]
      have hchunk : (c.stdin.take bufSize).length ≤ bufSize := List.length_take_le _ _
      have hperformed := perform_write_settled path (c.stdin.take bufSize) fuel (old 0) a b
        (c := { c with
          stdin := c.stdin.drop bufSize
          eof := c.eof || decide (c.stdin.length < bufSize) })
        ⟨h.toServer, h.fromServer, h.asked, h.answered, h.heap, h.serverHeap⟩ hs hword hchunk ht hroot
      have htake : o ≤ bytes.length ∨ c.stdin.take bufSize = [] :=
        ho.imp_right fun hnil => by rw [hnil, List.take_nil]
      have htakes : t.takes g (.write (path ++ [0]) o (c.stdin.take bufSize)) =
          FileTree.demand g (.file () bytes) (.write (path ++ [0]) o (c.stdin.take bufSize)) :=
        takes_located (r := .write (path ++ [0]) o (c.stdin.take bufSize)) hnames hk
      generalize hres : perform fuel fds (old 0) .write
        (⟨⟨path.length + 1, .block a (path ++ [0])⟩, o, (c.stdin.take bufSize).length,
          .block b (c.stdin.take bufSize)⟩ : FsOpWriteArgs) _ = res at hperformed
      cases hperformed with
      | @done x c' t' p payload accepted allows refines spends connected same =>
        obtain rfl : t' = t.update (Node.mapData fun bytes => overwrite bytes o (c.stdin.take bufSize))
            (Request.stat (path ++ [0])).components := by
          obtain ⟨answer, next, -⟩ := allows.told_of (by simp) (by simp)
          exact Option.some.inj (next.symm.trans (FileTree.next_write hk htake))
        have hk' : (t.update (Node.mapData fun bytes => overwrite bytes o (c.stdin.take bufSize))
            (Request.stat (path ++ [0])).components).locate (Request.stat (path ++ [0])).components =
            some (.file () (overwrite bytes o (c.stdin.take bufSize))) := by
          rw [Node.locate_update hk hk, if_pos List.prefix_rfl, List.drop_length, Node.locate_nil]
          rfl
        have hlt : (overwrite bytes o (c.stdin.take bufSize)).length < 2 ^ 63 := extent_lt refines hk'
        have hrest : c'.stdin = c.stdin.drop bufSize := same.stdin
        obtain ⟨ho', hjoin⟩ := overwrite_round bufSize ho hlt
        have hsum := demand_round (g := g) (path ++ [0]) (n := bufSize) (by decide) ho hlt
        have hend : c'.eof = true ↔ c.stdin.length < bufSize := by
          rw [same.eof, Bool.eq_false_of_not_eq_true hc, Bool.false_or, decide_eq_true_eq]
        have hdone : c'.eof = true → c'.stdin = [] := fun he => by
          rw [hrest, List.drop_eq_nil_of_le (Nat.le_of_lt (hend.mp he))]
        have hleft : c'.stdin.length + (if c'.eof then 1 else 2) ≤ rounds := by
          rw [hrest, List.length_drop]
          by_cases he : c'.eof = true
          · rw [if_pos he]
            have hshort := hend.mp he
            omega
          · rw [if_neg he]
            have hlong := mt hend.mpr he
            have hpos : 0 < bufSize := by decide
            omega
        rw [htakes] at spends
        rw [← hrest] at hsum
        rw [bind_of_ok hres]
        rcases ih (fun i => old (i + 1)) connected refines hk' (hrest ▸ ho') (Nat.mod_lt _ (by decide))
            hdone hleft with ⟨c'', hloop, hout, href, hspends⟩ | ⟨e, c'', hloop, hfull, hshort⟩
        · refine .inl ⟨c'', hloop, hout.trans same.stdout, ?_, hsum ▸ spends.trans hspends⟩
          rw [Node.update_update, Node.update_congr (h := Node.mapData fun bytes => overwrite bytes o c.stdin) hk
            (congrArg (Node.file ()) (hrest ▸ hjoin))] at href
          exact href
        · exact .inr ⟨e, c'', hloop, hfull, hsum ▸ spends.short hshort⟩
      | @refused e c' declines spoken kept spends same =>
        -- there is nothing to refuse about a file at an offset inside it
        cases declines.refuses with
        | refusal hrefusal =>
          rw [refusal_located (r := .write (path ++ [0]) o (c.stdin.take bufSize)) hnames hk,
            FileTree.objection, if_neg fun hpast => ?_] at hrefusal
          · cases hrefusal
          · exact htake.elim (Nat.not_le_of_lt hpast.2) hpast.1
      | @noRoom e c' full short =>
        refine .inr ⟨e, c', bind_of_error hres, full, short.trans_le ?_⟩
        rw [htakes]
        exact demand_mono (List.take_prefix bufSize c.stdin)
      | overruns overruns => cases overruns

/-- A write that is accepted is one into a file, inside it. -/
theorem write_accepted {n : ℕ} (hn : 0 < n) {stdin : List UInt8}
    (h : t.refusal (.write path o (stdin.take n)) = none) :
    (Request.stat path).names = .ok (Request.stat path).components ∧
      ∃ bytes, t.locate (Request.stat path).components = some (.file () bytes) ∧
        (o ≤ bytes.length ∨ stdin = []) := by
  obtain ⟨k, hnames, hk, hobjection⟩ := accepted_located h
  refine ⟨hnames, ?_⟩
  cases k with
  | dir l sub => cases hobjection
  | file l bytes =>
    refine ⟨bytes, hk, ?_⟩
    rw [FileTree.objection] at hobjection
    split at hobjection
    · cases hobjection
    · next hin =>
      by_cases hempty : stdin = []
      · exact .inr hempty
      · have hdata : stdin.take n ≠ [] := by simp [hempty, Nat.ne_of_gt hn]
        exact .inl (Nat.le_of_not_lt fun hpast => hin ⟨hdata, hpast⟩)

/-- A refused Write takes no blocks. -/
theorem takes_refused {d : List UInt8} {e : FsError} (h : t.refusal (.write path o d) = some e) :
    t.takes g (.write path o d) = 0 := by
  rw [FileTree.refusal] at h
  rw [FileTree.takes]
  cases hnames : (Request.write path o d).names with
  | error e => rfl
  | ok cs =>
    simp only [hnames] at h ⊢
    cases hwalk : t.walk ((Request.write path o d).way cs) with
    | error miss => rfl
    | ok k =>
      rw [hwalk] at h
      cases k with
      | dir l sub => rfl
      | file l bytes =>
        simp only [FileTree.objection] at h
        split at h
        · next hpast => exact if_pos (Or.inr hpast.2)
        · cases h

theorem performWrite_comes (fuel : ℕ) (old : ℕ → List UInt8) {c₀ : Client} (h : c.Connected)
    (hs : path.length + 1 < 2 ^ 63) (hword : o < wordSize) (heof : c.eof = false)
    (ht : Refines g c.server.image t) (hroot : fds.rootInode = g.root) (hin : c.stdin = c₀.stdin)
    (hout : c.stdout = c₀.stdout)
    (hr : command.request c₀.stdin o = .write (path ++ [0]) o (c₀.stdin.take bufSize))
    (hwhole : command.whole c₀.stdin o = .write (path ++ [0]) o c₀.stdin)
    (hshow : ∀ bytes, t.locate (Request.write (path ++ [0]) o c₀.stdin).components =
        some (.file () bytes) → (o ≤ bytes.length ∨ c₀.stdin = []) →
      t.Shows g c₀.stdin o command [] (t.update (Node.mapData fun bytes => overwrite bytes o c₀.stdin)
        (Request.write (path ++ [0]) o c₀.stdin).components)) :
    ∃ t', Comes g fds c.server.image t command o c₀ (performWrite fuel fds old path o c) t' := by
  obtain ⟨a, hstring⟩ := clientString_run h hs
  obtain ⟨b, hbuffer⟩ := clientMalloc_run h.next (show bufSize < 2 ^ 63 by decide)
  rw [performWrite, bind_of_ok hstring, bind_of_ok hbuffer]
  change ∃ t', Comes g fds c.server.image t command o c₀
    (performWriteLoop fuel fds _ b (c.stdin.length + 2) old o _) t'
  cases haccepted : t.refusal (.write (path ++ [0]) o (c₀.stdin.take bufSize)) with
  | none =>
    obtain ⟨hnames, bytes, hk, ho⟩ := write_accepted (by decide) haccepted
    have hrounds : c.stdin.length + (if c.eof then 1 else 2) ≤ c.stdin.length + 2 := by split <;> omega
    have htakes : t.takes g (command.whole c₀.stdin o) =
        FileTree.demand g (.file () bytes) (.write (path ++ [0]) o c.stdin) := by
      rw [hwhole, hin]
      exact takes_located (r := .write (path ++ [0]) o c₀.stdin) hnames hk
    rcases performWriteLoop_settled fuel hs hroot a b old h.next.next ht
        hnames hk (hin ▸ ho) hword (fun he => by cases heof.symm.trans he) hrounds with
      ⟨c', hloop, hprinted, href, hspends⟩ | ⟨e, c', hloop, hfull, hshort⟩
    · rw [hloop]
      refine ⟨_, .shown (hr ▸ haccepted) (hshow bytes hk ho) (by rw [hprinted, List.append_nil, hout]) ?_
        (htakes ▸ hspends)⟩
      exact hin ▸ href
    · rw [hloop]
      exact ⟨_, .noRoom hfull (htakes ▸ hshort)⟩
  | some e =>
    -- the first round ends the command
    have hperformed := perform_write_settled path (c.stdin.take bufSize) fuel (old 0) a b
      (c := { c with
        stdin := c.stdin.drop bufSize
        eof := c.eof || decide (c.stdin.length < bufSize)
        fromServer := { c.fromServer with heap := c.fromServer.heap.next.next } })
      ⟨h.toServer, h.fromServer, h.asked, h.answered, h.next.next.heap, h.serverHeap⟩ hs hword
      (List.length_take_le _ _) ht hroot
    rw [performWriteLoop, bind_of_ok (get_run _), if_neg (by rw [heof]; exact Bool.false_ne_true),
      bind_of_ok (fread_run bufSize _)]
    generalize hres : perform fuel fds (old 0) .write
      (⟨⟨path.length + 1, .block a (path ++ [0])⟩, o, (c.stdin.take bufSize).length,
        .block b (c.stdin.take bufSize)⟩ : FsOpWriteArgs) _ = res at hperformed
    cases hperformed with
    | done payload accepted allows refines spends connected same =>
      rw [hin, haccepted] at accepted
      cases accepted
    | refused declines spoken kept spends same =>
      rw [bind_of_error hres]
      rw [hin, ← hr] at declines spends
      exact ⟨_, .refused declines spoken (same.stdout.trans hout) kept spends⟩
    | noRoom full short =>
      -- what the first round takes is part of what the command takes
      rw [takes_refused (hin ▸ haccepted)] at short
      exact absurd short (Nat.not_lt_zero _)
    | overruns overruns => cases overruns

end Write

/-! ## Whole runs -/

/-- The address alone decides whether the server is reached. -/
theorem initializeClient_run (env : Environment) {address : List UInt8} {c : Client}
    (h : c.Connected) (hs : address.length + 1 < 2 ^ 63) :
    ∃ c', c'.Connected ∧ c.SameTerminal c' ∧ c'.server = c.server ∧
      initializeClient env address c =
        match env.reach address with
        | none => .ok () c'
        | some e => .error e c' := by
  have hhost : (address.takeWhile (· ≠ colon)).length + 1 < 2 ^ 63 := by
    have hle := (List.takeWhile_prefix (l := address) (· ≠ colon)).length_le
    omega
  obtain ⟨a, ha⟩ := clientMalloc_run h hhost
  have hdial : ∀ (port : ℕ) (c' : Client), (match env.dial (address.takeWhile (· ≠ colon)) port with
      | .up => pure ()
      | .failed text => throw (.die (messageBytes "Socket error: " ++ text))
      | .unknownHost => throw .fault : CliM Unit) c' =
      match (env.dial (address.takeWhile (· ≠ colon)) port).stop with
      | none => .ok () c'
      | some e => .error e c' := fun port c' => by
    cases env.dial (address.takeWhile (· ≠ colon)) port <;> rfl
  rw [initializeClient, splitAddress, Environment.reach]
  by_cases hcolon : colon ∈ address
  · simp only [hcolon, not_true_eq_false, false_or]
    cases scan (address.drop ((address.takeWhile (· ≠ colon)).length + 1)) with
    | mismatch => exact ⟨c, h, ⟨rfl, rfl, rfl⟩, rfl, rfl⟩
    | eof =>
      refine ⟨_, h.next, ⟨rfl, rfl, rfl⟩, rfl, ?_⟩
      rw [if_neg nofun, bind_assoc, bind_of_ok ha]
      exact hdial _ _
    | number negative magnitude =>
      refine ⟨_, h.next, ⟨rfl, rfl, rfl⟩, rfl, ?_⟩
      rw [if_neg nofun, bind_assoc, bind_of_ok ha]
      simp only
      split
      · exact hdial _ _
      · rfl
  · simp only [hcolon, not_false_eq_true, true_or, if_true]
    exact ⟨c, h, ⟨rfl, rfl, rfl⟩, rfl, rfl⟩

theorem offset_lt {env : Environment} {command : Command} {o : ℕ} (h : command.offset env = .ok o) :
    o < wordSize := by
  cases command with
  | writeAt path offset =>
    rw [Command.offset, scanOffset] at h
    split at h
    · cases h
    · exact Except.ok.inj h ▸ env.stackOffset_lt
    · split at h
      · cases h
      · next hlt =>
        obtain rfl := Except.ok.inj h
        split
        · exact Nat.mod_lt _ (by decide)
        · exact Nat.lt_of_not_le hlt
  | _ => exact Except.ok.inj h ▸ (by decide)

/-- Address and path are among the arguments. -/
theorem ofArgs_mem {argv : List (List UInt8)} {address : List UInt8} {command : Command}
    (h : Command.ofArgs argv = some (address, command)) : address ∈ argv ∧ command.path ∈ argv := by
  unfold Command.ofArgs at h
  repeat' split at h
  all_goals cases h
  all_goals simp [Command.path]

section Run

variable {env : Environment} {g : Geometry} {t : FileTree} {fds : FsDescriptors} {c : Client}
  {img : Image} {argv : List (List UInt8)} {address : List UInt8} {command : Command} {o : ℕ}

/-- A command behind its offset, once the steps before the connection are taken. -/
theorem asked_ran {body : CliM Unit} {c₁ : Client} (hargs : Command.ofArgs argv = some (address, command))
    (hoffset : command.offset env = .ok o) (haddress : address.length + 1 < 2 ^ 63)
    (h : c₁.Connected) (hsame : c.SameTerminal c₁) (hserver : c₁.server = c.server)
    (hbody : ∀ c₂ : Client, c₂.Connected → c.SameTerminal c₂ → c₂.server = c.server →
      ∃ t', Comes g fds c₂.server.image t command o c (body c₂) t') :
    ∃ t', Ran env g fds c.server.image t argv c ((initializeClient env address >>= fun _ => body) c₁)
      t' := by
  obtain ⟨c₂, hconnected, hsame', hserver', hrun⟩ := initializeClient_run env h haddress
  cases hreach : env.reach address with
  | none =>
    rw [hreach] at hrun
    rw [bind_of_ok hrun]
    obtain ⟨t', hcomes⟩ := hbody c₂ hconnected ⟨hsame'.stdin.trans hsame.stdin,
      hsame'.eof.trans hsame.eof, hsame'.stdout.trans hsame.stdout⟩ (hserver'.trans hserver)
    rw [hserver', hserver] at hcomes
    exact ⟨t', .asked hargs hoffset hreach hcomes⟩
  | some stop =>
    rw [hreach] at hrun
    rw [bind_of_error hrun]
    exact ⟨_, .unreached hargs hoffset hreach (hsame'.stdout.trans hsame.stdout)
      (by rw [hserver', hserver])⟩

theorem execute_ran (fuel : ℕ) (old : ℕ → List UInt8) {rounds : ℕ}
    (hargs : Command.ofArgs argv = some (address, command)) (hmem : ∀ a ∈ argv, a.length + 1 < 2 ^ 63)
    (hrm : ∀ path, command ≠ .rm path) (h : c.Connected) (heof : c.eof = false)
    (ht : Refines g c.server.image t) (hroot : fds.rootInode = g.root) (hrounds : 2 ^ 63 ≤ rounds) :
    ∃ t', Ran env g fds c.server.image t argv c (command.execute env fuel fds old rounds address c) t' := by
  obtain ⟨haddress, hs⟩ := (ofArgs_mem hargs).imp (hmem _) (hmem _)
  have hsame : c.SameTerminal c := ⟨rfl, rfl, rfl⟩
  cases command with
  | mkfile path =>
    refine asked_ran hargs rfl haddress h hsame rfl fun c₂ hc₂ hterminal hserver => ?_
    exact makeItem_comes fuel (old 0) flgFile hc₂ hs (.inl rfl) (hserver ▸ ht) hroot rfl rfl
      (fun _ => .mkfile) hterminal.stdout
  | mkdir path =>
    refine asked_ran hargs rfl haddress h hsame rfl fun c₂ hc₂ hterminal hserver => ?_
    exact makeItem_comes fuel (old 0) flgDirectory hc₂ hs (.inr rfl) (hserver ▸ ht) hroot rfl rfl
      (fun _ => .mkdir) hterminal.stdout
  | ls path =>
    replace hs : path.length + 1 < 2 ^ 63 := hs
    obtain ⟨a, hstring⟩ := clientString_run h hs
    rw [Command.execute, bind_of_ok hstring]
    refine asked_ran hargs rfl haddress h.next ⟨rfl, rfl, rfl⟩ rfl fun c₂ hc₂ hterminal hserver => ?_
    exact ls_comes fuel (old 0) a hc₂ hs (hserver ▸ ht) hroot hterminal.stdout
  | cat path =>
    refine asked_ran hargs rfl haddress h hsame rfl fun c₂ hc₂ hterminal hserver => ?_
    exact cat_comes fuel old hc₂ hs (hserver ▸ ht) hroot hterminal.stdout hrounds
  | write path =>
    refine asked_ran hargs rfl haddress h hsame rfl fun c₂ hc₂ hterminal hserver => ?_
    exact performWrite_comes fuel old hc₂ hs (by decide) (hterminal.eof.trans heof) (hserver ▸ ht) hroot
      hterminal.stdin hterminal.stdout rfl rfl fun _ => .write
  | writeAt path offset =>
    cases hoffset : (Command.writeAt path offset).offset env with
    | error message =>
      rw [Command.execute, show scanOffset env offset = .error message from hoffset]
      exact ⟨_, .badOffset hargs hoffset rfl rfl⟩
    | ok o =>
      rw [Command.execute, show scanOffset env offset = .ok o from hoffset]
      refine asked_ran hargs hoffset haddress h hsame rfl fun c₂ hc₂ hterminal hserver => ?_
      exact performWrite_comes fuel old hc₂ hs (offset_lt hoffset) (hterminal.eof.trans heof)
        (hserver ▸ ht) hroot hterminal.stdin hterminal.stdout rfl rfl fun _ => .writeAt
  | rm path => exact absurd rfl (hrm path)
  | stat path =>
    replace hs : path.length + 1 < 2 ^ 63 := hs
    obtain ⟨a, hstring⟩ := clientString_run h hs
    rw [Command.execute, bind_of_ok hstring]
    refine asked_ran hargs rfl haddress h.next ⟨rfl, rfl, rfl⟩ rfl fun c₂ hc₂ hterminal hserver => ?_
    exact stat_comes fuel (old 0) a hc₂ hs (hserver ▸ ht) hroot hterminal.stdout

theorem main_ran (fuel : ℕ) (old : ℕ → List UInt8) {rounds : ℕ}
    (hmem : ∀ a ∈ argv, a.length + 1 < 2 ^ 63)
    (hrm : ∀ address path, Command.ofArgs argv ≠ some (address, .rm path)) (h : c.Connected)
    (heof : c.eof = false) (ht : Refines g c.server.image t) (hroot : fds.rootInode = g.root)
    (hrounds : 2 ^ 63 ≤ rounds) :
    ∃ t', Ran env g fds c.server.image t argv c (main env fuel fds old rounds argv c) t' := by
  rw [main]
  cases hargs : Command.ofArgs argv with
  | none => exact ⟨_, .help hargs rfl rfl⟩
  | some x =>
    obtain ⟨address, command⟩ := x
    exact execute_ran fuel old hargs hmem (fun path hp => hrm address path (hp ▸ hargs)) h heof ht hroot
      hrounds

end Run

/-! ## Sessions -/

/-- A run of the program, over a connection of its own. -/
structure ProgramRun where
  env : Environment
  argv : List (List UInt8)
  /-- The arguments are in memory. -/
  argv_lt : ∀ a ∈ argv, a.length + 1 < 2 ^ 63
  client : Client
  connected : client.Connected
  eof : client.eof = false
  fuel : ℕ
  old : ℕ → List UInt8
  rounds : ℕ
  rounds_le : 2 ^ 63 ≤ rounds

namespace ProgramRun

/-- The process when the volume of the server is `img`. -/
def start (r : ProgramRun) (img : Image) : Client :=
  { r.client with server := { r.client.server with image := img } }

def result (fds : FsDescriptors) (r : ProgramRun) (img : Image) :
    EStateM.Result ClientStop Client Unit :=
  main r.env r.fuel fds r.old r.rounds r.argv (r.start img)

/-- The run is an `rm`. -/
def Removes (r : ProgramRun) : Prop := ∃ address path, Command.ofArgs r.argv = some (address, .rm path)

end ProgramRun

/-- What runs of the program come to, each on the volume that the one before it left
behind. -/
def session (fds : FsDescriptors) : Image → List ProgramRun → List (EStateM.Result ClientStop Client Unit)
  | _, [] => []
  | img, r :: rest =>
    r.result fds img :: session fds (finalState (r.result fds img)).server.image rest

/-- The volume that the last of some runs left behind. -/
def leftBehind (img : Image) (xs : List (EStateM.Result ClientStop Client Unit)) : Image :=
  xs.foldl (fun _ x => (finalState x).server.image) img

/-- The runs, one by one, each on the volume and the tree that the one before left
behind, and the tree behind them all. Nothing is said about the runs after one that
lost the tree. -/
inductive Explained (g : Geometry) (fds : FsDescriptors) : Image → FileTree → List ProgramRun →
    List (EStateM.Result ClientStop Client Unit) → Option FileTree → Prop
  | nil {img : Image} {t : FileTree} : Explained g fds img t [] [] (some t)
  | cons {img : Image} {t t' : FileTree} {left : Option FileTree} {r : ProgramRun}
      {rest : List ProgramRun} {x : EStateM.Result ClientStop Client Unit}
      {xs : List (EStateM.Result ClientStop Client Unit)}
      (ran : Ran r.env g fds img t r.argv r.client x (some t'))
      (explained : Explained g fds (finalState x).server.image t' rest xs left) :
      Explained g fds img t (r :: rest) (x :: xs) left
  | last {img : Image} {t : FileTree} {r : ProgramRun} {rest : List ProgramRun}
      {x : EStateM.Result ClientStop Client Unit} {xs : List (EStateM.Result ClientStop Client Unit)}
      (ran : Ran r.env g fds img t r.argv r.client x none) :
      Explained g fds img t (r :: rest) (x :: xs) none

section Explained

variable {g : Geometry} {fds : FsDescriptors} {img : Image} {t t' : FileTree} {command : Command}
  {o : ℕ} {c c' : Client} {x : EStateM.Result ClientStop Client Unit} {left : Option FileTree}
  {env : Environment} {argv : List (List UInt8)}

theorem Comes.refines (h : Comes g fds img t command o c x (some t')) :
    Refines g (finalState x).server.image t' := by
  cases h with
  | shown _ _ _ refines _ => exact refines
  | refused _ _ _ kept _ => exact kept

theorem Ran.refines (h : Ran env g fds img t argv c x (some t')) (ht : Refines g img t) :
    Refines g (finalState x).server.image t' := by
  cases h with
  | help _ _ kept => exact kept ▸ ht
  | badOffset _ _ _ kept => exact kept ▸ ht
  | unreached _ _ _ _ kept => exact kept ▸ ht
  | asked _ _ _ comes => exact comes.refines

/-- Of the process only the terminal counts. -/
theorem Comes.of_terminal (h : Comes g fds img t command o c x left) (hin : c.stdin = c'.stdin)
    (hout : c.stdout = c'.stdout) : Comes g fds img t command o c' x left := by
  cases h with
  | shown accepted shows printed refines spends =>
    exact .shown (hin ▸ accepted) (hin ▸ shows) (hout ▸ printed) refines (hin ▸ spends)
  | refused declines spoken printed kept spends =>
    exact .refused (hin ▸ declines) spoken (printed.trans hout) kept (hin ▸ spends)
  | noRoom full short => exact .noRoom full (hin ▸ short)
  | overruns overruns => exact .overruns (hin ▸ overruns)

theorem Ran.of_terminal (h : Ran env g fds img t argv c x left) (hin : c.stdin = c'.stdin)
    (hout : c.stdout = c'.stdout) : Ran env g fds img t argv c' x left := by
  cases h with
  | help args printed kept => exact .help args (hout ▸ printed) kept
  | badOffset args offset printed kept => exact .badOffset args offset (printed.trans hout) kept
  | unreached args offset reach printed kept =>
    exact .unreached args offset reach (printed.trans hout) kept
  | asked args offset reach comes => exact .asked args offset reach (comes.of_terminal hin hout)

end Explained

/-! ## Runs that end well -/

/-- The exit status is 0. -/
def exitsZero : EStateM.Result ClientStop Client Unit → Bool
  | .ok _ _ => true
  | .error _ _ => false

theorem exitsZero_cons {xs : List (EStateM.Result ClientStop Client Unit)} {bs : List Bool}
    (h : xs.map exitsZero = true :: bs) : ∃ c ys, xs = .ok () c :: ys ∧ ys.map exitsZero = bs := by
  obtain ⟨x, ys, rfl, hx, hys⟩ := List.map_eq_cons_iff.mp h
  cases x with
  | ok u c => exact ⟨c, ys, rfl, hys⟩
  | error stop c => cases hx

/-- The command asks for a node in place of the root. -/
def Command.MakesRoot : Command → Prop
  | .mkfile path => (Request.create (path ++ [0]) flgFile).components = []
  | .mkdir path => (Request.create (path ++ [0]) flgDirectory).components = []
  | _ => False

/-- Only such a command overruns its components. -/
theorem FileTree.Overruns.makesRoot {t : FileTree} {command : Command} {stdin : List UInt8} {o : ℕ}
    (h : t.Overruns (command.request stdin o)) : command.MakesRoot := by
  generalize hr : command.request stdin o = r at h
  obtain ⟨root, -⟩ := h
  cases command with
  | mkfile path => exact (hr ▸ (names_ok root).symm :)
  | mkdir path => exact (hr ▸ (names_ok root).symm :)
  | _ => cases hr

section Shown

variable {g : Geometry} {fds : FsDescriptors} {img : Image} {t : FileTree} {command : Command}
  {c c' : Client} {left : Option FileTree} {env : Environment} {argv : List (List UInt8)}
  {address : List UInt8}

/-- What a run that ends well has done, when it is a command. -/
theorem Ran.shown (h : Ran env g fds img t argv c (.ok () c') left)
    (hargs : Command.ofArgs argv = some (address, command)) (hbelow : ¬ command.MakesRoot) :
    ∃ (o : ℕ) (out : List UInt8) (t' : FileTree), command.offset env = .ok o ∧ left = some t' ∧
      t.Shows g c.stdin o command out t' ∧ c'.stdout = c.stdout ++ out := by
  cases h with
  | help args _ _ =>
    rw [hargs] at args
    cases args
  | asked args offset _ comes =>
    obtain ⟨-, rfl⟩ := Prod.mk.inj (Option.some.inj (hargs.symm.trans args))
    cases comes with
    | shown _ shows printed _ _ => exact ⟨_, _, _, offset, rfl, shows, printed⟩
    | overruns overruns => exact absurd overruns.makesRoot hbelow

theorem Explained.shown {r : ProgramRun} {rest : List ProgramRun}
    {xs : List (EStateM.Result ClientStop Client Unit)}
    (h : Explained g fds img t (r :: rest) (.ok () c' :: xs) left)
    (hargs : Command.ofArgs r.argv = some (address, command)) (hbelow : ¬ command.MakesRoot) :
    ∃ (o : ℕ) (out : List UInt8) (t' : FileTree), command.offset r.env = .ok o ∧
      t.Shows g r.client.stdin o command out t' ∧ c'.stdout = r.client.stdout ++ out ∧
      Explained g fds c'.server.image t' rest xs left := by
  cases h with
  | cons ran rest =>
    obtain ⟨o, out, t', hoffset, heq, hshows, hprinted⟩ := ran.shown hargs hbelow
    obtain rfl := Option.some.inj heq
    exact ⟨o, out, _, hoffset, hshows, hprinted, rest⟩
  | last ran =>
    obtain ⟨o, out, t', -, heq, -⟩ := ran.shown hargs hbelow
    cases heq

end Shown

theorem session_settled {fds : FsDescriptors} {g : Geometry} {img : Image} {t : FileTree}
    (runs : List ProgramRun) (hrm : ∀ r ∈ runs, ¬ r.Removes) (ht : Refines g img t)
    (hroot : fds.rootInode = g.root) : ∃ left, Explained g fds img t runs (session fds img runs) left ∧
      ∀ t' ∈ left, Refines g (leftBehind img (session fds img runs)) t' := by
  induction runs generalizing img t with
  | nil =>
    refine ⟨some t, .nil, fun t' h => ?_⟩
    obtain rfl := Option.some.inj h
    exact ht
  | cons r rest ih =>
    have hkeep : ∀ address path, Command.ofArgs r.argv ≠ some (address, .rm path) :=
      fun address path h => hrm r List.mem_cons_self ⟨address, path, h⟩
    obtain ⟨hto, hfrom, hasked, hanswered, hheap, hserver⟩ := r.connected
    obtain ⟨t', hran⟩ := main_ran r.fuel r.old r.argv_lt hkeep (c := r.start img)
      ⟨hto, hfrom, hasked, hanswered, hheap, hserver⟩ r.eof ht hroot r.rounds_le
    cases t' with
    | none => exact ⟨none, .last (hran.of_terminal rfl rfl), nofun⟩
    | some t' =>
      obtain ⟨left, hrest, hleft⟩ :=
        ih (fun r' hr' => hrm r' (List.mem_cons_of_mem _ hr')) (hran.refines ht)
      exact ⟨left, .cons (hran.of_terminal rfl rfl) hrest, hleft⟩

/-- **A session on the tree.** From a volume that holds a tree on, every run of the
program comes to what the tree says, until one of them takes more blocks than are free
or asks for a node in place of the root. -/
theorem session_explained {fds : FsDescriptors} {g : Geometry} {img : Image} {t : FileTree}
    (runs : List ProgramRun) (hrm : ∀ r ∈ runs, ¬ r.Removes) (ht : Refines g img t)
    (hroot : fds.rootInode = g.root) :
    ∃ left, Explained g fds img t runs (session fds img runs) left ∧
      ∀ t' ∈ left, Refines g (leftBehind img (session fds img runs)) t' :=
  session_settled runs hrm ht hroot

/-- The arguments, the input, and a server that is always up. -/
def programRun (argv : List (List UInt8)) (stdin : List UInt8)
    (h : ∀ a ∈ argv, a.length + 1 < 2 ^ 63) : ProgramRun where
  env := ⟨fun _ _ => .up, 0, 0, by decide⟩
  argv := argv
  argv_lt := h
  client := clientOn freshImage stdin
  connected := clientOn_connected _ _
  eof := rfl
  fuel := 4
  old := fun _ => []
  rounds := 2 ^ 63
  rounds_le := Nat.le_refl _

theorem programRun_keeps {argv : List (List UInt8)} {stdin address : List UInt8} {command : Command}
    {h : ∀ a ∈ argv, a.length + 1 < 2 ^ 63} (hargs : Command.ofArgs argv = some (address, command))
    (hcommand : ∀ path, command ≠ .rm path) : ¬ (programRun argv stdin h).Removes := by
  rintro ⟨address', path, hrm⟩
  exact hcommand path (Prod.mk.inj (Option.some.inj (hargs.symm.trans hrm))).2

/-- `/a` is made, written and printed. -/
def fileRuns : List ProgramRun :=
  [programRun (["rfs", "localhost:80", "mkfile", "/a"].map messageBytes) [] (by decide),
    programRun (["rfs", "localhost:80", "write", "/a"].map messageBytes) [104, 101, 108, 108, 111] (by decide),
    programRun (["rfs", "localhost:80", "CAT", "/a"].map messageBytes) [] (by decide)]

theorem mkfile_args : Command.ofArgs (["rfs", "localhost:80", "mkfile", "/a"].map messageBytes) =
    some (messageBytes "localhost:80", .mkfile (messageBytes "/a")) := by decide

theorem write_args : Command.ofArgs (["rfs", "localhost:80", "write", "/a"].map messageBytes) =
    some (messageBytes "localhost:80", .write (messageBytes "/a")) := by decide

theorem cat_args : Command.ofArgs (["rfs", "localhost:80", "CAT", "/a"].map messageBytes) =
    some (messageBytes "localhost:80", .cat (messageBytes "/a")) := by decide

theorem fileRuns_keep : ∀ r ∈ fileRuns, ¬ r.Removes := by
  rw [fileRuns, List.forall_mem_cons, List.forall_mem_cons, List.forall_mem_singleton]
  exact ⟨programRun_keeps mkfile_args nofun, programRun_keeps write_args nofun,
    programRun_keeps cat_args nofun⟩

/-- The tree with the file `/a`. -/
def fileTree (bytes : List UInt8) : FileTree := .dir () (.file [97] () bytes .nil)

section FileRuns

variable {g : Geometry} {fds : FsDescriptors} {img : Image} {c₁ c₂ : Client} {left : Option FileTree}
  {xs : List (EStateM.Result ClientStop Client Unit)}

theorem Explained.written (rest : List ProgramRun)
    (h : Explained g fds img (.dir () .nil) (fileRuns.take 2 ++ rest) (.ok () c₁ :: .ok () c₂ :: xs) left) :
    Explained g fds c₂.server.image (fileTree [104, 101, 108, 108, 111]) rest xs left := by
  have hbelow : (Request.create (messageBytes "/a" ++ [0]) flgFile).components ≠ [] := by decide
  obtain ⟨o₁, out₁, t₁, -, hmkfile, -, hlast⟩ := h.shown mkfile_args hbelow
  obtain ⟨o₂, out₂, t₂, hoffset, hwrite, -, hrest⟩ := hlast.shown write_args nofun
  obtain rfl : 0 = o₂ := Except.ok.inj hoffset
  cases hmkfile with
  | mkfile next =>
    obtain rfl : fileTree [] = t₁ := Option.some.inj next
    cases hwrite with
    | write located _ => exact hrest

theorem Explained.printed {bytes : List UInt8}
    (h : Explained g fds img (fileTree bytes) (fileRuns.drop 2) [.ok () c₁] left) :
    c₁.stdout = bytes ∧ left = some (fileTree bytes) := by
  obtain ⟨o, out, t, -, hcat, hprinted, hend⟩ := h.shown cat_args nofun
  cases hcat with
  | cat located _ file =>
    cases hend
    exact ⟨hprinted.trans (file _ (Option.some.inj located).symm), rfl⟩

end FileRuns

/-- Every run ends well, and the last one prints what the second one has read. -/
theorem session_explained_fileRuns : ∃ c₁ c₂ c₃,
    session ⟨1⟩ freshImage fileRuns = [.ok () c₁, .ok () c₂, .ok () c₃] ∧
    c₃.stdout = [104, 101, 108, 108, 111] ∧
    Explained treeVolume ⟨1⟩ freshImage (.dir () .nil) fileRuns
      [.ok () c₁, .ok () c₂, .ok () c₃] (some (fileTree [104, 101, 108, 108, 111])) := by
  have hwell : (session ⟨1⟩ freshImage fileRuns).map exitsZero = [true, true, true] := by
    decide +kernel
  obtain ⟨left, hexplained, -⟩ := session_explained (g := treeVolume) fileRuns fileRuns_keep
    (refines_formatted freshImage_formatted) (show (⟨1⟩ : FsDescriptors).rootInode = _ from rfl)
  generalize session ⟨1⟩ freshImage fileRuns = xs at hwell hexplained ⊢
  obtain ⟨c₁, ys, rfl, hys⟩ := exitsZero_cons hwell
  obtain ⟨c₂, zs, rfl, hzs⟩ := exitsZero_cons hys
  obtain ⟨c₃, nothing, rfl, hnothing⟩ := exitsZero_cons hzs
  obtain rfl := List.map_eq_nil_iff.mp hnothing
  have hlast : Explained treeVolume ⟨1⟩ c₂.server.image (fileTree [104, 101, 108, 108, 111]) (fileRuns.drop 2)
      [.ok () c₃] left :=
    Explained.written (fileRuns.drop 2) hexplained
  obtain ⟨hprinted, rfl⟩ := hlast.printed
  exact ⟨c₁, c₂, c₃, rfl, hprinted, hexplained⟩

end KisLinux.Net
