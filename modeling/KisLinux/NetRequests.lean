import KisLinux.NetConversation
import KisLinux.NetFailures

/-!
# Requests that are completed

What a handler has done when it comes through: its calls on the image, one after
another, and behind them one reply. A `Serves` run is a sequence of completed
requests on one image, and the tree of files explains every answer in it.
-/
namespace KisLinux.Net
open ByteMemory StateRun ShortTransfer NameTree Fs

/-! ## Answers -/

/-- The server sent a reply that gives the client `x`. -/
def Answered (s s' : Server) (t : FsOpType) (x : Received) : Prop :=
  ∃ w, Reply t x w ∧ s'.output.accepted = s.output.accepted ++ w

/-- A thread that has not reported an error, on a connection that takes everything. -/
structure Server.Open (s : Server) : Prop where
  room : s.output.room = none
  clean : s.errorIntercepted = false

theorem Server.Open.image {s : Server} (h : s.Open) (img : Image) :
    Server.Open { s with image := img } := ⟨h.room, h.clean⟩

theorem Server.Open.input {s : Server} (h : s.Open) (input : Input) :
    Server.Open { s with input := input } := ⟨h.room, h.clean⟩

section Answers

variable {s s' : Server} {x : OutM Bool} {w : List UInt8}

theorem answer_ok (hx : Sends x w) (h : s.Open) (hrun : answer x s = .ok () s') :
    s'.output.accepted = s.output.accepted ++ w ∧ s'.image = s.image ∧ s'.Open := by
  obtain ⟨out, hout, haccepted, hroom⟩ := hx.run_open h.room
  rw [answer, bind_of_ok (onOutput_of_ok hout), if_pos rfl, pure_run] at hrun
  obtain ⟨-, rfl⟩ := EStateM.Result.ok.inj hrun
  exact ⟨haccepted, rfl, hroom, h.clean⟩

theorem toNetString_ok {text : List UInt8} {str : NetString} (h : toNetString text s = .ok str s') :
    ∃ a input, str = ⟨text.length + 1, .block a (text ++ [0])⟩ ∧ s' = { s with input := input } := by
  obtain ⟨address, s₁, hmalloc, hsome⟩ := bind_eq_ok.mp h
  obtain ⟨input, -, rfl⟩ := onPart_eq_ok hmalloc
  cases address with
  | none => cases hsome
  | some a =>
    obtain ⟨rfl, rfl⟩ := EStateM.Result.ok.inj hsome
    exact ⟨a, input, rfl, rfl⟩

theorem writeEmptyError_ok (h : s.Open) (hrun : writeEmptyError s = .ok () s') :
    (∃ a, s'.output.accepted = s.output.accepted ++ okStatus a) ∧ s'.image = s.image ∧ s'.Open := by
  rw [writeEmptyError, bind_of_ok (get_run s), h.clean] at hrun
  obtain ⟨str, s₁, hstr, hanswer⟩ := bind_eq_ok.mp hrun
  obtain ⟨a, input, rfl, rfl⟩ := toNetString_ok hstr
  have hsends : Sends (slzString.write ⟨1, .block a [0]⟩) (okStatus a) :=
    sends_string (b := .block a [0]) (by simp [Buffer.block])
  obtain ⟨haccepted, himage, hopen⟩ := answer_ok hsends (h.input input) hanswer
  exact ⟨⟨a, haccepted⟩, himage, hopen⟩

/-- Whatever becomes of the connection, the status does not touch the image. -/
theorem writeEmptyError_image (hrun : writeEmptyError s = .ok () s') : s'.image = s.image := by
  have h := LeavesImage.writeEmptyError s
  rwa [hrun] at h

/-- A status alone. -/
theorem status_ok {t : FsOpType} (h : s.Open) (hp : Payload t .done [])
    (hrun : writeEmptyError s = .ok () s') : Answered s s' t .done ∧ s'.image = s.image := by
  obtain ⟨⟨a, haccepted⟩, himage, -⟩ := writeEmptyError_ok h hrun
  exact ⟨⟨_, ⟨a, [], hp, (List.append_nil _).symm⟩, haccepted⟩, himage⟩

/-- A status with a payload behind it. -/
theorem reply_ok {t : FsOpType} {r : Received} (h : s.Open) (hp : Payload t r w) (hx : Sends x w)
    (hrun : (writeEmptyError >>= fun _ => answer x) s = .ok () s') :
    Answered s s' t r ∧ s'.image = s.image := by
  obtain ⟨_, s₁, hstatus, hanswer⟩ := bind_eq_ok.mp hrun
  obtain ⟨⟨a, hfirst⟩, himage, hopen⟩ := writeEmptyError_ok h hstatus
  obtain ⟨haccepted, himage', -⟩ := answer_ok hx hopen hanswer
  refine ⟨⟨_, ⟨a, w, hp, rfl⟩, ?_⟩, himage'.trans himage⟩
  rw [haccepted, hfirst, List.append_assoc]

end Answers

/-! ## Paths -/

section Paths

variable {fds : FsDescriptors} {s s' : Server} {path : NetString} {α : Type} {a : α}

/-- The components are those of the request, whose path is a string. -/
theorem PathArg.components {q : Path} {cs : List (List UInt8)} (h : PathArg path q cs) {r : Request}
    (hr : path.chars = r.path) (h0 : 0 ∈ r.path) : r.components = cs := by
  obtain ⟨p, hp, -, hspells, -⟩ := h
  obtain ⟨w, hw⟩ := exists_cString h0
  have hpw := cString_of_take (hr ▸ hw)
  obtain rfl := Option.some.inj (hp.symm.trans hpw)
  exact components_of_spells hw hspells

theorem PathArg.splitsTo {q : Path} {cs : List (List UInt8)} (h : PathArg path q cs) :
    SplitsTo q cs := by
  obtain ⟨p, -, -, -, hs⟩ := h
  exact hs

theorem PathArg.zero_notMem {q : Path} {cs : List (List UInt8)} (h : PathArg path q cs) :
    ∀ w ∈ cs, 0 ∉ w := by
  obtain ⟨p, -, -, hspells, -⟩ := h
  exact fun w hw => (hspells.names w hw).2.2

theorem PathArg.length_lt {q : Path} {cs : List (List UInt8)} (h : PathArg path q cs) {r : Request}
    (hr : path.chars = r.path) (h0 : 0 ∈ r.path) (hlt : r.path.length < wordSize) :
    cs.length < wordSize := by
  obtain ⟨p, hp, -, hspells, -⟩ := h
  obtain ⟨w, hw⟩ := exists_cString h0
  have hpw := cString_of_take (hr ▸ hw)
  obtain rfl := Option.some.inj (hp.symm.trans hpw)
  have hle : p.length ≤ r.path.length := by
    rw [← takeWhile_of_cString hw]
    exact (List.takeWhile_sublist _).length_le
  exact (hspells.length_le.trans hle).trans_lt hlt

theorem locateArg_ok {k : ℕ → SrvM α}
    (h : (splitArg path >>= fun q => onImage (locatePath fds q) >>= k) s = .ok a s') :
    ∃ q cs n, PathArg path q cs ∧ locatePath fds q s.image = .ok n s.image ∧ k n s = .ok a s' := by
  obtain ⟨q, s₁, hsplit, hrest⟩ := bind_eq_ok.mp h
  obtain ⟨rfl, cs, hq⟩ := splitArg_ok hsplit
  obtain ⟨n, s₂, hlocate, hk⟩ := bind_eq_ok.mp hrest
  obtain ⟨img, hpath, rfl⟩ := onPart_eq_ok hlocate
  obtain rfl := (locatePath_readOnly fds q).state_eq hpath
  exact ⟨q, cs, n, hq, hpath, hk⟩

theorem parentArg_ok {k : ℕ → List UInt8 → SrvM α}
    (h : (splitArg path >>= fun q => onImage (locatePath fds (parentPath q)) >>= fun n =>
      onImage (Fs.liftExcept (q.part (parentPath q).count)) >>= k n) s = .ok a s') :
    ∃ q cs n w, PathArg path q cs ∧ locatePath fds (parentPath q) s.image = .ok n s.image ∧
      q.part (parentPath q).count = .ok w ∧ k n w s = .ok a s' := by
  obtain ⟨q, s₁, hsplit, hrest⟩ := bind_eq_ok.mp h
  obtain ⟨rfl, cs, hq⟩ := splitArg_ok hsplit
  obtain ⟨n, s₂, hlocate, hnamed⟩ := bind_eq_ok.mp hrest
  obtain ⟨img, hpath, rfl⟩ := onPart_eq_ok hlocate
  obtain rfl := (locatePath_readOnly fds (parentPath q)).state_eq hpath
  obtain ⟨w, s₃, hpart, hk⟩ := bind_eq_ok.mp hnamed
  obtain ⟨hw, rfl⟩ := liftArg_ok hpart
  exact ⟨q, cs, n, w, hq, hpath, hw, hk⟩

end Paths

/-! ## Handlers -/

section Handlers

variable {fds : FsDescriptors} {s s' : Server} {fuel : ℕ}

theorem fsopRead_ok {args : FsOpReadArgs} (h : s.Open) (hrun : fsopRead fds args s = .ok () s') :
    ∃ q cs n d, PathArg args.path q cs ∧ locatePath fds q s.image = .ok n s.image ∧
      readFile n args.offset args.length s.image = .ok d s.image ∧ args.length < 2 ^ 63 ∧
      Answered s s' .read (.read d) ∧ s'.image = s.image := by
  rw [fsopRead] at hrun
  obtain ⟨q, cs, n, hq, hpath, hbody⟩ := locateArg_ok hrun
  obtain ⟨address, s₁, hmalloc, hrest⟩ := bind_eq_ok.mp hbody
  cases address with
  | none => cases hrest
  | some a =>
    have hlen := malloc_lt hmalloc
    obtain ⟨input, -, rfl⟩ := onPart_eq_ok hmalloc
    obtain ⟨d, s₂, hcall, htail⟩ := bind_eq_ok.mp hrest
    obtain ⟨img, hread, rfl⟩ := onImage_eq_ok hcall
    obtain rfl := (readFile_readOnly n args.offset args.length).state_eq hread
    have hlt : d.length < 2 ^ 63 := Nat.lt_of_le_of_lt (readFile_length hread) hlen
    obtain ⟨hanswered, himage⟩ := reply_ok ((h.input input).image _) (.read (.block a d) hlt)
      (sends_string (b := .block a d) hlt) htail
    exact ⟨q, cs, n, d, hq, hpath, hread, hlen, hanswered, himage⟩

/-- What a Write that comes through has done before its status. -/
theorem fsopWrite_body {args : FsOpWriteArgs} (hrun : fsopWrite fuel fds args s = .ok () s') :
    ∃ q cs n img, PathArg args.path q cs ∧ locatePath fds q s.image = .ok n s.image ∧
      writeFile fuel n args.offset (args.data.bytes.take args.length) s.image = .ok () img ∧
      writeEmptyError { s with image := img } = .ok () s' := by
  rw [fsopWrite] at hrun
  obtain ⟨q, cs, n, hq, hpath, hbody⟩ := locateArg_ok hrun
  split at hbody
  · cases hbody
  · obtain ⟨_, s₁, hcall, hstatus⟩ := bind_eq_ok.mp hbody
    obtain ⟨img, hwrite, rfl⟩ := onImage_eq_ok hcall
    exact ⟨q, cs, n, img, hq, hpath, hwrite, hstatus⟩

theorem fsopWrite_ok {args : FsOpWriteArgs} (h : s.Open) (hrun : fsopWrite fuel fds args s = .ok () s') :
    ∃ q cs n, PathArg args.path q cs ∧ locatePath fds q s.image = .ok n s.image ∧
      writeFile fuel n args.offset (args.data.bytes.take args.length) s.image = .ok () s'.image ∧
      Answered s s' .write .done := by
  obtain ⟨q, cs, n, img, hq, hpath, hwrite, hstatus⟩ := fsopWrite_body hrun
  obtain ⟨hanswered, himage⟩ := status_ok (h.image img) .write hstatus
  exact ⟨q, cs, n, hq, hpath, by rw [himage]; exact hwrite, hanswered⟩

/-- What a Create that comes through has done before its status. -/
theorem fsopCreate_body {args : FsOpCreateArgs} (hrun : fsopCreate fuel fds args s = .ok () s') :
    ∃ q cs n w b img img', PathArg args.path q cs ∧
      locatePath fds (parentPath q) s.image = .ok n s.image ∧
      q.part (parentPath q).count = .ok w ∧ w.length < fileNameLength ∧
      initNewFile args.flags s.image = .ok b img ∧
      appendDirectory fuel n ⟨b, itemName w⟩ img = .ok () img' ∧
      writeEmptyError { s with image := img' } = .ok () s' := by
  rw [fsopCreate] at hrun
  obtain ⟨q, cs, n, w, hq, hpath, hpart, hbody⟩ := parentArg_ok hrun
  split at hbody
  · cases hbody
  · next hshort =>
    obtain ⟨b, s₁, hnew, hrest⟩ := bind_eq_ok.mp hbody
    obtain ⟨img, hinit, rfl⟩ := onImage_eq_ok hnew
    obtain ⟨_, s₂, hcall, hstatus⟩ := bind_eq_ok.mp hrest
    obtain ⟨img', happend, rfl⟩ := onImage_eq_ok hcall
    exact ⟨q, cs, n, w, b, img, img', hq, hpath, hpart, Nat.lt_of_not_le hshort, hinit, happend,
      hstatus⟩

theorem fsopCreate_ok {args : FsOpCreateArgs} (h : s.Open)
    (hrun : fsopCreate fuel fds args s = .ok () s') :
    ∃ q cs n w b img, PathArg args.path q cs ∧ locatePath fds (parentPath q) s.image = .ok n s.image ∧
      q.part (parentPath q).count = .ok w ∧ w.length < fileNameLength ∧
      initNewFile args.flags s.image = .ok b img ∧
      appendDirectory fuel n ⟨b, itemName w⟩ img = .ok () s'.image ∧ Answered s s' .create .done := by
  obtain ⟨q, cs, n, w, b, img, img', hq, hpath, hpart, hw, hinit, happend, hstatus⟩ :=
    fsopCreate_body hrun
  obtain ⟨hanswered, himage⟩ := status_ok (h.image img') .create hstatus
  exact ⟨q, cs, n, w, b, img, hq, hpath, hpart, hw, hinit, by rw [himage]; exact happend, hanswered⟩

theorem heapBlock_frame {bytes : List UInt8} {b : Buffer} (h : heapBlock bytes s = .ok b s') :
    ∃ input, s' = { s with input := input } := by
  obtain ⟨address, s₁, hmalloc, hrest⟩ := bind_eq_ok.mp h
  obtain ⟨input, -, rfl⟩ := onPart_eq_ok hmalloc
  cases address with
  | some a =>
    obtain ⟨-, rfl⟩ := EStateM.Result.ok.inj hrest
    exact ⟨input, rfl⟩
  | none =>
    simp only at hrest
    split at hrest
    · obtain ⟨-, rfl⟩ := EStateM.Result.ok.inj hrest
      exact ⟨input, rfl⟩
    · cases hrest

theorem fsopReadDir_ok {args : FsOpReadDirArgs} (h : s.Open)
    (hrun : fsopReadDir fds args s = .ok () s') :
    ∃ q cs n content, PathArg args.path q cs ∧ locatePath fds q s.image = .ok n s.image ∧
      readDirectory n s.image = .ok content s.image ∧
      Answered s s' .readDir (.readDir content.items) ∧ s'.image = s.image := by
  rw [fsopReadDir] at hrun
  obtain ⟨q, cs, n, hq, hpath, hbody⟩ := locateArg_ok hrun
  obtain ⟨content, s₁, hcall, hrest⟩ := bind_eq_ok.mp hbody
  obtain ⟨img, hread, rfl⟩ := onImage_eq_ok hcall
  obtain rfl := (readDirectory_readOnly n).state_eq hread
  obtain ⟨b, s₂, hblock, htail⟩ := bind_eq_ok.mp hrest
  obtain ⟨hbytes, hlt⟩ := heapBlock_ok hblock
  obtain ⟨input, rfl⟩ := heapBlock_frame hblock
  have hfit := readDirectory_ok hread
  rw [← hbytes] at hlt
  obtain ⟨hanswered, himage⟩ := reply_ok (h.input input)
    (.readDir content.items b hbytes hfit hlt) (sends_directory hbytes hfit hlt) htail
  exact ⟨q, cs, n, content, hq, hpath, hread, hanswered, himage⟩

theorem fsopStat_ok {args : FsOpStatArgs} (h : s.Open) (hrun : fsopStat fds args s = .ok () s') :
    ∃ q cs n size count blocks, PathArg args.path q cs ∧ locatePath fds q s.image = .ok n s.image ∧
      getFileSize n s.image = .ok size s.image ∧ getBlocksRequired size s.image = .ok count s.image ∧
      blocks.length = 8 * count ∧
      Answered s s' .stat (.stat size count blocks) ∧ s'.image = s.image := by
  rw [fsopStat] at hrun
  obtain ⟨q, cs, n, hq, hpath, hbody⟩ := locateArg_ok hrun
  obtain ⟨size, s₁, hcall, hrest⟩ := bind_eq_ok.mp hbody
  obtain ⟨img, hsize, rfl⟩ := onImage_eq_ok hcall
  obtain rfl := (getFileSize_readOnly n).state_eq hsize
  obtain ⟨count, s₂, hcall, hrest⟩ := bind_eq_ok.mp hrest
  obtain ⟨img, hcount, rfl⟩ := onImage_eq_ok hcall
  obtain rfl := (getBlocksRequired_readOnly size).state_eq hcount
  obtain ⟨trace, s₃, hcall, hrest⟩ := bind_eq_ok.mp hrest
  obtain ⟨img, htrace, rfl⟩ := onImage_eq_ok hcall
  obtain rfl := (traceFileBlocks_readOnly n).state_eq htrace
  obtain ⟨b, s₄, hblock, htail⟩ := bind_eq_ok.mp hrest
  obtain ⟨hbytes, hlt⟩ := heapBlock_ok hblock
  obtain ⟨input, rfl⟩ := heapBlock_frame hblock
  have hlen : b.bytes.length = 8 * count := by
    rw [hbytes, length_flatMap_leBytes, traceFileBlocks_ok hsize hcount htrace]
  rw [← hbytes] at hlt
  obtain ⟨ptr, img, -, hfield⟩ := bind_eq_ok.mp hsize
  obtain ⟨hanswered, himage⟩ := reply_ok (h.input input)
    (.stat size count b (getField_lt hfield) hlen hlt) (sends_response hlen hlt) htail
  exact ⟨q, cs, n, size, count, b.bytes, hq, hpath, hsize, hcount, hlen, hanswered, himage⟩

end Handlers

/-! ## Completed requests -/

/-- A thread of the server completes the request `r`, and the client gets `x`. -/
inductive Served (fds : FsDescriptors) : Image → Request → Received → Image → Prop
  | intro {fuel : ℕ} {op : NetFsOperation} {r : Request} {s s' : Server} {x : Received}
      {w : List UInt8} (carries : op.Carries r) (room : s.output.room = none)
      (run : dispatch fuel fds op s = .ok () s') (reply : Reply r.type x w)
      (sent : s'.output.accepted = s.output.accepted ++ w) : Served fds s.image r x s'.image

/-- The bytes of a reply say what the client gets. -/
theorem Reply.unique {t : FsOpType} {x y : Received} {w : List UInt8} (hx : Reply t x w)
    (hy : Reply t y w) : x = y := by
  have hpending : (byteByByte w).source.pending = w ++ [] := (List.append_nil w).symm
  have hgrants : (byteByByte w).heap.Grants (2 ^ 63 - 1) := byteByByte_grants w (by omega)
  obtain ⟨s, hrun, -⟩ := receive_run [] hx hpending hgrants
  obtain ⟨s', hrun', -⟩ := receive_run [] hy hpending hgrants
  exact (EStateM.Result.ok.inj (hrun.symm.trans hrun')).1

theorem dispatch_ok {fuel : ℕ} {fds : FsDescriptors} {op : NetFsOperation} {s s' : Server}
    (h : dispatch fuel fds op s = .ok () s') :
    processOperation fuel fds op { s with errorIntercepted := false } = .ok () s' := by
  rw [dispatch, bind_of_ok (modify_run _ s), intercepted] at h
  split at h
  · next hrun =>
    obtain ⟨-, rfl⟩ := EStateM.Result.ok.inj h
    exact hrun
  · exact (exited_ne_ok h).elim
  · cases h

/-- On a connection that takes everything a request that completes is served: the
bytes that were sent for it are a reply. -/
theorem Served.of_dispatch {fuel : ℕ} {fds : FsDescriptors} {op : NetFsOperation} {r : Request}
    {s s' : Server} (hc : op.Carries r) (hroom : s.output.room = none)
    (hgrants : s.input.heap.Grants (2 ^ 63 - 1)) (hrun : dispatch fuel fds op s = .ok () s') :
    ∃ x w, Reply r.type x w ∧ s'.output.accepted = s.output.accepted ++ w ∧
      Served fds s.image r x s'.image := by
  cases hc with
  | op t args full =>
    obtain ⟨x, w, hreply, -, haccepted, -⟩ := (dispatch_framed fuel fds t args hroom hgrants).1 s' hrun
    rw [← FsOpType.request_type t args] at hreply
    exact ⟨x, w, hreply, haccepted, .intro (.op t args full) hroom hrun hreply haccepted⟩

/-- The path of a carried request is shorter than the address space. -/
theorem NetFsOperation.Carries.path_lt {op : NetFsOperation} {r : Request} (h : op.Carries r) :
    r.path.length < wordSize := by
  have hchars : ∀ path : NetString, 1 * path.length < wordSize → path.chars.length < wordSize := by
    intro path hlt
    rw [NetString.chars, List.length_take]
    omega
  cases h with
  | op t args full =>
    cases t with
    | read => exact hchars (FsOpReadArgs.path args) (full _ List.mem_cons_self).fits
    | write => exact hchars (FsOpWriteArgs.path args) (full _ List.mem_cons_self).fits
    | create => exact hchars (FsOpCreateArgs.path args) (full _ List.mem_cons_self).fits
    | remove => exact hchars (FsOpPathArgs.path args) (full _ List.mem_cons_self).fits
    | stat => exact hchars (FsOpPathArgs.path args) (full _ List.mem_cons_self).fits
    | readDir => exact hchars (FsOpPathArgs.path args) (full _ List.mem_cons_self).fits

/-- The run of the handler behind a completed request; what it answered is what
the client gets. -/
theorem Served.run {fds : FsDescriptors} {img img' : Image} {r : Request} {x : Received}
    (h : Served fds img r x img') : ∃ (fuel : ℕ) (t : FsOpType) (args : t.Args) (s s' : Server),
      t.request args = r ∧ s.Open ∧ s.image = img ∧ s'.image = img' ∧ r.path.length < wordSize ∧
      processOperation fuel fds (.op t args) s = .ok () s' ∧ ∀ y, Answered s s' r.type y → x = y := by
  cases h with
  | @intro fuel op r s s' x w carries room run reply sent =>
    have hsame : ∀ y, Answered { s with errorIntercepted := false } s' r.type y → x = y := by
      rintro y ⟨w', hreply, haccepted⟩
      have hw : w = w' := List.append_cancel_left (sent.symm.trans haccepted)
      exact reply.unique (hw ▸ hreply)
    have hplt := carries.path_lt
    cases carries with
    | op t args full =>
      exact ⟨fuel, t, args, { s with errorIntercepted := false }, s', rfl, ⟨room, rfl⟩, rfl, rfl, hplt,
        dispatch_ok run, hsame⟩

/-- The path leads to a node that is a file and nothing else. -/
def FilePath (fds : FsDescriptors) (img : Image) (path : List UInt8) : Prop :=
  ∃ p q n, cString path = some p ∧ splitPath p = .ok q ∧ locatePath fds q img = .ok n img ∧
    (getInode n >>= getFlags) img = .ok flgFile img

theorem FilePath.located {fds : FsDescriptors} {img : Image} {path : NetString} {p : List UInt8}
    {q : Path} {cs : List (List UInt8)} {g : Geometry} {t : FileTree} (h : FilePath fds img p)
    (hq : PathArg path q cs) (hp : p = path.chars) (ht : Refines g img t) (hroot : fds.rootInode = g.root) :
    ∃ bytes, t.locate cs = some (.file () bytes) := by
  subst hp
  obtain ⟨w, q', n', hw, hq', hpath', hflags⟩ := h
  obtain ⟨w', hw', hsplit, hspells, hs⟩ := hq
  obtain rfl := Option.some.inj (hw'.symm.trans (cString_of_take hw))
  obtain rfl := Except.ok.inj (hsplit.symm.trans hq')
  exact ht.file_of_flags hroot hs (fun w hw => (hspells.names w hw).2.2) hpath' hflags

/-- A request about the tree of files: its path is a string, what it creates is a
file or a directory, and what it reads is a file. -/
structure Request.AboutTree (fds : FsDescriptors) (img : Image) (r : Request) : Prop where
  path : 0 ∈ r.path
  kind : match r with
    | .create _ flags => flags = flgFile ∨ flags = flgDirectory
    | .write _ _ data => data.length < 2 ^ 63
    | .read path _ length => length < 2 ^ 63 ∧ FilePath fds img path
    | .readDir _ => True
    | .remove _ => False
    | .stat _ => False

theorem Request.AboutTree.not_remove {fds : FsDescriptors} {img : Image} {r : Request}
    (h : r.AboutTree fds img) (path : List UInt8) : r ≠ .remove path := by
  rintro rfl
  exact h.kind

/-- What the client gets is what the tree says. -/
inductive Received.Agrees : Received → Answer → Prop
  | done : Agrees .done .done
  | data (bytes : List UInt8) : Agrees (.read bytes) (.data bytes)
  | names {items : List DirectoryItem} {names : List (List UInt8)}
      (named : List.Forall₂ (fun x item => cString item.name = some x) names items) :
      Agrees (.readDir items) (.names names)

/-- One request, seen by the tree. -/
theorem Served.refines {fds : FsDescriptors} {img img' : Image} {r : Request} {x : Received}
    {g : Geometry} {t : FileTree} (h : Served fds img r x img') (hr : r.AboutTree fds img)
    (ht : Refines g img t) (hroot : fds.rootInode = g.root) :
    ∃ t' a, t.next r = some t' ∧ t.answer r = some a ∧ x.Agrees a ∧ Refines g img' t' := by
  obtain ⟨fuel, type, args, s, s', rfl, hopen, rfl, rfl, hplt, hrun, hsame⟩ := h.run
  cases type with
  | write =>
    let args : FsOpWriteArgs := args
    obtain ⟨q, cs, n, hq, hpath, hwrite, hanswered⟩ := @fsopWrite_ok _ _ _ _ args hopen hrun
    have hcs := hq.components (r := .write args.path.chars args.offset
      (args.data.bytes.take args.length)) rfl hr.path
    obtain ⟨bytes, hfile, ho, href⟩ := ht.write hroot hq.splitsTo hq.zero_notMem hr.kind hpath hwrite
    obtain rfl := hsame _ hanswered
    rw [← hcs] at hfile href
    exact ⟨_, _, FileTree.next_write hfile ho, rfl, .done, href⟩
  | read =>
    let args : FsOpReadArgs := args
    obtain ⟨q, cs, n, d, hq, hpath, hread, hlen, hanswered, himage⟩ :=
      @fsopRead_ok _ _ _ args hopen hrun
    have hcs := hq.components (r := .read args.path.chars args.offset args.length) rfl hr.path
    obtain ⟨bytes, hfile⟩ := hr.kind.2.located hq rfl ht hroot
    have hd := ht.read hroot hq.splitsTo hq.zero_notMem hlen hpath hread hfile
    obtain rfl := hsame _ hanswered
    rw [← hcs] at hfile
    exact ⟨t, _, rfl, FileTree.answer_read hfile, hd ▸ .data d, by rw [himage]; exact ht⟩
  | create =>
    let args : FsOpCreateArgs := args
    obtain ⟨q, cs, n, name, b, img, hq, hpath, hpart, hshort, hinit, happend, hanswered⟩ :=
      @fsopCreate_ok _ _ _ _ args hopen hrun
    have hcs := hq.components (r := .create args.path.chars args.flags) rfl hr.path
    obtain rfl := hsame _ hanswered
    obtain rfl | ⟨ds, last, rfl⟩ := cs.eq_nil_or_concat
    · exact absurd hpath (locateParent_nil hq.splitsTo)
    rw [List.concat_eq_append] at hq hcs
    have hlt := hq.length_lt (r := .create args.path.chars args.flags) rfl hr.path hplt
    rw [List.length_append, List.length_singleton] at hlt
    obtain rfl := Except.ok.inj ((parentPath_name hq.splitsTo (by omega)).symm.trans hpart)
    obtain ⟨sub, hdir, href⟩ := ht.create hroot hq.splitsTo (by omega) hq.zero_notMem hshort hr.kind
      hpath hinit happend
    exact ⟨_, _, FileTree.next_create hcs hdir, rfl, .done, href⟩
  | readDir =>
    let args : FsOpReadDirArgs := args
    obtain ⟨q, cs, n, content, hq, hpath, hread, hanswered, himage⟩ :=
      @fsopReadDir_ok _ _ _ args hopen hrun
    have hcs := hq.components (r := .readDir args.path.chars) rfl hr.path
    obtain ⟨sub, hdir, hnames⟩ := ht.readDir hroot hq.splitsTo hq.zero_notMem hpath hread
    obtain rfl := hsame _ hanswered
    rw [← hcs] at hdir
    exact ⟨t, _, FileTree.next_readDir hdir, FileTree.answer_readDir hdir, .names hnames,
      by rw [himage]; exact ht⟩
  | remove => exact hr.kind.elim
  | stat => exact hr.kind.elim

end KisLinux.Net
