import KisLinux.FsReadOnly
import KisLinux.NetClient

/-!
# Framing of replies

Whatever a handler does on the image comes before its first byte on the
connection: `Quiet` programs are the ones that send nothing, and a handler is a
quiet program with a status and a payload behind it. So a handler that ends in an
error has sent nothing yet, and `fsop_error` sends the only status there is. The
other half of the state is the image: `LeavesImage` programs never touch it.
-/
namespace KisLinux.Net
open ByteMemory StateRun ShortTransfer Fs

/-- The connection of `s'` is where the one of `s` was. -/
structure Server.Silent (s s' : Server) : Prop where
  output : s'.output = s.output
  source : s'.input.source = s.input.source
  errorIntercepted : s'.errorIntercepted = s.errorIntercepted
  heap : ∀ bound, s.input.heap.Grants bound → s'.input.heap.Grants bound

theorem Server.Silent.refl (s : Server) : s.Silent s := ⟨rfl, rfl, rfl, fun _ h => h⟩

theorem Server.Silent.trans {s s' s'' : Server} (h : s.Silent s') (h' : s'.Silent s'') :
    s.Silent s'' :=
  ⟨h'.output.trans h.output, h'.source.trans h.source,
    h'.errorIntercepted.trans h.errorIntercepted, fun b hb => h'.heap b (h.heap b hb)⟩

/-- The program sends nothing, also when it stops. -/
def Quiet {α : Type} (x : SrvM α) : Prop :=
  ∀ s : Server, s.Silent (finalState (x s))

namespace Quiet

variable {α β : Type}

theorem pure (a : α) : Quiet (pure a : SrvM α) := fun s => .refl s

theorem throw (e : Stop) : Quiet (throw e : SrvM α) := fun s => .refl s

theorem bind {x : SrvM α} {f : α → SrvM β} (hx : Quiet x) (hf : ∀ a, Quiet (f a)) :
    Quiet (x >>= f) := fun s =>
  Keeps.bind (P := fun t => s.Silent t) (fun t ht => ht.trans (hx t))
    (fun a t ht => ht.trans (hf a t)) s (.refl s)

theorem onImage (x : FsM α) : Quiet (onImage x) := fun s => by
  rw [Net.onImage, onPart_finalState]
  exact ⟨rfl, rfl, rfl, fun _ h => h⟩

theorem malloc (n : ℕ) : Quiet (onInput (malloc n)) := fun s => by
  rw [onInput, onPart_finalState]
  exact ⟨rfl, rfl, rfl, fun _ h => h.next⟩

theorem splitArg (path : NetString) : Quiet (splitArg path) := by
  unfold Net.splitArg
  cases cString path.string.bytes with
  | none => exact throw _
  | some s => exact onImage _

theorem heapBlock (bytes : List UInt8) : Quiet (heapBlock bytes) := by
  refine bind (malloc _) fun address => ?_
  cases address with
  | some a => exact pure _
  | none =>
    simp only
    split
    · exact pure _
    · exact throw _

end Quiet

/-- The image stays as it is, also when the thread stops. -/
def LeavesImage {α : Type} (x : SrvM α) : Prop := ∀ s, (finalState (x s)).image = s.image

namespace LeavesImage

variable {α β : Type} {x : SrvM α}

theorem pure (a : α) : LeavesImage (pure a) := fun _ => rfl

theorem throw (e : Stop) : LeavesImage (throw e : SrvM α) := fun _ => rfl

theorem bind {f : α → SrvM β} (hx : LeavesImage x) (hf : ∀ a, LeavesImage (f a)) :
    LeavesImage (x >>= f) := fun s =>
  Keeps.bind (P := fun t => t.image = s.image) (fun t ht => (hx t).trans ht)
    (fun a t ht => (hf a t).trans ht) s rfl

theorem onInput (y : InM α) : LeavesImage (onInput y) := fun s => by
  rw [Net.onInput, onPart_finalState]

theorem onOutput (y : OutM α) : LeavesImage (onOutput y) := fun s => by
  rw [Net.onOutput, onPart_finalState]

theorem onImage {y : FsM α} (h : ReadOnly y) : LeavesImage (onImage y) := fun s => by
  rw [Net.onImage, onPart_finalState]
  exact h s.image

theorem answer (y : OutM Bool) : LeavesImage (answer y) := by
  refine bind (onOutput y) fun ok => ?_
  split
  · exact pure ()
  · exact throw _

theorem toNetString (text : List UInt8) : LeavesImage (toNetString text) := by
  refine bind (onInput _) fun address => ?_
  cases address with
  | none => exact throw _
  | some a => exact pure _

theorem heapBlock (bytes : List UInt8) : LeavesImage (heapBlock bytes) := by
  refine bind (onInput _) fun address => ?_
  cases address with
  | some a => exact pure _
  | none =>
    simp only
    split
    · exact pure _
    · exact throw _

theorem writeEmptyError : LeavesImage writeEmptyError := by
  refine bind (fun _ => rfl) fun s => ?_
  split
  · exact pure ()
  · exact bind (toNetString _) fun str => answer _

theorem fsopError (e : FsError) : LeavesImage (fsopError e) := by
  intro s
  rw [Net.fsopError, bind_of_ok (get_run s)]
  split
  · rfl
  · rw [bind_of_ok (set_run _ s)]
    refine bind (toNetString (reported e)) (fun str => ?_) { s with errorIntercepted := true }
    split
    · exact throw _
    · exact answer _

theorem splitArg (path : NetString) : LeavesImage (splitArg path) := by
  unfold Net.splitArg
  cases cString path.string.bytes with
  | none => exact throw _
  | some p => exact onImage (liftExcept_readOnly _)

end LeavesImage

/-- The connection takes everything, no error was sent, and no allocation fails. -/
structure Server.Ready (s : Server) : Prop where
  room : s.output.room = none
  clean : s.errorIntercepted = false
  grants : s.input.heap.Grants (2 ^ 63 - 1)

theorem Server.Ready.silent {s s' : Server} (h : s.Ready) (hs : s.Silent s') : s'.Ready where
  room := by rw [hs.output, h.room]
  clean := by rw [hs.errorIntercepted, h.clean]
  grants := hs.heap _ h.grants

/-- The server sent the bytes `w` and can go on. -/
structure Server.Sent (s s' : Server) (w : List UInt8) : Prop where
  accepted : s'.output.accepted = s.output.accepted ++ w
  source : s'.input.source = s.input.source
  image : s'.image = s.image
  room : s'.output.room = none
  grants : s'.input.heap.Grants (2 ^ 63 - 1)

section Answers

variable {s : Server}

theorem malloc_granted {n : ℕ} (hn : n < 2 ^ 63) (h : s.Ready) :
    ∃ a s', onInput (malloc n) s = .ok (some a) s' ∧ s.Silent s' ∧ s'.image = s.image := by
  obtain ⟨a, ha⟩ := h.grants 0 n (by omega)
  have hmalloc : malloc n s.input = .ok (some a) { s.input with heap := s.input.heap.next } := by
    rw [malloc, ha]
  have hrun := onInput_of_ok hmalloc
  have hquiet := Quiet.malloc n s
  rw [hrun] at hquiet
  exact ⟨a, _, hrun, hquiet, rfl⟩

/-- An allocation that was granted was for less than a signed length can say. -/
theorem malloc_lt {n : ℕ} {a : ℕ+} {s' : Server} (h : onInput (malloc n) s = .ok (some a) s') :
    n < 2 ^ 63 := by
  obtain ⟨t, hrun, -⟩ := onPart_eq_ok h
  obtain ⟨ha, -⟩ := EStateM.Result.ok.inj hrun
  exact s.input.heap.granted_lt 0 n a ha

theorem toNetString_run (text : List UInt8) (ht : text.length + 1 < 2 ^ 63) (h : s.Ready) :
    ∃ a s', toNetString text s = .ok ⟨text.length + 1, .block a (text ++ [0])⟩ s' ∧ s.Silent s' ∧
      s'.image = s.image := by
  obtain ⟨a, s', hrun, hsilent, himage⟩ := malloc_granted ht h
  exact ⟨a, s', bind_of_ok hrun, hsilent, himage⟩

theorem answer_run {x : OutM Bool} {w : List UInt8} (hx : Sends x w) (hroom : s.output.room = none)
    (hgrants : s.input.heap.Grants (2 ^ 63 - 1)) :
    ∃ s', answer x s = .ok () s' ∧ s.Sent s' w ∧ s'.errorIntercepted = s.errorIntercepted := by
  obtain ⟨out, hrun, haccepted, hroom'⟩ := hx.run_open hroom
  refine ⟨{ s with output := out }, ?_, ⟨haccepted, rfl, rfl, hroom', hgrants⟩, rfl⟩
  rw [answer, bind_of_ok (onOutput_of_ok hrun), if_pos rfl, pure_run]

theorem sends_string {b : Buffer} (h : b.bytes.length < 2 ^ 63) :
    Sends (slzString.write ⟨b.bytes.length, b⟩) (slzString.wire ⟨b.bytes.length, b⟩) :=
  Serializer.write_sends (full_string h)

theorem writeEmptyError_run (h : s.Ready) :
    ∃ a s', writeEmptyError s = .ok () s' ∧ s.Sent s' (okStatus a) ∧ s'.Ready := by
  obtain ⟨a, s₁, hrun, hsilent, himage⟩ := toNetString_run [] (by simp) h
  have hready := h.silent hsilent
  obtain ⟨s', hanswer, hsent, hclean⟩ := answer_run
    (sends_string (b := .block a [0]) (by simp [Buffer.block])) hready.room hready.grants
  refine ⟨a, s', ?_, ⟨?_, ?_, ?_, hsent.room, hsent.grants⟩,
    ⟨hsent.room, by rw [hclean, hready.clean], hsent.grants⟩⟩
  · rw [writeEmptyError, bind_of_ok (get_run s), h.clean]
    exact (bind_of_ok hrun).trans hanswer
  · rw [hsent.accepted, hsilent.output]
    rfl
  · rw [hsent.source, hsilent.source]
  · rw [hsent.image, himage]

theorem reported_spec (e : FsError) : reported e ≠ [] ∧ (reported e).length + 1 < 2 ^ 63 := by
  cases e <;> decide

/-- The text of an error is put together while the flag is set. -/
theorem toNetString_marked {text : List UInt8} (ht : text.length + 1 < 2 ^ 63) (h : s.Ready) :
    ∃ a t, toNetString text { s with errorIntercepted := true } =
      .ok ⟨text.length + 1, .block a (text ++ [0])⟩ t ∧
      ({ s with errorIntercepted := true } : Server).Silent t ∧ t.image = s.image := by
  obtain ⟨a, ha⟩ := h.grants 0 (text.length + 1) (by omega)
  have hmalloc : malloc (text.length + 1) s.input =
      .ok (some a) { s.input with heap := s.input.heap.next } := by rw [malloc, ha]
  have hrun := onInput_of_ok (s := { s with errorIntercepted := true }) hmalloc
  have hquiet := Quiet.malloc (text.length + 1) { s with errorIntercepted := true }
  rw [hrun] at hquiet
  exact ⟨a, _, bind_of_ok hrun, hquiet, rfl⟩

theorem fsopError_run {e : FsError} (he : e ≠ .memory) (h : s.Ready) :
    ∃ w s', fsopError e s = .ok () s' ∧ Refusal (reported e) w ∧ s.Sent s' w := by
  obtain ⟨hne, ht⟩ := reported_spec e
  obtain ⟨a, t, hrun, hsilent, himage⟩ := toNetString_marked ht h
  have hlen : (Buffer.block a (reported e ++ [0])).bytes.length = (reported e).length + 1 := by
    simp [Buffer.block]
  obtain ⟨s', hanswer, hsent, -⟩ := answer_run (s := t)
    (sends_string (b := .block a (reported e ++ [0])) (by rw [hlen]; exact ht))
    (by rw [hsilent.output]; exact h.room) (hsilent.heap _ h.grants)
  refine ⟨_, s', ?_, ⟨hne, ht, a, rfl⟩, ⟨?_, ?_, ?_, hsent.room, hsent.grants⟩⟩
  · rw [fsopError, bind_of_ok (get_run s), h.clean]
    refine (bind_of_ok (set_run { s with errorIntercepted := true } s)).trans ?_
    rw [bind_of_ok hrun, if_neg he]
    rw [hlen] at hanswer
    exact hanswer
  · rw [hsent.accepted, hsilent.output, hlen]
  · rw [hsent.source, hsilent.source]
  · rw [hsent.image, himage]

/-- Nothing is sent for an allocation that failed. -/
theorem fsopError_memory (h : s.Ready) :
    ∃ s', fsopError .memory s = .error (.die .memory) s' ∧ s.Sent s' [] := by
  obtain ⟨a, t, hrun, hsilent, himage⟩ := toNetString_marked (reported_spec .memory).2 h
  refine ⟨t, ?_, ⟨?_, hsilent.source, himage, ?_, hsilent.heap _ h.grants⟩⟩
  · rw [fsopError, bind_of_ok (get_run s), h.clean]
    refine (bind_of_ok (set_run { s with errorIntercepted := true } s)).trans ?_
    rw [bind_of_ok hrun, if_pos rfl]
    rfl
  · rw [hsilent.output, List.append_nil]
  · rw [hsilent.output]
    exact h.room

/-- On a connection that takes everything only the thread ends. -/
theorem exited_ready {α : Type} (e : FsError) (h : s.Ready) :
    (exited e (fsopError e s) : EStateM.Result Stop Server α) =
      .error (.die e) (finalState (fsopError e s)) := by
  by_cases he : e = .memory
  · subst he
    obtain ⟨s', hrun, -⟩ := fsopError_memory h
    rw [hrun]
    rfl
  · obtain ⟨w, s', hrun, -⟩ := fsopError_run he h
    rw [hrun]
    rfl

end Answers

/-- What the handler of `t` has sent when it is done and when it stops. -/
structure FramedAt (t : FsOpType) (x : SrvM Unit) (s : Server) : Prop where
  ok : ∀ s', x s = .ok () s' → ∃ r w, Reply t r w ∧ s'.Ready ∧
    s'.output.accepted = s.output.accepted ++ w ∧ s'.input.source = s.input.source
  stop : ∀ e s', x s = .error e s' → s.Silent s'

namespace FramedAt

variable {t : FsOpType} {s : Server}

theorem throw (e : Stop) : FramedAt t (throw e) s where
  ok := fun _ h => by cases h
  stop := fun _ _ h => by
    obtain ⟨-, rfl⟩ := EStateM.Result.error.inj h
    exact .refl s

theorem bind {α : Type} {x : SrvM α} {f : α → SrvM Unit} (hs : s.Ready) (hx : Quiet x)
    (hf : ∀ a s', x s = .ok a s' → s'.Ready → FramedAt t (f a) s') : FramedAt t (x >>= f) s := by
  have hsilent := hx s
  cases hrun : x s with
  | ok a s₁ =>
    rw [hrun, finalState_ok] at hsilent
    have hrest := hf a s₁ hrun (hs.silent hsilent)
    constructor
    · intro s' h
      rw [bind_of_ok hrun] at h
      obtain ⟨r, w, hreply, hready, haccepted, hsource⟩ := hrest.ok s' h
      exact ⟨r, w, hreply, hready, by rw [haccepted, hsilent.output],
        by rw [hsource, hsilent.source]⟩
    · intro e s' h
      rw [bind_of_ok hrun] at h
      exact hsilent.trans (hrest.stop e s' h)
  | error e s₁ =>
    rw [hrun, finalState_error] at hsilent
    constructor
    · intro s' h
      rw [bind_of_error hrun] at h
      cases h
    · intro e' s' h
      rw [bind_of_error hrun] at h
      obtain ⟨-, rfl⟩ := EStateM.Result.error.inj h
      exact hsilent

/-- A status alone. -/
theorem status (hs : s.Ready) (hp : Payload t .done []) : FramedAt t writeEmptyError s := by
  obtain ⟨a, s₁, hrun, hsent, hready⟩ := writeEmptyError_run hs
  constructor
  · intro s' h
    rw [hrun] at h
    obtain ⟨-, rfl⟩ := EStateM.Result.ok.inj h
    exact ⟨.done, okStatus a, ⟨a, [], hp, (List.append_nil _).symm⟩, hready, hsent.accepted, hsent.source⟩
  · intro e s' h
    rw [hrun] at h
    cases h

/-- A status with a payload behind it. -/
theorem reply {r : Received} {p : List UInt8} {y : OutM Bool} (hs : s.Ready) (hp : Payload t r p)
    (hy : Sends y p) : FramedAt t (writeEmptyError >>= fun _ => answer y) s := by
  obtain ⟨a, s₁, hrun, hsent, hready⟩ := writeEmptyError_run hs
  obtain ⟨s₂, hanswer, hsent₂, hclean⟩ := answer_run hy hready.room hready.grants
  constructor
  · intro s' h
    rw [bind_of_ok hrun, hanswer] at h
    obtain ⟨-, rfl⟩ := EStateM.Result.ok.inj h
    refine ⟨r, okStatus a ++ p, ⟨a, p, hp, rfl⟩,
      ⟨hsent₂.room, by rw [hclean, hready.clean], hsent₂.grants⟩, ?_, ?_⟩
    · rw [hsent₂.accepted, hsent.accepted, List.append_assoc]
    · rw [hsent₂.source, hsent.source]
  · intro e s' h
    rw [bind_of_ok hrun, hanswer] at h
    cases h

end FramedAt

/-! ## The handlers -/

section Handlers

variable {s s' : Server} {α : Type}

theorem onImage_eq_ok {x : FsM α} {a : α} (h : onImage x s = .ok a s') :
    ∃ img, x s.image = .ok a img ∧ s' = { s with image := img } := onPart_eq_ok h

theorem readLoop_length {fuel len : ℕ} {c : Cursor} {img img' : Image} {d : List UInt8}
    (h : readLoop fuel c len img = .ok d img') : d.length = len := by
  induction fuel generalizing c len img d img' with
  | zero =>
    rw [readLoop] at h
    by_cases hlen : len = 0
    · rw [if_pos hlen] at h
      obtain ⟨rfl, -⟩ := EStateM.Result.ok.inj h
      exact hlen.symm
    · rw [if_neg hlen] at h
      cases h
  | succ fuel ih =>
    rw [readLoop] at h
    by_cases hlen : len = 0
    · rw [if_pos hlen] at h
      obtain ⟨rfl, -⟩ := EStateM.Result.ok.inj h
      exact hlen.symm
    · rw [if_neg hlen] at h
      obtain ⟨bs, img₁, -, h⟩ := bind_eq_ok.mp h
      obtain ⟨block, img₂, -, h⟩ := bind_eq_ok.mp h
      obtain ⟨chunk, img₃, hload, h⟩ := bind_eq_ok.mp h
      have hchunk : chunk.length = min (wsub (wsub bs c.blockInodeOffset) c.offset) len := by
        rw [(load_ok hload).1, slice_length]
      split at h
      · next hdone =>
        obtain ⟨rfl, -⟩ := EStateM.Result.ok.inj h
        omega
      · obtain ⟨next, img₄, -, h⟩ := bind_eq_ok.mp h
        obtain ⟨inode, img₅, -, h⟩ := bind_eq_ok.mp h
        obtain ⟨rest, img₆, hrest, h⟩ := bind_eq_ok.mp h
        obtain ⟨rfl, -⟩ := EStateM.Result.ok.inj h
        rw [List.length_append, hchunk, ih hrest]
        omega

/-- `read_file` returns no more than it was asked for, and a read of the whole
file everything. -/
theorem readFile_length {n o len : ℕ} {img img' : Image} {d : List UInt8}
    (h : readFile n o len img = .ok d img') : d.length ≤ len := by
  rw [readFile] at h
  split at h
  · obtain ⟨rfl, -⟩ := EStateM.Result.ok.inj h
    exact Nat.zero_le _
  · obtain ⟨inode, img₁, -, h⟩ := bind_eq_ok.mp h
    obtain ⟨size, img₂, -, h⟩ := bind_eq_ok.mp h
    split at h
    · obtain ⟨rfl, -⟩ := EStateM.Result.ok.inj h
      exact Nat.zero_le _
    · split at h
      · cases h
      · obtain ⟨c, img₃, -, h⟩ := bind_eq_ok.mp h
        rw [readLoop_length h]
        have hmod := Nat.mod_le (o + len) wordSize
        split
        · next hlt =>
          rw [wadd] at hlt
          omega
        · exact Nat.le_refl _

theorem readFile_all {n size : ℕ} {inode : Ptr} {img img' : Image} {d : List UInt8}
    (hinode : getInode n img = .ok inode img) (hsize : getField inode sizeField img = .ok size img)
    (hlt : size < wordSize) (h : readFile n 0 size img = .ok d img') : d.length = size := by
  by_cases hzero : size = 0
  · have := readFile_length h
    omega
  · rw [readFile, if_neg hzero, bind_of_ok hinode, bind_of_ok hsize, if_neg (Ne.symm hzero),
      if_neg (Nat.not_lt_zero _)] at h
    obtain ⟨c, img₁, -, h⟩ := bind_eq_ok.mp h
    rw [readLoop_length h, wadd, Nat.zero_add, Nat.mod_eq_of_lt hlt, if_neg (Nat.lt_irrefl _)]

theorem getField_lt {inode : Ptr} {field v : ℕ} {img img' : Image}
    (h : getField inode field img = .ok v img') : v < wordSize := by
  obtain ⟨a, img₁, -, h⟩ := bind_eq_ok.mp h
  obtain ⟨hv, -⟩ := loadSize_ok h
  have hlt := leNat_lt (slice img₁.bytes (a + field) 8)
  rw [slice_length] at hlt
  rw [hv]
  exact hlt

/-- The items of a directory that could be read. -/
theorem readDirectory_ok {n : ℕ} {img img' : Image} {c : Fs.DirectoryContent}
    (h : readDirectory n img = .ok c img') : ∀ item ∈ c.items, item.Fits := by
  obtain ⟨inode, img₁, hinode, htail⟩ := bind_eq_ok.mp h
  obtain rfl := (getInode_readOnly n).state_eq hinode
  obtain ⟨flags, img₂, hflags, hrest⟩ := bind_eq_ok.mp htail
  obtain rfl := (getFlags_readOnly inode).state_eq hflags
  split at hrest
  · cases hrest
  · obtain ⟨size, img₃, hsize, hmore⟩ := bind_eq_ok.mp hrest
    obtain rfl := (getField_readOnly inode _).state_eq hsize
    split at hmore
    · cases hmore
    · next haligned =>
      obtain ⟨d, img₄, hread, hpure⟩ := bind_eq_ok.mp hmore
      obtain ⟨rfl, -⟩ := EStateM.Result.ok.inj hpure
      have hlen := readFile_all hinode hsize (getField_lt hsize) hread
      refine (encodeItems_decodeItems ?_).1
      rw [hlen, Nat.div_mul_cancel (Nat.dvd_of_mod_eq_zero (not_not.mp haligned))]

/-- The trace of a node has one entry for every block of its size. -/
theorem traceFileBlocks_ok {n size count : ℕ} {img img' : Image} {trace : BlockTrace}
    (hsize : getFileSize n img = .ok size img) (hcount : getBlocksRequired size img = .ok count img)
    (h : traceFileBlocks n img = .ok trace img') : (trace.stores.take trace.capacity).length = count := by
  obtain ⟨inode, img₁, hinode, hfield⟩ := bind_eq_ok.mp hsize
  obtain rfl := (getInode_readOnly n).state_eq hinode
  rw [traceFileBlocks, bind_of_ok hinode, bind_of_ok hfield, bind_of_ok hcount] at h
  obtain ⟨rest, img₂, hloop, h⟩ := bind_eq_ok.mp h
  obtain ⟨rfl, -⟩ := EStateM.Result.ok.inj h
  have hlen : ∀ (k : ℕ) (inode : Ptr) (img img' : Image) (l : List ℕ),
      traceLoop k inode img = .ok l img' → l.length = k := by
    intro k
    induction k with
    | zero =>
      intro inode img img' l hl
      obtain ⟨rfl, -⟩ := EStateM.Result.ok.inj hl
      rfl
    | succ k ih =>
      intro inode img img' l hl
      obtain ⟨next, t₁, -, hl⟩ := bind_eq_ok.mp hl
      obtain ⟨nextInode, t₂, -, hl⟩ := bind_eq_ok.mp hl
      obtain ⟨more, t₃, hmore, hl⟩ := bind_eq_ok.mp hl
      obtain ⟨rfl, -⟩ := EStateM.Result.ok.inj hl
      rw [List.length_cons, ih _ _ _ _ hmore]
  rw [List.length_take, List.length_cons, hlen _ _ _ _ _ hloop]
  exact Nat.min_eq_left (Nat.le_succ count)

theorem fsopRead_framed (fds : FsDescriptors) (args : FsOpReadArgs) (hs : s.Ready) :
    FramedAt .read (fsopRead fds args) s := by
  refine .bind hs (.splitArg _) fun path s₁ _ h₁ => .bind h₁ (.onImage _) fun inode s₂ _ h₂ =>
    .bind h₂ (.malloc _) fun data s₃ hmalloc h₃ => ?_
  cases data with
  | none => exact .throw _
  | some a =>
    refine .bind h₃ (.onImage _) fun read s₄ hread h₄ => ?_
    obtain ⟨img, hread, -⟩ := onImage_eq_ok hread
    have hlt : read.length < 2 ^ 63 := Nat.lt_of_le_of_lt (readFile_length hread) (malloc_lt hmalloc)
    exact .reply h₄ (.read (.block a read) hlt) (sends_string (b := .block a read) hlt)

theorem fsopWrite_framed (fuel : ℕ) (fds : FsDescriptors) (args : FsOpWriteArgs) (hs : s.Ready) :
    FramedAt .write (fsopWrite fuel fds args) s := by
  refine .bind hs (.splitArg _) fun path s₁ _ h₁ => .bind h₁ (.onImage _) fun inode s₂ _ h₂ => ?_
  split
  · exact .throw _
  · exact .bind h₂ (.onImage _) fun _ s₃ _ h₃ => .status h₃ .write

theorem fsopCreate_framed (fuel : ℕ) (fds : FsDescriptors) (args : FsOpCreateArgs) (hs : s.Ready) :
    FramedAt .create (fsopCreate fuel fds args) s := by
  refine .bind hs (.splitArg _) fun path s₁ _ h₁ => .bind h₁ (.onImage _) fun dirInode s₂ _ h₂ =>
    .bind h₂ (.onImage _) fun name s₃ _ h₃ => ?_
  split
  · exact .throw _
  · exact .bind h₃ (.onImage _) fun fileInode s₄ _ h₄ => .bind h₄ (.onImage _) fun _ s₅ _ h₅ =>
      .status h₅ .create

theorem fsopRemove_framed (fuel : ℕ) (fds : FsDescriptors) (args : FsOpRemoveArgs) (hs : s.Ready) :
    FramedAt .remove (fsopRemove fuel fds args) s := by
  exact .bind hs (.splitArg _) fun path s₁ _ h₁ => .bind h₁ (.onImage _) fun dirInode s₂ _ h₂ =>
    .bind h₂ (.onImage _) fun name s₃ _ h₃ => .bind h₃ (.onImage _) fun fileInode s₄ _ h₄ =>
    .bind h₄ (.onImage _) fun _ s₅ _ h₅ => .status h₅ .remove

/-- A block of the heap is shorter than a signed length can say, unless it is empty. -/
theorem heapBlock_ok {bytes : List UInt8} {b : Buffer} (h : heapBlock bytes s = .ok b s') :
    b.bytes = bytes ∧ bytes.length < 2 ^ 63 := by
  obtain ⟨address, s₁, hmalloc, h⟩ := bind_eq_ok.mp h
  cases address with
  | some a =>
    obtain ⟨rfl, -⟩ := EStateM.Result.ok.inj h
    exact ⟨rfl, malloc_lt hmalloc⟩
  | none =>
    simp only at h
    split at h
    · next hnil =>
      obtain ⟨rfl, -⟩ := EStateM.Result.ok.inj h
      subst hnil
      exact ⟨rfl, by simp⟩
    · cases h

theorem sends_response {size blocksCount : ℕ} {b : Buffer} (hb : b.bytes.length = 8 * blocksCount)
    (h : b.bytes.length < 2 ^ 63) : Sends (slzFsOpStatResponse.write ⟨size, blocksCount, b⟩)
      (slzFsOpStatResponse.wire ⟨size, blocksCount, b⟩) := by
  refine Serializer.write_sends fun f hf => ?_
  obtain rfl := List.mem_singleton.mp hf
  exact ⟨lt_wordSize (by simp only; omega), by simp only; omega⟩

theorem sends_directory {items : List DirectoryItem} {b : Buffer} (hb : b.bytes = encodeItems items)
    (hfit : ∀ item ∈ items, item.Fits) (h : b.bytes.length < 2 ^ 63) :
    Sends (slzDirectoryContent.write ⟨items.length, b⟩)
      (slzDirectoryContent.wire ⟨items.length, b⟩) := by
  have hlen := encodeItems_length hfit
  rw [← hb] at hlen
  refine Serializer.write_sends fun f hf => ?_
  obtain rfl := List.mem_singleton.mp hf
  exact ⟨lt_wordSize (by simp only; rw [Nat.mul_comm]; omega),
    by simp only; rw [Nat.mul_comm, hlen]⟩

theorem length_flatMap_leBytes (l : List ℕ) : (l.flatMap (leBytes 8)).length = 8 * l.length := by
  induction l with
  | nil => rfl
  | cons v l ih =>
    rw [List.flatMap_cons, List.length_append, leBytes_length, ih, List.length_cons]
    omega

theorem fsopStat_framed (fds : FsDescriptors) (args : FsOpStatArgs) (hs : s.Ready) :
    FramedAt .stat (fsopStat fds args) s := by
  refine .bind hs (.splitArg _) fun path s₁ _ h₁ => .bind h₁ (.onImage _) fun inode s₂ _ h₂ =>
    .bind h₂ (.onImage _) fun size s₃ hsize h₃ => .bind h₃ (.onImage _) fun count s₄ hcount h₄ =>
    .bind h₄ (.onImage _) fun trace s₅ htrace h₅ => .bind h₅ (.heapBlock _) fun b s₆ hblock h₆ => ?_
  -- all three numbers are read from one image, so that the array has the length that is sent
  obtain ⟨img, hsize', hs₃⟩ := onImage_eq_ok hsize
  obtain rfl := (getFileSize_readOnly inode).state_eq hsize'
  obtain ⟨img', hcount', hs₄⟩ := onImage_eq_ok hcount
  have himg' := (getBlocksRequired_readOnly size).state_eq hcount'
  obtain ⟨img'', htrace', -⟩ := onImage_eq_ok htrace
  rw [himg', hs₃] at hcount'
  rw [hs₄, himg', hs₃] at htrace'
  obtain ⟨hbytes, hlt⟩ := heapBlock_ok hblock
  have hlen : b.bytes.length = 8 * count := by
    rw [hbytes, length_flatMap_leBytes, traceFileBlocks_ok hsize' hcount' htrace']
  rw [← hbytes] at hlt
  obtain ⟨ptr, img₁, -, hfield⟩ := bind_eq_ok.mp hsize'
  exact .reply h₆ (.stat size count b (getField_lt hfield) hlen hlt) (sends_response hlen hlt)

theorem fsopReadDir_framed (fds : FsDescriptors) (args : FsOpReadDirArgs) (hs : s.Ready) :
    FramedAt .readDir (fsopReadDir fds args) s := by
  refine .bind hs (.splitArg _) fun path s₁ _ h₁ => .bind h₁ (.onImage _) fun dirInode s₂ _ h₂ =>
    .bind h₂ (.onImage _) fun content s₃ hread h₃ => .bind h₃ (.heapBlock _) fun b s₄ hblock h₄ => ?_
  obtain ⟨img, hread, -⟩ := onImage_eq_ok hread
  obtain ⟨hbytes, hlt⟩ := heapBlock_ok hblock
  have hfit := readDirectory_ok hread
  rw [← hbytes] at hlt
  exact .reply h₄ (.readDir content.items b hbytes hfit hlt) (sends_directory hbytes hfit hlt)

theorem processOperation_framed (fuel : ℕ) (fds : FsDescriptors) (t : FsOpType) (args : t.Args)
    (hs : s.Ready) : FramedAt t (processOperation fuel fds (.op t args)) s := by
  cases t with
  | read => exact fsopRead_framed fds args hs
  | write => exact fsopWrite_framed fuel fds args hs
  | create => exact fsopCreate_framed fuel fds args hs
  | remove => exact fsopRemove_framed fuel fds args hs
  | stat => exact fsopStat_framed fds args hs
  | readDir => exact fsopReadDir_framed fds args hs

end Handlers

end KisLinux.Net
