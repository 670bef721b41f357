import KisLinux.FsDirectoryItems
import KisLinux.NetBackend
import KisLinux.NetRoundTrip

/-!
# The client's side

`main_cli.c` reads one status string for every operation and then, for some of
them, one payload. `Reply` and `Refusal` are the byte strings that such a read
is made for; the client takes exactly them and leaves the rest of the stream.
-/
namespace KisLinux.Net
open ByteMemory StateRun ShortTransfer Fs

/-- What a client command ends with. -/
inductive Received
  | connectionProblems
  | refused (message : List UInt8)
  | done
  | read (data : List UInt8)
  | stat (size blocksCount : ℕ) (blocks : List UInt8)
  | readDir (items : List DirectoryItem)
  deriving DecidableEq, Repr

/-- `read_error`; `none` is success. -/
def readError (old : List UInt8) : InM (Option Received) := do
  let r ← slzString.read (slzString.ofImage old)
  if r.1 = false then pure (some .connectionProblems)
  else if wsub r.2.length 1 ≠ 0 then pure (some (.refused r.2.chars))
  else pure none

/-- What `perform_read`, `stat` and `ls` read behind the status. -/
def readPayload (old : List UInt8) : FsOpType → InM Received
  | .read => do
    let r ← slzString.read (slzString.ofImage old)
    if r.1 then pure (.read r.2.chars) else pure .connectionProblems
  | .stat => do
    let r ← slzFsOpStatResponse.read (slzFsOpStatResponse.ofImage old)
    if r.1 then pure (.stat r.2.size r.2.blocksCount r.2.blocks.bytes)
    else pure .connectionProblems
  | .readDir => do
    let r ← slzDirectoryContent.read (slzDirectoryContent.ofImage old)
    if r.1 then pure (.readDir (decodeItems r.2.itemsCount r.2.items.bytes))
    else pure .connectionProblems
  | _ => pure .done

def receive (old : List UInt8) (t : FsOpType) : InM Received := do
  let err ← readError old
  match err with
  | some x => pure x
  | none => readPayload old t

/-- The status string of an operation that was completed. -/
def okStatus (a : ℕ+) : List UInt8 := slzString.wire ⟨1, .block a [0]⟩

/-- The status string of an operation that ended in `die` or `die_fatal`. -/
def Refusal (message w : List UInt8) : Prop :=
  message ≠ [] ∧ message.length + 1 < 2 ^ 63 ∧
    ∃ a, w = slzString.wire ⟨message.length + 1, .block a (message ++ [0])⟩

/-- The payload that carries a result. -/
inductive Payload : FsOpType → Received → List UInt8 → Prop
  | read (b : Buffer) (fits : b.bytes.length < 2 ^ 63) :
      Payload .read (.read b.bytes) (slzString.wire ⟨b.bytes.length, b⟩)
  | stat (size blocksCount : ℕ) (b : Buffer) (size_lt : size < wordSize)
      (filled : b.bytes.length = 8 * blocksCount) (fits : b.bytes.length < 2 ^ 63) :
      Payload .stat (.stat size blocksCount b.bytes)
        (slzFsOpStatResponse.wire ⟨size, blocksCount, b⟩)
  | readDir (items : List DirectoryItem) (b : Buffer) (filled : b.bytes = encodeItems items)
      (items_fit : ∀ item ∈ items, item.Fits) (fits : b.bytes.length < 2 ^ 63) :
      Payload .readDir (.readDir items) (slzDirectoryContent.wire ⟨items.length, b⟩)
  | write : Payload .write .done []
  | create : Payload .create .done []
  | remove : Payload .remove .done []

/-- One status string and, behind it, the payload of the operation. -/
def Reply (t : FsOpType) (x : Received) (w : List UInt8) : Prop :=
  ∃ a p, Payload t x p ∧ w = okStatus a ++ p

section Receive

variable {s : Input} {rest : List UInt8} {b : Buffer} (old : List UInt8)

theorem lt_wordSize {n : ℕ} (h : n < 2 ^ 63) : n < wordSize := by
  rw [wordSize]
  omega

theorem full_string (h : b.bytes.length < 2 ^ 63) :
    ∀ f ∈ slzString.arrays, f.Full ⟨b.bytes.length, b⟩ := by
  intro f hf
  obtain rfl := List.mem_singleton.mp hf
  refine ⟨?_, ?_⟩
  · simpa using lt_wordSize h
  · simp

/-- A string on the stream is read back. -/
theorem slzString_read (h : b.bytes.length < 2 ^ 63)
    (hs : s.source.pending = slzString.wire ⟨b.bytes.length, b⟩ ++ rest)
    (hheap : s.heap.Grants (2 ^ 63 - 1)) (v : NetString) :
    ∃ w s', slzString.read v s = .ok (true, w) s' ∧ w.length = b.bytes.length ∧ w.chars = b.bytes ∧
      s'.source.pending = rest ∧ s'.heap.Grants (2 ^ 63 - 1) := by
  have hfull := full_string h
  have hstring := hfull _ (List.mem_singleton_self _)
  obtain ⟨w, s', hrun, hfills, hpending, hheap'⟩ := Serializer.read_run hfull hs hheap
    (fun f hf => by
      obtain rfl := List.mem_singleton.mp hf
      simp only [Nat.one_mul]
      omega) v
  refine ⟨w, s', hrun, ?_, ?_, hpending, hheap'⟩
  · cases hfills with
    | cons b' elements more =>
      cases more
      rfl
  · cases hfills with
    | cons b' elements more =>
      cases more
      obtain ⟨-, hchars⟩ := refill_take hstring.fits hstring.filled elements
      rw [NetString.chars]
      exact hchars.trans (List.take_length ..)

theorem readError_ok {a : ℕ+} (hs : s.source.pending = okStatus a ++ rest)
    (hheap : s.heap.Grants (2 ^ 63 - 1)) :
    ∃ s', readError old s = .ok none s' ∧ s'.source.pending = rest ∧
      s'.heap.Grants (2 ^ 63 - 1) := by
  obtain ⟨w, s', hrun, hlen, -, hpending, hheap'⟩ := slzString_read
    (b := .block a [0]) (by simp [Buffer.block]) hs hheap (slzString.ofImage old)
  refine ⟨s', ?_, hpending, hheap'⟩
  have hone : wsub (Buffer.block a [0]).bytes.length 1 = 0 := by simp [Buffer.block, wsub]
  rw [readError, bind_of_ok hrun]
  simp only [Bool.true_eq_false, if_false, hlen, hone, ne_eq, not_true, pure_run]

theorem receive_refused {message w : List UInt8} (hw : Refusal message w) (t : FsOpType)
    (hs : s.source.pending = w ++ rest) (hheap : s.heap.Grants (2 ^ 63 - 1)) :
    ∃ s', receive old t s = .ok (.refused (message ++ [0])) s' ∧ s'.source.pending = rest := by
  obtain ⟨hne, hlt, a, rfl⟩ := hw
  have hlen : (Buffer.block a (message ++ [0])).bytes.length = message.length + 1 := by
    simp [Buffer.block]
  obtain ⟨w, s', hrun, hlength, hchars, hpending, -⟩ := slzString_read
    (b := .block a (message ++ [0])) (by rw [hlen]; exact hlt) (by rw [hlen]; exact hs) hheap
    (slzString.ofImage old)
  have hpos := List.length_pos_iff.mpr hne
  have hsub : wsub w.length 1 ≠ 0 := by
    rw [hlength, hlen, wsub, wordSize]
    omega
  have herr : readError old s = .ok (some (.refused (message ++ [0]))) s' := by
    rw [readError, bind_of_ok hrun]
    simp only [Bool.true_eq_false, if_false, if_pos hsub, hchars]
    rfl
  exact ⟨s', by rw [receive, bind_of_ok herr]; rfl, hpending⟩

theorem readPayload_run {t : FsOpType} {x : Received} {p : List UInt8} (hp : Payload t x p)
    (hs : s.source.pending = p ++ rest) (hheap : s.heap.Grants (2 ^ 63 - 1)) :
    ∃ s', readPayload old t s = .ok x s' ∧ s'.source.pending = rest ∧
      s'.heap.Grants (2 ^ 63 - 1) := by
  cases hp with
  | read b fits =>
    obtain ⟨w, s', hrun, -, hchars, hpending, hheap'⟩ :=
      slzString_read fits hs hheap (slzString.ofImage old)
    exact ⟨s', by rw [readPayload, bind_of_ok hrun, if_pos rfl, hchars, pure_run], hpending, hheap'⟩
  | stat size blocksCount b size_lt filled fits =>
    have hfull : ∀ f ∈ slzFsOpStatResponse.arrays, f.Full ⟨size, blocksCount, b⟩ := by
      intro f hf
      obtain rfl := List.mem_singleton.mp hf
      exact ⟨lt_wordSize (by simp only; omega), by simp only; omega⟩
    obtain ⟨w, s', hrun, hfills, hpending, hheap'⟩ := Serializer.read_run hfull hs hheap
      (fun f hf => by
        obtain rfl := List.mem_singleton.mp hf
        simp only
        omega) (slzFsOpStatResponse.ofImage old)
    have hsize : (slzFsOpStatResponse.ofImage
        (slzFsOpStatResponse.image ⟨size, blocksCount, b⟩)).size = size := by
      simp only [slzFsOpStatResponse, List.append_assoc]
      exact leNat_take _ _ size_lt
    generalize slzFsOpStatResponse.ofImage (slzFsOpStatResponse.image _) = start at hfills hsize
    have hblocks := (hfull _ (List.mem_singleton_self _)).elements_length
    refine ⟨s', ?_, hpending, hheap'⟩
    rw [readPayload, bind_of_ok hrun, if_pos rfl, pure_run]
    cases hfills with
    | cons b' elements more =>
      cases more
      have hbytes : b'.bytes = b.bytes := by
        rw [elements]
        refine List.take_of_length_le ?_
        simp only [wmul]
        rw [Nat.mod_eq_of_lt (lt_wordSize (by omega)), filled]
      rw [← hbytes, ← hsize]
  | readDir items b filled items_fit fits =>
    have hlength := encodeItems_length items_fit
    rw [← filled] at hlength
    have hfull : ∀ f ∈ slzDirectoryContent.arrays, f.Full ⟨items.length, b⟩ := by
      intro f hf
      obtain rfl := List.mem_singleton.mp hf
      exact ⟨lt_wordSize (by simp only; rw [Nat.mul_comm]; omega),
        by simp only; rw [Nat.mul_comm, hlength]⟩
    obtain ⟨w, s', hrun, hfills, hpending, hheap'⟩ := Serializer.read_run hfull hs hheap
      (fun f hf => by
        obtain rfl := List.mem_singleton.mp hf
        simp only
        rw [Nat.mul_comm]
        omega) (slzDirectoryContent.ofImage old)
    refine ⟨s', ?_, hpending, hheap'⟩
    rw [readPayload, bind_of_ok hrun, if_pos rfl, pure_run]
    cases hfills with
    | cons b' elements more =>
      cases more
      have hbytes : b'.bytes = b.bytes := by
        rw [elements]
        refine List.take_of_length_le ?_
        simp only [wmul]
        rw [Nat.mul_comm, Nat.mod_eq_of_lt (lt_wordSize (by omega)), hlength]
      rw [hbytes, filled, decodeItems_encodeItems items_fit]
  | write => exact ⟨s, rfl, hs, hheap⟩
  | create => exact ⟨s, rfl, hs, hheap⟩
  | remove => exact ⟨s, rfl, hs, hheap⟩

/-- The client takes a reply and nothing more. -/
theorem receive_run {t : FsOpType} {x : Received} {w : List UInt8} (hw : Reply t x w)
    (hs : s.source.pending = w ++ rest) (hheap : s.heap.Grants (2 ^ 63 - 1)) :
    ∃ s', receive old t s = .ok x s' ∧ s'.source.pending = rest ∧ s'.heap.Grants (2 ^ 63 - 1) := by
  obtain ⟨a, p, hp, rfl⟩ := hw
  rw [List.append_assoc] at hs
  obtain ⟨s₁, hrun, hpending, hheap₁⟩ := readError_ok old hs hheap
  obtain ⟨s', hrun', hpending', hheap'⟩ := readPayload_run old hp hpending hheap₁
  exact ⟨s', by rw [receive, bind_of_ok hrun]; exact hrun', hpending', hheap'⟩

end Receive

end KisLinux.Net
