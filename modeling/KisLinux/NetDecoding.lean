import KisLinux.NetPartial

/-!
# Decoded arrays

`_SLZ_ARRAY_READER_IMPL` multiplies the count that came with the element size in a
machine word, once for `malloc` and once for the transfer. The readers below keep a
log of the requests; the loops of `ls` and `stat` go over the count.
-/
namespace KisLinux.Net
open ByteMemory StateRun ShortTransfer Fs

variable {α : Type}

/-! ## Requests -/

/-- `_SLZ_ARRAY_READER_IMPL` that logs what it asks `malloc` for. -/
def slzArrayReadLogged (f : ArrayField α) (v : α) : EStateM Stop (Input × List ℕ) (Bool × α) := do
  let r ← unlogged (safeRead 8)
  let count := leNat (r.2 ++ (leBytes 8 (f.count v)).drop r.2.length)
  if r.1 = false then pure (false, f.set count (f.field v) v)
  else if count = 0 then pure (true, f.set count .null v)
  else do
    logEntry (wmul f.elemSize count)
    let address ← unlogged (malloc (wmul f.elemSize count))
    match address with
    | none => pure (false, f.set count .null v)
    | some a => do
      let r ← unlogged (safeRead (wmul f.elemSize count))
      pure (r.1, f.set count (.block a r.2) v)

def slzArraysReadLogged :
    List (ArrayField α) → α → EStateM Stop (Input × List ℕ) (Bool × α)
  | [], v => pure (true, v)
  | f :: fs, v => do
    let r ← slzArrayReadLogged f v
    if r.1 then slzArraysReadLogged fs r.2 else pure (false, r.2)

/-- `_SLZ_SERIALIZER_READER` with the same log. -/
def Serializer.readLogged (slz : Serializer α) (v : α) :
    EStateM Stop (Input × List ℕ) (Bool × α) := do
  let r ← unlogged (safeRead slz.size)
  let v := slz.ofImage (r.2 ++ (slz.image v).drop r.2.length)
  if r.1 then slzArraysReadLogged slz.arrays v else pure (false, v)

/-- What a read asks `malloc` for. -/
def Serializer.requests (slz : Serializer α) (v : α) (s : Input) : List ℕ :=
  logOf (slz.readLogged v (s, []))

theorem slzArrayReadLogged_logs (f : ArrayField α) (v : α) :
    Logs (fun _ => True) (slzArrayReadLogged f v) (slzArrayRead f v) := by
  refine (Logs.unlogged _).bind fun r => ?_
  dsimp only
  split
  · exact Logs.pure _
  split
  · exact Logs.pure _
  refine Logs.entry trivial ((Logs.unlogged _).bind fun address => ?_)
  cases address with
  | none => exact Logs.pure _
  | some a => exact (Logs.unlogged _).bind fun r => Logs.pure _

theorem slzArraysReadLogged_logs (fs : List (ArrayField α)) (v : α) :
    Logs (fun _ => True) (slzArraysReadLogged fs v) (slzArraysRead fs v) := by
  induction fs generalizing v with
  | nil => exact Logs.pure _
  | cons f fs ih =>
    refine (slzArrayReadLogged_logs f v).bind fun r => ?_
    split
    · exact ih r.2
    · exact Logs.pure _

/-- The reader with the log is the reader. -/
theorem Serializer.readLogged_logs (slz : Serializer α) (v : α) :
    Logs (fun _ => True) (slz.readLogged v) (slz.read v) := by
  refine (Logs.unlogged _).bind fun r => ?_
  dsimp only
  split
  · exact slzArraysReadLogged_logs _ _
  · exact Logs.pure _

/-! ## The loops of the client -/

/-- `items[i]`, for elements of `size` bytes. -/
def elementAt (size : ℕ) (b : Buffer) (i : ℕ) : Except Stop (List UInt8) :=
  if size * i + size ≤ b.bytes.length then .ok ((b.bytes.drop (size * i)).take size)
  else .error .fault

/-- The loop over a count, with `n` rounds left and at the index `i`. -/
def countLoop (size : ℕ) (b : Buffer) : ℕ → ℕ → Except Stop (List (List UInt8))
  | 0, _ => .ok []
  | n + 1, i => do
    let x ← elementAt size b i
    let rest ← countLoop size b n (i + 1)
    .ok (x :: rest)

/-- The loop of `ls`; `printf` is given the number and the name of each item. -/
def lsLoop (content : DirectoryContent) : Except Stop (List DirectoryItem) :=
  (countLoop sizeofDirectoryItem content.items content.itemsCount 0).map
    (List.map DirectoryItem.decode)

/-- The loop of `stat`. -/
def statLoop (response : FsOpStatResponse) : Except Stop (List ℕ) :=
  (countLoop 8 response.blocks response.blocksCount 0).map (List.map leNat)

/-- The loop stays inside the buffer exactly when the buffer holds all elements. -/
theorem countLoop_ok {size : ℕ} (b : Buffer) (n i : ℕ)
    (hi : size * i ≤ b.bytes.length) :
    (∃ xs, countLoop size b n i = .ok xs) ↔ size * (i + n) ≤ b.bytes.length := by
  induction n generalizing i with
  | zero => exact ⟨fun _ => hi, fun _ => ⟨[], rfl⟩⟩
  | succ n ih =>
    have hsucc : size * (i + 1) = size * i + size := Nat.mul_succ size i
    have hend : size * (i + 1) ≤ size * (i + (n + 1)) := Nat.mul_le_mul_left size (by omega)
    rw [countLoop, elementAt]
    by_cases hle : size * i + size ≤ b.bytes.length
    · rw [if_pos hle, show i + (n + 1) = i + 1 + n by omega, ← ih (i + 1) (by omega)]
      simp only [bind, Except.bind]
      constructor
      · rintro ⟨xs, h⟩
        cases hrest : countLoop size b n (i + 1) with
        | ok rest => exact ⟨rest, rfl⟩
        | error e =>
          rw [hrest] at h
          cases h
      · rintro ⟨rest, hrest⟩
        exact ⟨_, by rw [hrest]⟩
    · rw [if_neg hle]
      refine ⟨fun ⟨xs, h⟩ => (by cases h), fun h => absurd (hsucc ▸ hend.trans h) hle⟩

/-! ## Structures with one array -/

/-- The structure has this one array, and it keeps what is put into it. -/
structure OneArray (slz : Serializer α) (f : ArrayField α) : Prop where
  arrays : slz.arrays = [f]
  count_set : ∀ n b v, f.count (f.set n b v) = n
  field_set : ∀ n b v, f.field (f.set n b v) = b

/-- The count on the stream, behind the image. -/
def Serializer.countAt (slz : Serializer α) (s : Input) : ℕ :=
  leNat ((s.source.pending.drop slz.size).take 8)

/-- The buffer was allocated for as many elements as are counted, and as many came. -/
structure Counted (size count : ℕ) (b : Buffer) (requests : List ℕ) (s s' : Input) : Prop where
  allocated : requests = if count = 0 then [] else [size * count]
  received : b.bytes.length = size * count
  came : ∃ front, s.source.pending = front ++ b.bytes ++ s'.source.pending

section Read

variable {slz : Serializer α} {f : ArrayField α} {old v w : α} {s s' : Input} {log log' : List ℕ}

/-- A read that reports success has asked for one block, unless the count is zero. -/
theorem slzArrayReadLogged_true (hset : ∀ n b v, f.count (f.set n b v) = n)
    (h : slzArrayReadLogged f v (s, log) = .ok (true, w) (s', log')) :
    log' = log ++ if f.count w = 0 then [] else [wmul f.elemSize (f.count w)] := by
  obtain ⟨r, t₁, hcount, h⟩ := bind_eq_ok.mp h
  obtain ⟨-, hlog₁⟩ := unlogged_eq_ok hcount
  dsimp only at h hlog₁
  generalize leNat (r.2 ++ (leBytes 8 (f.count v)).drop r.2.length) = count at h
  split at h
  · cases h
  split at h
  · next hzero =>
    obtain ⟨hw, rfl⟩ := EStateM.Result.ok.inj h
    rw [← (Prod.mk.inj hw).2, hset, if_pos hzero, List.append_nil, ← hlog₁]
  · next hzero =>
    obtain ⟨u, t₂, hentry, h⟩ := bind_eq_ok.mp h
    obtain ⟨-, rfl⟩ := EStateM.Result.ok.inj hentry
    obtain ⟨address, t₃, hmalloc, h⟩ := bind_eq_ok.mp h
    obtain ⟨-, hlog₃⟩ := unlogged_eq_ok hmalloc
    cases address with
    | none => cases h
    | some a =>
      obtain ⟨r', t₄, helements, h⟩ := bind_eq_ok.mp h
      obtain ⟨-, hlog₄⟩ := unlogged_eq_ok helements
      obtain ⟨hw, rfl⟩ := EStateM.Result.ok.inj h
      dsimp only at hlog₄
      rw [← (Prod.mk.inj hw).2, hset, if_neg hzero, hlog₄, hlog₃, hlog₁]

/-- What a read that reports success has got, with the product in a machine word. -/
theorem OneArray.read_true (h1 : OneArray slz f) (h : slz.read old s = .ok (true, w) s') :
    ∃ image, image.length = slz.size ∧ f.count w < wordSize ∧
      (f.field w).bytes.length = wmul f.elemSize (f.count w) ∧
      s.source.pending = image ++ (leBytes 8 (f.count w) ++ (f.field w).bytes ++ s'.source.pending) ∧
      slz.requests old s = if f.count w = 0 then [] else [wmul f.elemSize (f.count w)] := by
  obtain ⟨new, -, hlogged⟩ := slz.readLogged_logs old s []
  rw [Serializer.requests, hlogged]
  rw [h] at hlogged ⊢
  obtain ⟨⟨ok, image⟩, t₁, himage', hrest⟩ := bind_eq_ok.mp hlogged
  obtain ⟨himage, hlog₁⟩ := unlogged_eq_ok himage'
  dsimp only at himage hlog₁ hrest
  cases ok with
  | false => cases hrest
  | true =>
    obtain ⟨hlen, hpending⟩ := safeRead_complete himage
    rw [if_pos rfl, h1.arrays] at hrest
    obtain ⟨⟨ok, u⟩, t₂, harray, hrest⟩ := bind_eq_ok.mp hrest
    cases ok with
    | false => cases hrest
    | true =>
      obtain ⟨hw, rfl⟩ := EStateM.Result.ok.inj hrest
      obtain rfl := (Prod.mk.inj hw).2
      obtain ⟨count, b, hlt, rfl, hbytes, hpending₁⟩ :=
        slzArrayRead_true (Logs.of_ok (slzArrayReadLogged_logs f _) harray)
      have hlog := slzArrayReadLogged_true h1.count_set harray
      rw [hlog₁] at hlog
      rw [h1.count_set] at hlog ⊢
      rw [h1.field_set]
      exact ⟨image, hlen, hlt, hbytes, by rw [hpending, hpending₁], hlog⟩

/-- The count that comes is the count of the structure. -/
theorem OneArray.countAt_eq (h1 : OneArray slz f) (h : slz.read old s = .ok (true, w) s') :
    slz.countAt s = f.count w := by
  obtain ⟨image, hlen, hlt, -, hpending, -⟩ := h1.read_true h
  rw [Serializer.countAt, hpending, ← hlen, List.drop_left, List.append_assoc,
    List.take_left' (leBytes_length 8 _), leNat_leBytes hlt]

/-- The machine word holds the product exactly when it is the product. -/
theorem wmul_eq_iff {a b : ℕ} : wmul a b = a * b ↔ a * b < wordSize :=
  Nat.mod_eq_iff_lt (by rw [wordSize]; omega)

/-- The array is what it is counted as exactly when the product does not wrap. -/
theorem OneArray.counted_iff (h1 : OneArray slz f) (h : slz.read old s = .ok (true, w) s') :
    Counted f.elemSize (f.count w) (f.field w) (slz.requests old s) s s' ↔
      f.elemSize * slz.countAt s < wordSize := by
  obtain ⟨image, hlen, hlt, hbytes, hpending, hrequests⟩ := h1.read_true h
  rw [h1.countAt_eq h]
  refine ⟨fun hc => wmul_eq_iff.mp (hbytes.symm.trans hc.received), fun hfit => ?_⟩
  have hmul := wmul_eq_iff.mpr hfit
  rw [hmul] at hbytes hrequests
  refine ⟨hrequests, hbytes, image ++ leBytes 8 (f.count w), ?_⟩
  rw [hpending]
  simp only [List.append_assoc]

/-- And only then a loop over the count stays inside of the buffer. -/
theorem OneArray.countLoop_iff (h1 : OneArray slz f) (h : slz.read old s = .ok (true, w) s') :
    (∃ xs, countLoop f.elemSize (f.field w) (f.count w) 0 = .ok xs) ↔
      f.elemSize * slz.countAt s < wordSize := by
  obtain ⟨image, -, -, hbytes, -⟩ := h1.read_true h
  have hle : wmul f.elemSize (f.count w) ≤ f.elemSize * f.count w := Nat.mod_le _ _
  rw [h1.countAt_eq h, countLoop_ok _ _ _ (Nat.zero_le _), Nat.zero_add, hbytes, ← wmul_eq_iff]
  exact ⟨fun hge => Nat.le_antisymm hle hge, fun heq => heq.ge⟩

end Read

/-! ## Listings and traces -/

section Replies

variable {s s' : Input}

/-- The items are as many as counted, and `ls` stays inside of them. -/
def ItemsCounted (old w : DirectoryContent) (s s' : Input) : Prop :=
  Counted sizeofDirectoryItem w.itemsCount w.items (slzDirectoryContent.requests old s) s s' ∧
    ∃ items, lsLoop w = .ok items

/-- The blocks are as many as counted, and `stat` stays inside of them. -/
def BlocksCounted (old w : FsOpStatResponse) (s s' : Input) : Prop :=
  Counted 8 w.blocksCount w.blocks (slzFsOpStatResponse.requests old s) s s' ∧
    ∃ blocks, statLoop w = .ok blocks

theorem map_eq_ok {β γ : Type} {x : Except Stop β} (f : β → γ) :
    (∃ c, x.map f = .ok c) ↔ ∃ b, x = .ok b := by
  cases x with
  | ok b => exact ⟨fun _ => ⟨b, rfl⟩, fun _ => ⟨f b, rfl⟩⟩
  | error e => exact ⟨fun ⟨c, h⟩ => (by cases h), fun ⟨b, h⟩ => (by cases h)⟩

theorem itemsCounted_iff {old w : DirectoryContent}
    (h : slzDirectoryContent.read old s = .ok (true, w) s') :
    ItemsCounted old w s s' ↔ sizeofDirectoryItem * slzDirectoryContent.countAt s < wordSize := by
  have h1 : OneArray slzDirectoryContent _ := ⟨rfl, fun _ _ _ => rfl, fun _ _ _ => rfl⟩
  rw [ItemsCounted, lsLoop, map_eq_ok]
  exact (and_congr (h1.counted_iff h) (h1.countLoop_iff h)).trans and_self_iff

theorem blocksCounted_iff {old w : FsOpStatResponse}
    (h : slzFsOpStatResponse.read old s = .ok (true, w) s') :
    BlocksCounted old w s s' ↔ 8 * slzFsOpStatResponse.countAt s < wordSize := by
  have h1 : OneArray slzFsOpStatResponse _ := ⟨rfl, fun _ _ _ => rfl, fun _ _ _ => rfl⟩
  rw [BlocksCounted, statLoop, map_eq_ok]
  exact (and_congr (h1.counted_iff h) (h1.countLoop_iff h)).trans and_self_iff

/-- On every stream that is read as a listing or as a trace, the array is what its
count says exactly when the product of count and element size does not wrap. -/
theorem decoded_counted (s s' : Input) :
    (∀ old w, slzDirectoryContent.read old s = .ok (true, w) s' →
      (ItemsCounted old w s s' ↔ sizeofDirectoryItem * slzDirectoryContent.countAt s < wordSize)) ∧
    ∀ old w, slzFsOpStatResponse.read old s = .ok (true, w) s' →
      (BlocksCounted old w s s' ↔ 8 * slzFsOpStatResponse.countAt s < wordSize) :=
  ⟨fun _ _ => itemsCounted_iff, fun _ _ => blocksCounted_iff⟩

end Replies

/-- What was written whole is read whole. -/
theorem OneArray.read_wire {slz : Serializer α} {f : ArrayField α} (h1 : OneArray slz f) {v : α}
    (hfull : f.Full v) (hbound : f.elemSize * f.count v < 2 ^ 63) (old : α) :
    ∃ w s', slz.read old (byteByByte (slz.wire v)) = .ok (true, w) s' := by
  have hall : ∀ g ∈ slz.arrays, g = f := fun g hg => List.mem_singleton.mp (h1.arrays ▸ hg)
  obtain ⟨w, s', hread, -⟩ := Serializer.read_run (fun g hg => hall g hg ▸ hfull)
    (List.append_nil _).symm (byteByByte_grants (slz.wire v) hbound)
    (fun g hg => hall g hg ▸ Nat.le_refl _) old
  exact ⟨w, s', hread⟩

/-- A listing of one item. -/
def oneItem : DirectoryContent := ⟨1, blockAt8 (List.replicate 264 7)⟩

/-- A trace of the two blocks 2 and 7. -/
def twoBlocks : FsOpStatResponse := ⟨5, 2, blockAt8 (leBytes 8 2 ++ leBytes 8 7)⟩

theorem decoded_counted_received :
    (∃ w s', slzDirectoryContent.read oneItem (byteByByte (slzDirectoryContent.wire oneItem)) =
        .ok (true, w) s' ∧
      ItemsCounted oneItem w (byteByByte (slzDirectoryContent.wire oneItem)) s') ∧
    ∃ w s', slzFsOpStatResponse.read twoBlocks (byteByByte (slzFsOpStatResponse.wire twoBlocks)) =
        .ok (true, w) s' ∧
      BlocksCounted twoBlocks w (byteByByte (slzFsOpStatResponse.wire twoBlocks)) s' := by
  have h1 : OneArray slzDirectoryContent _ := ⟨rfl, fun _ _ _ => rfl, fun _ _ _ => rfl⟩
  have h2 : OneArray slzFsOpStatResponse _ := ⟨rfl, fun _ _ _ => rfl, fun _ _ _ => rfl⟩
  constructor
  · obtain ⟨w, s', hread⟩ := h1.read_wire (v := oneItem)
      ⟨by decide, List.length_replicate.ge⟩ (by decide) oneItem
    exact ⟨w, s', hread, ((decoded_counted _ s').1 oneItem w hread).mpr (by decide +kernel)⟩
  · obtain ⟨w, s', hread⟩ := h2.read_wire (v := twoBlocks)
      ⟨by decide, by decide⟩ (by decide) twoBlocks
    exact ⟨w, s', hread, ((decoded_counted _ s').2 twoBlocks w hread).mpr (by decide)⟩

/-- A listing that counts 2^61 items. -/
def manyItems : Input := byteByByte (List.replicate 16 0 ++ leBytes 8 (2 ^ 61))

theorem manyItems_read :
    ∃ w s', slzDirectoryContent.read ⟨0, .null⟩ manyItems = .ok (true, w) s' := by
  obtain ⟨⟨ok, w⟩, s', hread⟩ := slzDirectoryContent.read_returns ⟨0, .null⟩ manyItems
  have hok : (match slzDirectoryContent.read ⟨0, .null⟩ manyItems with
      | .ok r _ => r.1
      | .error _ _ => false) = true := by decide +kernel
  rw [hread] at hok
  exact ⟨w, s', by rw [hread, show ok = true from hok]⟩

/-- 264 times 2^61 is zero in a machine word. -/
theorem decoded_counted_wraps :
    ¬ ∀ s s' : Input,
      (∀ old w, slzDirectoryContent.read old s = .ok (true, w) s' → ItemsCounted old w s s') ∧
        ∀ old w, slzFsOpStatResponse.read old s = .ok (true, w) s' →
          BlocksCounted old w s s' := by
  intro h
  obtain ⟨w, s', hread⟩ := manyItems_read
  exact absurd ((itemsCounted_iff hread).mp ((h manyItems s').1 _ _ hread)) (by decide +kernel)

end KisLinux.Net
