import KisLinux.NetOperation
import Mathlib.Data.List.Forall2

/-!
# Round trips

What one side writes the other side reads back, for any number of operations in
a row and for every way in which the calls on either side cut the stream. Only
the pointer values differ: they travel with the image and are replaced by the
addresses of the arrays that were read.
-/
namespace KisLinux.Net
open ByteMemory StateRun ShortTransfer Fs

section Refill

theorem NetString.chars_length {s : NetString} (h : 1 * s.length ≤ s.string.bytes.length) :
    s.chars.length = s.length := by
  rw [Nat.one_mul] at h
  rw [chars, List.length_take, Nat.min_eq_left h]

/-- An array of bytes with its elements put back. -/
theorem refill_take {b : Buffer} {bytes : List UInt8} {n : ℕ} (hn : 1 * n < wordSize)
    (hlen : 1 * n ≤ bytes.length) (hb : b.bytes = bytes.take (wmul 1 n)) :
    1 * n ≤ b.bytes.length ∧ b.bytes.take n = bytes.take n := by
  rw [wmul, Nat.mod_eq_of_lt hn, Nat.one_mul] at hb
  rw [Nat.one_mul] at hlen ⊢
  rw [hb, List.length_take, List.take_take, Nat.min_self]
  exact ⟨Nat.le_min.mpr ⟨Nat.le_refl n, hlen⟩, rfl⟩

theorem drop_image (s : NetString) (rest : List UInt8) (k : ℕ) :
    (s.image ++ rest).drop (16 + k) = rest.drop k := by
  rw [← s.image_length, List.drop_append]
  simp

theorem drop_leBytes (v k : ℕ) (rest : List UInt8) :
    (leBytes 8 v ++ rest).drop (8 + k) = rest.drop k := by
  conv_lhs => rw [← leBytes_length 8 v, List.drop_append]
  simp

theorem leNat_take (v : ℕ) (rest : List UInt8) (h : v < wordSize) :
    leNat ((leBytes 8 v ++ rest).take 8) = v := by
  rw [List.take_left' (leBytes_length 8 v)]
  exact leNat_leBytes h

/-- The numbers behind the path in an image. -/
theorem numbers_of_image (path : NetString) {o l : ℕ} (tail : List UInt8) (ho : o < wordSize)
    (hl : l < wordSize) :
    leNat (((path.image ++ (leBytes 8 o ++ (leBytes 8 l ++ tail))).drop 16).take 8) = o ∧
      leNat (((path.image ++ (leBytes 8 o ++ (leBytes 8 l ++ tail))).drop 24).take 8) = l := by
  constructor
  · rw [drop_image path _ 0, List.drop_zero, leNat_take _ _ ho]
  · rw [drop_image path _ 8, drop_leBytes _ 0, List.drop_zero, leNat_take _ _ hl]

theorem slzFsOpRead_image (v : FsOpReadArgs) : slzFsOpRead.image v =
    v.path.image ++ (leBytes 8 v.offset ++ (leBytes 8 v.length ++ [])) := by
  simp [slzFsOpRead]

theorem slzFsOpWrite_image (v : FsOpWriteArgs) : slzFsOpWrite.image v =
    v.path.image ++ (leBytes 8 v.offset ++ (leBytes 8 v.length ++ leBytes 8 v.data.address)) := by
  simp [slzFsOpWrite]

theorem slzFsOpRead_refill {v w : FsOpReadArgs} (hfull : ∀ f ∈ slzFsOpRead.arrays, f.Full v)
    (ho : v.offset < wordSize) (hl : v.length < wordSize)
    (h : Fills v slzFsOpRead.arrays (slzFsOpRead.ofImage (slzFsOpRead.image v)) w) :
    (∀ f ∈ slzFsOpRead.arrays, f.Full w) ∧ w.path.chars = v.path.chars ∧ w.offset = v.offset ∧
      w.length = v.length := by
  have hpath := hfull _ (List.mem_singleton_self _)
  obtain ⟨hoffset, hlength⟩ := numbers_of_image v.path [] ho hl
  rw [← slzFsOpRead_image] at hoffset hlength
  cases h with
  | cons b elements rest =>
    cases rest
    obtain ⟨hlen, hchars⟩ := refill_take hpath.fits hpath.filled elements
    refine ⟨?_, hchars, hoffset, hlength⟩
    intro f hf
    obtain rfl := List.mem_singleton.mp hf
    exact ⟨hpath.fits, hlen⟩

theorem slzFsOpWrite_refill {v w : FsOpWriteArgs} (hfull : ∀ f ∈ slzFsOpWrite.arrays, f.Full v)
    (ho : v.offset < wordSize)
    (h : Fills v slzFsOpWrite.arrays (slzFsOpWrite.ofImage (slzFsOpWrite.image v)) w) :
    (∀ f ∈ slzFsOpWrite.arrays, f.Full w) ∧ w.path.chars = v.path.chars ∧ w.offset = v.offset ∧
      w.data.bytes.take w.length = v.data.bytes.take v.length := by
  have hpath := hfull _ (List.mem_cons_self ..)
  have hdata := hfull _ (List.mem_cons_of_mem _ (List.mem_singleton_self _))
  obtain ⟨hoffset, -⟩ := numbers_of_image v.path (leBytes 8 v.data.address) ho hdata.count_lt
  rw [← slzFsOpWrite_image] at hoffset
  cases h with
  | cons b elements rest =>
    cases rest with
    | cons b' elements' rest =>
      cases rest
      obtain ⟨hlen, hchars⟩ := refill_take hpath.fits hpath.filled elements
      obtain ⟨hlen', hbytes⟩ := refill_take hdata.fits hdata.filled elements'
      refine ⟨?_, hchars, hoffset, hbytes⟩
      intro f hf
      rcases List.mem_cons.mp hf with rfl | hf
      · exact ⟨hpath.fits, hlen⟩
      · obtain rfl := List.mem_singleton.mp hf
        exact ⟨hdata.fits, hlen'⟩

theorem slzFsOpCreate_refill {v w : FsOpCreateArgs} (hfull : ∀ f ∈ slzFsOpCreate.arrays, f.Full v)
    (h : Fills v slzFsOpCreate.arrays (slzFsOpCreate.ofImage (slzFsOpCreate.image v)) w) :
    (∀ f ∈ slzFsOpCreate.arrays, f.Full w) ∧ w.path.chars = v.path.chars ∧ w.flags = v.flags := by
  have hpath := hfull _ (List.mem_singleton_self _)
  have hflags : (slzFsOpCreate.ofImage (slzFsOpCreate.image v)).flags = v.flags := by
    simp only [slzFsOpCreate]
    rw [drop_image v.path _ 0]
    rfl
  generalize slzFsOpCreate.ofImage (slzFsOpCreate.image v) = start at h hflags
  cases h with
  | cons b elements rest =>
    cases rest
    obtain ⟨hlen, hchars⟩ := refill_take hpath.fits hpath.filled elements
    refine ⟨?_, hchars, hflags⟩
    intro f hf
    obtain rfl := List.mem_singleton.mp hf
    exact ⟨hpath.fits, hlen⟩

theorem FsOpPathArgs.refill {v w : FsOpPathArgs} (hfull : ∀ f ∈ serializer.arrays, f.Full v)
    (h : Fills v serializer.arrays (serializer.ofImage (serializer.image v)) w) :
    (∀ f ∈ serializer.arrays, f.Full w) ∧ w.path.chars = v.path.chars := by
  have hpath := hfull _ (List.mem_singleton_self _)
  cases h with
  | cons b elements rest =>
    cases rest
    obtain ⟨hlen, hchars⟩ := refill_take hpath.fits hpath.filled elements
    refine ⟨?_, hchars⟩
    intro f hf
    obtain rfl := List.mem_singleton.mp hf
    exact ⟨hpath.fits, hlen⟩

/-- An operation read back is the operation that was sent, up to pointers. -/
theorem FsOpType.refill {t : FsOpType} {args w : t.Args} (hfull : ∀ f ∈ t.serializer.arrays, f.Full args)
    (hfits : (t.request args).Fits)
    (h : Fills args t.serializer.arrays (t.serializer.ofImage (t.serializer.image args)) w) :
    (∀ f ∈ t.serializer.arrays, f.Full w) ∧ t.request w = t.request args := by
  cases t with
  | read =>
    obtain ⟨hfull', hpath, hoffset, hlength⟩ := slzFsOpRead_refill hfull hfits.1 hfits.2 h
    exact ⟨hfull', by simp only [request, hpath, hoffset, hlength]⟩
  | write =>
    obtain ⟨hfull', hpath, hoffset, hdata⟩ := slzFsOpWrite_refill hfull hfits h
    exact ⟨hfull', by simp only [request, hpath, hoffset, hdata]⟩
  | create =>
    obtain ⟨hfull', hpath, hflags⟩ := slzFsOpCreate_refill hfull h
    exact ⟨hfull', by simp only [request, hpath, hflags]⟩
  | remove =>
    obtain ⟨hfull', hpath⟩ := FsOpPathArgs.refill hfull h
    exact ⟨hfull', by simp only [request, hpath]⟩
  | stat =>
    obtain ⟨hfull', hpath⟩ := FsOpPathArgs.refill hfull h
    exact ⟨hfull', by simp only [request, hpath]⟩
  | readDir =>
    obtain ⟨hfull', hpath⟩ := FsOpPathArgs.refill hfull h
    exact ⟨hfull', by simp only [request, hpath]⟩

end Refill

section Operation

variable {t : FsOpType} {args : t.Args} {op : NetFsOperation} {r : Request} {bound : ℕ}

/-- What a reader of the request has to allocate at once. -/
def Request.largest (r : Request) : ℕ := max r.path.length r.data.length

theorem largest_of_full (hfull : ∀ f ∈ t.serializer.arrays, f.Full args) :
    ∀ f ∈ t.serializer.arrays, f.elemSize * f.count args ≤ (t.request args).largest := by
  have hpath : ∀ (s : NetString), 1 * s.length ≤ s.string.bytes.length →
      1 * s.length ≤ s.chars.length := fun s h => by
    rw [NetString.chars_length h, Nat.one_mul]
  intro f hf
  cases t with
  | read =>
    obtain rfl := List.mem_singleton.mp hf
    exact (hpath _ (hfull _ hf).filled).trans (Nat.le_max_left _ _)
  | write =>
    rcases List.mem_cons.mp hf with rfl | hf'
    · exact (hpath _ (hfull _ hf).filled).trans (Nat.le_max_left _ _)
    · obtain rfl := List.mem_singleton.mp hf'
      refine Nat.le_trans ?_ (Nat.le_max_right _ _)
      have hfilled := (hfull _ hf).filled
      simp only [Nat.one_mul] at hfilled ⊢
      simp only [FsOpType.request, Request.data, List.length_take]
      omega
  | create =>
    obtain rfl := List.mem_singleton.mp hf
    exact (hpath _ (hfull _ hf).filled).trans (Nat.le_max_left _ _)
  | remove =>
    obtain rfl := List.mem_singleton.mp hf
    exact (hpath _ (hfull _ hf).filled).trans (Nat.le_max_left _ _)
  | stat =>
    obtain rfl := List.mem_singleton.mp hf
    exact (hpath _ (hfull _ hf).filled).trans (Nat.le_max_left _ _)
  | readDir =>
    obtain rfl := List.mem_singleton.mp hf
    exact (hpath _ (hfull _ hf).filled).trans (Nat.le_max_left _ _)

theorem code_lt (t : FsOpType) : t.code < 256 ^ 4 := by cases t <;> decide

/-- Reading takes exactly the bytes of one operation. -/
theorem slzNetFsOperationRead_run {s : Input} {rest : List UInt8} (hc : op.Carries r) (hfits : r.Fits)
    (hs : s.source.pending = op.wire ++ rest) (hheap : s.heap.Grants bound)
    (hbound : r.largest ≤ bound) (old : List UInt8) :
    ∃ op' s', slzNetFsOperationRead old s = .ok (true, op') s' ∧ op'.Carries r ∧
      s'.source.pending = rest ∧ s'.heap.Grants bound := by
  cases hc with
  | op t args full =>
    rw [NetFsOperation.wire, List.append_assoc] at hs
    obtain ⟨s₁, hread, hgave, hpending⟩ := safeRead_of_pending hs
    obtain ⟨w, s', hrun, hfills, hpending', hheap'⟩ := Serializer.read_run full hpending
      (hgave.heap ▸ hheap) (fun f hf => (largest_of_full full f hf).trans hbound)
      (t.serializer.ofImage ((old.drop 4).take t.serializer.size))
    obtain ⟨hfull', hrequest⟩ := FsOpType.refill full hfits hfills
    rw [leBytes_length] at hread
    have htype : leNat (leBytes 4 t.code ++ (old.take 4).drop (leBytes 4 t.code).length) = t.code := by
      rw [leBytes_length, List.drop_of_length_le (List.length_take_le 4 old), List.append_nil,
        leNat_leBytes (code_lt t)]
    refine ⟨.op t w, s', ?_, hrequest ▸ .op t w hfull', hpending', hheap'⟩
    rw [slzNetFsOperationRead, bind_of_ok hread]
    simp only [htype, Bool.true_eq_false, if_false, FsOpType.ofCode_code]
    rw [bind_of_ok hrun, pure_run]

/-- Writing hands over exactly the bytes of one operation. -/
theorem slzNetFsOperationWrite_run {s : Sink UInt8} (hc : op.Carries r) (hs : s.room = none) :
    ∃ s', slzNetFsOperationWrite op s = .ok true s' ∧ s'.accepted = s.accepted ++ op.wire ∧
      s'.room = none := by
  cases hc with
  | op t args full =>
    obtain ⟨s₁, hrun, haccepted, hroom⟩ := (safeWrite_sends (leBytes 4 t.code)).run_open hs
    obtain ⟨s', hrun', haccepted', hroom'⟩ := (Serializer.write_sends full).run_open hroom
    refine ⟨s', ?_, ?_, hroom'⟩
    · rw [slzNetFsOperationWrite, NetFsOperation.type, bind_of_ok hrun, if_pos rfl]
      exact bind_of_ok hrun'
    · rw [haccepted', haccepted, NetFsOperation.wire, List.append_assoc]

end Operation

/-! ## Streams of operations -/

def writeAll : List NetFsOperation → OutM (List Bool)
  | [] => pure []
  | op :: ops => do
    let ok ← slzNetFsOperationWrite op
    let oks ← writeAll ops
    pure (ok :: oks)

/-- `n` reads in a row; `old` gives the memory that each of them finds. -/
def readAll (old : ℕ → List UInt8) : ℕ → InM (List (Bool × NetFsOperation))
  | 0 => pure []
  | n + 1 => do
    let r ← slzNetFsOperationRead (old 0)
    let rs ← readAll (fun i => old (i + 1)) n
    pure (r :: rs)

theorem writeAll_run {ops : List NetFsOperation} {rs : List Request}
    (h : List.Forall₂ NetFsOperation.Carries ops rs) {s : Sink UInt8} (hs : s.room = none) :
    ∃ s', writeAll ops s = .ok (List.replicate ops.length true) s' ∧
      s'.accepted = s.accepted ++ ops.flatMap NetFsOperation.wire ∧ s'.room = none := by
  induction h generalizing s with
  | nil => exact ⟨s, rfl, by simp, hs⟩
  | @cons op r ops rs hc _ ih =>
    obtain ⟨s₁, hrun, haccepted, hroom⟩ := slzNetFsOperationWrite_run hc hs
    obtain ⟨s', hrun', haccepted', hroom'⟩ := ih hroom
    refine ⟨s', ?_, ?_, hroom'⟩
    · rw [writeAll, bind_of_ok hrun, bind_of_ok hrun', pure_run]
      rfl
    · rw [haccepted', haccepted, List.flatMap_cons, List.append_assoc]

theorem readAll_run {ops : List NetFsOperation} {rs : List Request}
    (h : List.Forall₂ NetFsOperation.Carries ops rs) {s : Input} {rest : List UInt8} {bound : ℕ}
    (hfits : ∀ r ∈ rs, r.Fits ∧ r.largest ≤ bound)
    (hs : s.source.pending = ops.flatMap NetFsOperation.wire ++ rest) (hheap : s.heap.Grants bound)
    (old : ℕ → List UInt8) :
    ∃ ops' s', readAll old ops.length s = .ok (ops'.map fun op => (true, op)) s' ∧
      List.Forall₂ NetFsOperation.Carries ops' rs ∧ s'.source.pending = rest := by
  induction h generalizing s old with
  | nil => exact ⟨[], s, rfl, .nil, hs⟩
  | @cons op r ops rs hc _ ih =>
    rw [List.flatMap_cons, List.append_assoc] at hs
    obtain ⟨op', s₁, hrun, hc', hpending, hheap₁⟩ := slzNetFsOperationRead_run hc
      (hfits r (by simp)).1 hs hheap (hfits r (by simp)).2 (old 0)
    obtain ⟨ops', s', hrun', hcs, hpending'⟩ := ih
      (fun x hx => hfits x (List.mem_cons_of_mem _ hx)) hpending hheap₁ fun i => old (i + 1)
    refine ⟨op' :: ops', s', ?_, .cons hc' hcs, hpending'⟩
    rw [List.length_cons, readAll, bind_of_ok hrun, bind_of_ok hrun', pure_run]
    rfl

/-- The operations written by one side are the operations read by the other, and
after every `k` of them both sides stand at the same place of the stream. The cuts
of `s` and `t` are arbitrary, and so are the pointer values. -/
theorem netFsOperation_roundTrip {ops : List NetFsOperation} {rs : List Request} {bound : ℕ}
    (h : List.Forall₂ NetFsOperation.Carries ops rs) (hfits : ∀ r ∈ rs, r.Fits ∧ r.largest ≤ bound)
    {s : Sink UInt8} (hs : s.room = none) {t : Input} {rest : List UInt8}
    (hheap : t.heap.Grants bound)
    (ht : t.source.pending = ops.flatMap NetFsOperation.wire ++ rest) (old : ℕ → List UInt8) (k : ℕ) :
    (∃ s', writeAll (ops.take k) s = .ok (List.replicate (ops.take k).length true) s' ∧
      s'.accepted = s.accepted ++ (ops.take k).flatMap NetFsOperation.wire) ∧
    ∃ ops' t', readAll old (ops.take k).length t = .ok (ops'.map fun op => (true, op)) t' ∧
      List.Forall₂ NetFsOperation.Carries ops' (rs.take k) ∧
      t'.source.pending = (ops.drop k).flatMap NetFsOperation.wire ++ rest := by
  have htake := List.forall₂_take k h
  obtain ⟨s', hwrite, haccepted, -⟩ := writeAll_run htake hs
  refine ⟨⟨s', hwrite, haccepted⟩, ?_⟩
  refine readAll_run htake (fun r hr => hfits r (List.mem_of_mem_take hr)) ?_ hheap old
  rw [ht, ← List.append_assoc, ← List.flatMap_append, List.take_append_drop]

/-- A stream that moves one byte in every call, and an allocator that always has
the same block. -/
def byteByByte (bytes : List UInt8) : Input where
  source := ⟨bytes, fun _ => 1, false⟩
  heap := ⟨fun _ n => if n < 2 ^ 63 then some 4096 else none, fun _ n _ h => by
    by_contra hn
    rw [if_neg hn] at h
    cases h⟩

theorem byteByByte_grants (bytes : List UInt8) {bound : ℕ} (h : bound < 2 ^ 63) :
    (byteByByte bytes).heap.Grants bound := fun _ _ hn => ⟨4096, if_pos (Nat.lt_of_le_of_lt hn h)⟩

/-- A connection that takes byte for byte. -/
def byteSink : Sink UInt8 := ⟨[], fun _ => 1, none⟩

/-- Two blocks of memory. -/
def blockAt8 (bytes : List UInt8) : Buffer := .block 8 bytes

def blockAt16 (bytes : List UInt8) : Buffer := .block 16 bytes

/-- Two characters written to `/a`, which is then removed. -/
def writeThenRemove : List NetFsOperation :=
  [.op .write (⟨⟨3, blockAt8 [47, 97, 0]⟩, 0, 2, blockAt16 [104, 105]⟩ : FsOpWriteArgs),
    .op .remove (⟨⟨3, blockAt8 [47, 97, 0]⟩⟩ : FsOpPathArgs)]

theorem netFsOperation_roundTrip_bytewise :
    ∃ s', writeAll writeThenRemove ⟨[], fun _ => 1, none⟩ = .ok [true, true] s' ∧
    ∃ ops' t', readAll (fun _ => []) 2 (byteByByte s'.accepted) =
        .ok (ops'.map fun op => (true, op)) t' ∧
      List.Forall₂ NetFsOperation.Carries ops'
        [.write [47, 97, 0] 0 [104, 105], .remove [47, 97, 0]] := by
  have hword : 3 < wordSize := by rw [wordSize]; omega
  have hcarries : List.Forall₂ NetFsOperation.Carries writeThenRemove
      [.write [47, 97, 0] 0 [104, 105], .remove [47, 97, 0]] := by
    refine .cons (.op .write _ fun f hf => ?_) (.cons (.op .remove _ fun f hf => ?_) .nil)
    · rcases List.mem_cons.mp hf with rfl | hf
      · exact ⟨hword, Nat.le_refl 3⟩
      · obtain rfl := List.mem_singleton.mp hf
        exact ⟨Nat.lt_trans (Nat.lt_succ_self 2) hword, Nat.le_refl 2⟩
    · obtain rfl := List.mem_singleton.mp hf
      exact ⟨hword, Nat.le_refl 3⟩
  have hfits : ∀ r ∈ [Request.write [47, 97, 0] 0 [104, 105], .remove [47, 97, 0]],
      r.Fits ∧ r.largest ≤ 3 := by
    intro r hr
    rcases List.mem_cons.mp hr with rfl | hr
    · exact ⟨Nat.lt_trans (Nat.succ_pos 2) hword, by decide⟩
    · obtain rfl := List.mem_singleton.mp hr
      exact ⟨trivial, by decide⟩
  obtain ⟨⟨s', hwrite, haccepted⟩, hread⟩ := netFsOperation_roundTrip hcarries hfits
    (s := ⟨[], fun _ => 1, none⟩) rfl
    (byteByByte_grants (writeThenRemove.flatMap NetFsOperation.wire ++ []) (by omega)) rfl (fun _ => []) 2
  obtain ⟨ops', t', hrun, hcs, -⟩ := hread
  refine ⟨s', hwrite, ops', t', ?_, hcs⟩
  rw [haccepted, List.nil_append]
  rwa [List.append_nil] at hrun

end KisLinux.Net
