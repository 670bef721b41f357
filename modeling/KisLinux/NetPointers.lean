import KisLinux.NetBackend
import KisLinux.TwoRuns

/-!
# Pointers on the wire

A serializer sends the image of a structure as it lies in memory, so the values of
its pointers travel too. A message is looked at as a list of fields, each of them
content or a pointer: messages with the same logical content have the same fields
up to the pointers, and writing them takes the same course.
-/
namespace KisLinux.Net
open ByteMemory StateRun ShortTransfer Fs TwoRuns

/-! ## Fields -/

/-- A part of a message: content, or the value of a pointer. -/
inductive WireField
  | content (bytes : List UInt8)
  | pointer (address : ℕ)
  deriving DecidableEq, Repr

namespace WireField

def encode : WireField → List UInt8
  | content bytes => bytes
  | pointer address => leBytes 8 address

/-- Which bytes are those of a pointer. -/
def mask : WireField → List Bool
  | content bytes => List.replicate bytes.length false
  | pointer _ => List.replicate 8 true

def address : WireField → Option ℕ
  | content _ => none
  | pointer address => some (address % wordSize)

@[simp] theorem mask_length (f : WireField) : f.mask.length = f.encode.length := by
  cases f <;> simp [mask, encode]

end WireField

def encodeFields (fs : List WireField) : List UInt8 := fs.flatMap WireField.encode

def maskFields (fs : List WireField) : List Bool := fs.flatMap WireField.mask

def addresses (fs : List WireField) : List ℕ := fs.filterMap WireField.address

/-- The fields are the same up to the values of pointers. -/
inductive SameFields : List WireField → List WireField → Prop
  | nil : SameFields [] []
  | content {fs gs : List WireField} (bytes : List UInt8) (tail : SameFields fs gs) :
      SameFields (.content bytes :: fs) (.content bytes :: gs)
  | pointer {fs gs : List WireField} (a b : ℕ) (tail : SameFields fs gs) :
      SameFields (.pointer a :: fs) (.pointer b :: gs)

theorem encodeFields_append (fs gs : List WireField) :
    encodeFields (fs ++ gs) = encodeFields fs ++ encodeFields gs := List.flatMap_append

@[simp] theorem maskFields_length (fs : List WireField) :
    (maskFields fs).length = (encodeFields fs).length := by
  induction fs with
  | nil => rfl
  | cons f fs ih =>
    simp only [maskFields, encodeFields, List.flatMap_cons, List.length_append] at ih ⊢
    rw [ih, WireField.mask_length]

theorem leBytes_eq_iff {k v w : ℕ} : leBytes k v = leBytes k w ↔ v % 256 ^ k = w % 256 ^ k := by
  constructor
  · intro h
    rw [← leNat_leBytes_mod, h, leNat_leBytes_mod]
  · intro h
    have hv := leBytes_leNat (leBytes k v)
    have hw := leBytes_leNat (leBytes k w)
    rw [leBytes_length, leNat_leBytes_mod] at hv hw
    rw [← hv, h, hw]

namespace SameFields

variable {fs gs : List WireField}

theorem append {fs' gs' : List WireField} (h : SameFields fs gs) (h' : SameFields fs' gs') :
    SameFields (fs ++ fs') (gs ++ gs') := by
  induction h with
  | nil => exact h'
  | content bytes _ ih => exact .content bytes ih
  | pointer a b _ ih => exact .pointer a b ih

theorem mask_eq (h : SameFields fs gs) : maskFields fs = maskFields gs := by
  induction h with
  | nil => rfl
  | content bytes _ ih => exact congrArg (WireField.mask (.content bytes) ++ ·) ih
  | pointer a b _ ih => exact congrArg (List.replicate 8 true ++ ·) ih

theorem length_eq (h : SameFields fs gs) : (encodeFields fs).length = (encodeFields gs).length := by
  rw [← maskFields_length, h.mask_eq, maskFields_length]

/-- Outside of the pointers the bytes agree. -/
theorem content_eq (h : SameFields fs gs) (i : ℕ) (hi : (maskFields fs)[i]? ≠ some true) :
    (encodeFields fs)[i]? = (encodeFields gs)[i]? := by
  induction h generalizing i with
  | nil => rfl
  | content bytes _ ih =>
    simp only [maskFields, encodeFields, List.flatMap_cons, List.getElem?_append,
      WireField.mask_length] at hi ih ⊢
    split_ifs at hi ⊢ with hlt
    · rfl
    · exact ih _ hi
  | pointer a b _ ih =>
    simp only [maskFields, encodeFields, List.flatMap_cons, List.getElem?_append, WireField.mask,
      WireField.encode, List.length_replicate, leBytes_length] at hi ih ⊢
    split_ifs at hi ⊢ with hlt
    · exact absurd (by rw [List.getElem?_replicate, if_pos hlt]) hi
    · exact ih _ hi

/-- The bytes are equal exactly when the pointers are. -/
theorem encode_eq_iff (h : SameFields fs gs) :
    encodeFields fs = encodeFields gs ↔ addresses fs = addresses gs := by
  induction h with
  | nil => exact iff_of_true rfl rfl
  | content bytes _ ih => exact (List.append_cancel_left_eq bytes _ _).to_iff.trans ih
  | @pointer fs gs a b _ ih =>
    have happend : leBytes 8 a ++ encodeFields fs = leBytes 8 b ++ encodeFields gs ↔
        leBytes 8 a = leBytes 8 b ∧ encodeFields fs = encodeFields gs :=
      ⟨fun heq => List.append_inj heq (by simp), fun ⟨h1, h2⟩ => by rw [h1, h2]⟩
    have haddresses : addresses (.pointer a :: fs) = addresses (.pointer b :: gs) ↔
        a % wordSize = b % wordSize ∧ addresses fs = addresses gs := List.cons_eq_cons
    exact (happend.trans (and_congr leBytes_eq_iff ih)).trans haddresses.symm

end SameFields

/-! ## The layout of the structures -/

/-- The fields of a structure in memory; their bytes are its image. -/
structure Layout {α : Type} (slz : Serializer α) where
  fields : α → List WireField
  image_eq : ∀ v, slz.image v = encodeFields (fields v)

def NetString.fields (s : NetString) : List WireField :=
  [.content (leBytes 8 s.length), .pointer s.string.address]

theorem NetString.image_eq (s : NetString) : s.image = encodeFields s.fields := by
  simp [NetString.image, NetString.fields, encodeFields, WireField.encode]

def FsOpPathArgs.layout : Layout FsOpPathArgs.serializer where
  fields v := v.path.fields
  image_eq v := v.path.image_eq

def FsOpReadArgs.layout : Layout slzFsOpRead where
  fields v := v.path.fields ++ [.content (leBytes 8 v.offset), .content (leBytes 8 v.length)]
  image_eq v := by
    rw [encodeFields_append, ← NetString.image_eq]
    simp [slzFsOpRead, encodeFields, WireField.encode]

def FsOpWriteArgs.layout : Layout slzFsOpWrite where
  fields v := v.path.fields ++
    [.content (leBytes 8 v.offset), .content (leBytes 8 v.length), .pointer v.data.address]
  image_eq v := by
    rw [encodeFields_append, ← NetString.image_eq]
    simp [slzFsOpWrite, encodeFields, WireField.encode]

def FsOpCreateArgs.layout : Layout slzFsOpCreate where
  fields v := v.path.fields ++ [.content [v.flags]]
  image_eq v := by
    rw [encodeFields_append, ← NetString.image_eq]
    simp [slzFsOpCreate, encodeFields, WireField.encode]

def FsOpType.layout : (t : FsOpType) → Layout t.serializer
  | read => FsOpReadArgs.layout
  | write => FsOpWriteArgs.layout
  | create => FsOpCreateArgs.layout
  | remove => FsOpPathArgs.layout
  | stat => FsOpPathArgs.layout
  | readDir => FsOpPathArgs.layout

def NetString.layout : Layout slzString where
  fields v := v.fields
  image_eq v := v.image_eq

def FsOpStatResponse.layout : Layout slzFsOpStatResponse where
  fields v :=
    [.content (leBytes 8 v.size), .content (leBytes 8 v.blocksCount), .pointer v.blocks.address]
  image_eq v := by simp [slzFsOpStatResponse, encodeFields, WireField.encode]

def DirectoryContent.layout : Layout slzDirectoryContent where
  fields v := [.content (leBytes 8 v.itemsCount), .pointer v.items.address]
  image_eq v := by simp [slzDirectoryContent, encodeFields, WireField.encode]

section Content

variable {α : Type} {slz : Serializer α} {f : ArrayField α} {v w : α}

/-- The same count and the same elements, in memory on both sides or on none. -/
structure ArrayField.Same (f : ArrayField α) (v w : α) : Prop where
  count : f.count v = f.count w
  elements : f.elements v = f.elements w
  held : f.count v ≠ 0 → ((f.field v).address = 0 ↔ (f.field w).address = 0)

/-- The same logical content: scalar fields, counts and elements. -/
structure Layout.Same (l : Layout slz) (v w : α) : Prop where
  scalars : SameFields (l.fields v) (l.fields w)
  arrays : ∀ f ∈ slz.arrays, f.Same v w

/-- A structure on the wire: its fields, and its arrays behind them. -/
def Layout.wireFields (l : Layout slz) (v : α) : List WireField :=
  l.fields v ++ slz.arrays.map fun f => .content (f.wire v)

theorem Layout.wire_eq (l : Layout slz) (v : α) : slz.wire v = encodeFields (l.wireFields v) := by
  rw [Layout.wireFields, encodeFields_append, ← l.image_eq, Serializer.wire, encodeFields,
    List.flatMap_map]
  rfl

theorem ArrayField.Same.wire_eq (h : f.Same v w) : f.wire v = f.wire w := by
  rw [ArrayField.wire, ArrayField.wire, h.count, h.elements]

theorem Layout.Same.wireFields {l : Layout slz} (h : l.Same v w) :
    SameFields (l.wireFields v) (l.wireFields w) := by
  have harrays : ∀ fs : List (ArrayField α), (∀ f ∈ fs, f.Same v w) →
      SameFields (fs.map fun f => .content (f.wire v)) (fs.map fun f => .content (f.wire w)) := by
    intro fs hfs
    induction fs with
    | nil => exact .nil
    | cons f fs ih =>
      rw [List.map_cons, List.map_cons, (hfs f (by simp)).wire_eq]
      exact .content _ (ih fun g hg => hfs g (List.mem_cons_of_mem _ hg))
  exact h.scalars.append (harrays _ h.arrays)

end Content

/-! ## Messages -/

/-- What a sender hands to a serializer. -/
inductive Message
  | operation (op : NetFsOperation)
  | string (v : NetString)
  | statResponse (v : FsOpStatResponse)
  | listing (v : DirectoryContent)

namespace Message

def write : Message → OutM Bool
  | operation op => slzNetFsOperationWrite op
  | string v => slzString.write v
  | statResponse v => slzFsOpStatResponse.write v
  | listing v => slzDirectoryContent.write v

def wire : Message → List UInt8
  | operation op => op.wire
  | string v => slzString.wire v
  | statResponse v => slzFsOpStatResponse.wire v
  | listing v => slzDirectoryContent.wire v

def fields : Message → List WireField
  | operation (.op t args) => .content (leBytes 4 t.code) :: t.layout.wireFields args
  | operation (.other type) => [.content (leBytes 4 type)]
  | string v => NetString.layout.wireFields v
  | statResponse v => FsOpStatResponse.layout.wireFields v
  | listing v => DirectoryContent.layout.wireFields v

theorem wire_eq (m : Message) : m.wire = encodeFields m.fields := by
  cases m with
  | operation op =>
    cases op with
    | op t args => exact congrArg (leBytes 4 t.code ++ ·) (t.layout.wire_eq args)
    | other type => exact (List.append_nil _).symm
  | string v => exact NetString.layout.wire_eq v
  | statResponse v => exact FsOpStatResponse.layout.wire_eq v
  | listing v => exact DirectoryContent.layout.wire_eq v

/-- Two messages with the same logical content. -/
inductive Same : Message → Message → Prop
  | op (t : FsOpType) (args args' : t.Args) (content : t.layout.Same args args') :
      Same (operation (.op t args)) (operation (.op t args'))
  | other (type : ℕ) : Same (operation (.other type)) (operation (.other type))
  | string (v v' : NetString) (content : NetString.layout.Same v v') : Same (string v) (string v')
  | statResponse (v v' : FsOpStatResponse) (content : FsOpStatResponse.layout.Same v v') :
      Same (statResponse v) (statResponse v')
  | listing (v v' : DirectoryContent) (content : DirectoryContent.layout.Same v v') :
      Same (listing v) (listing v')

theorem Same.fields {m m' : Message} (h : m.Same m') : SameFields m.fields m'.fields := by
  cases h with
  | op t args args' content => exact .content _ content.wireFields
  | other type => exact .content _ .nil
  | string v v' content => exact content.wireFields
  | statResponse v v' content => exact content.wireFields
  | listing v v' content => exact content.wireFields

/-- The bytes of the messages are the same but for those of the pointers. -/
structure UpToPointers (m m' : Message) : Prop where
  length : m.wire.length = m'.wire.length
  mask : maskFields m.fields = maskFields m'.fields
  content : ∀ i : ℕ, (maskFields m.fields)[i]? ≠ some true → m.wire[i]? = m'.wire[i]?
  pointers : m.wire = m'.wire ↔ addresses m.fields = addresses m'.fields

theorem Same.upToPointers {m m' : Message} (h : m.Same m') : m.UpToPointers m' := by
  refine ⟨?_, h.fields.mask_eq, fun i hi => ?_, ?_⟩
  · rw [m.wire_eq, m'.wire_eq, h.fields.length_eq]
  · rw [m.wire_eq, m'.wire_eq, h.fields.content_eq i hi]
  · rw [m.wire_eq, m'.wire_eq, h.fields.encode_eq_iff]

end Message

/-! ## Two writers -/

/-- On connections with the same room two writers take the same course: they hand over
as many bytes of `d` as of `d'` and end alike. With `whole` set, success means all. -/
def Matched (whole : Prop) (x y : OutM Bool) (d d' : List UInt8) : Prop :=
  ∀ s t : Sink UInt8, s.room = t.room → ∃ (k : ℕ) (s' t' : Sink UInt8), k ≤ d.length ∧
    s'.accepted = s.accepted ++ d.take k ∧ t'.accepted = t.accepted ++ d'.take k ∧
    s'.room = t'.room ∧
    ((∃ ok, x s = .ok ok s' ∧ y t = .ok ok t' ∧ (whole → ok = true → k = d.length)) ∨
      ∃ e, x s = .error e s' ∧ y t = .error e t')

namespace Matched

variable {whole : Prop} {x y x' y' : OutM Bool} {d d' e e' : List UInt8}

theorem done : Matched whole (pure true) (pure true) [] [] := fun s t hroom =>
  ⟨0, s, t, le_rfl, (List.append_nil _).symm, (List.append_nil _).symm, hroom,
    .inl ⟨true, rfl, rfl, fun _ _ => rfl⟩⟩

theorem refused (d d' : List UInt8) : Matched whole (pure false) (pure false) d d' :=
  fun s t hroom => ⟨0, s, t, Nat.zero_le _, (List.append_nil _).symm, (List.append_nil _).symm,
    hroom, .inl ⟨false, rfl, rfl, fun _ h => by cases h⟩⟩

theorem throw (e : Stop) (d d' : List UInt8) : Matched whole (throw e) (throw e) d d' :=
  fun s t hroom => ⟨0, s, t, Nat.zero_le _, (List.append_nil _).symm, (List.append_nil _).symm,
    hroom, .inr ⟨e, rfl, rfl⟩⟩

theorem safeWrite (h : d.length = d'.length) : Matched whole (safeWrite d) (safeWrite d') d d' := by
  intro s t hroom
  obtain ⟨s', hrun, htook⟩ := safeWrite_sends d s
  obtain ⟨t', hrun', htook'⟩ := safeWrite_sends d' t
  have hfit : s.fit d.length = t.fit d'.length := by rw [Sink.fit, Sink.fit, hroom, h]
  rw [← hfit, ← h] at hrun'
  rw [← hfit] at htook'
  refine ⟨s.fit d.length, s', t', s.fit_le _, htook.accepted, htook'.accepted, ?_, .inl
    ⟨_, hrun, hrun', fun _ hall => of_decide_eq_true hall⟩⟩
  rw [htook.room, htook'.room, hroom, List.length_take, List.length_take, h]

/-- The second part is handed over when the first one was taken in full. -/
theorem seq (hlen : d.length = d'.length) (h : Matched True x y d d')
    (h' : Matched whole x' y' e e') :
    Matched whole (do
      let ok ← x
      if ok then x' else pure false) (do
      let ok ← y
      if ok then y' else pure false) (d ++ e) (d' ++ e') := by
  intro s t hroom
  obtain ⟨k, s₁, t₁, hk, hs, ht, hroom₁, ⟨ok, hx, hy, hall⟩ | ⟨err, hx, hy⟩⟩ := h s t hroom
  · cases ok with
    | false =>
      refine ⟨k, s₁, t₁, by rw [List.length_append]; omega, ?_, ?_, hroom₁,
        .inl ⟨false, ?_, ?_, fun _ h => by cases h⟩⟩
      · rw [List.take_append_of_le_length hk, hs]
      · rw [List.take_append_of_le_length (hlen ▸ hk), ht]
      · rw [bind_of_ok hx, if_neg (by simp), pure_run]
      · rw [bind_of_ok hy, if_neg (by simp), pure_run]
    | true =>
      obtain rfl := hall trivial rfl
      obtain ⟨n, s₂, t₂, hn, hs', ht', hroom₂, hends⟩ := h' s₁ t₁ hroom₁
      refine ⟨d.length + n, s₂, t₂, by rw [List.length_append]; omega, ?_, ?_, hroom₂, ?_⟩
      · rw [List.take_length_add_append, hs', hs, List.take_length, List.append_assoc]
      · rw [hlen, List.take_length_add_append, ht', ht, hlen, List.take_length, List.append_assoc]
      · rw [bind_of_ok hx, bind_of_ok hy, if_pos rfl, if_pos rfl]
        refine hends.imp (fun ⟨ok, hx', hy', hall'⟩ => ⟨ok, hx', hy', fun hw hok => ?_⟩) id
        rw [hall' hw hok, List.length_append]
  · refine ⟨k, s₁, t₁, by rw [List.length_append]; omega, ?_, ?_, hroom₁,
      .inr ⟨err, bind_of_error hx, bind_of_error hy⟩⟩
    · rw [List.take_append_of_le_length hk, hs]
    · rw [List.take_append_of_le_length (hlen ▸ hk), ht]

end Matched

section Writers

variable {α : Type} {slz : Serializer α} {f : ArrayField α} {v w : α}

theorem ArrayField.elements_nil_of_count (hc : f.count v = 0) : f.elements v = [] := by
  rw [ArrayField.elements, hc, wmul, Nat.mul_zero, Nat.zero_mod, List.take_zero]

/-- Whether all counted elements are there can be told from the elements. -/
theorem ArrayField.short_iff :
    (f.field v).bytes.length < wmul f.elemSize (f.count v) ↔
      (f.elements v).length < wmul f.elemSize (f.count v) := by
  rw [ArrayField.elements, List.length_take]
  omega

theorem slzElementsWrite_matched (h : f.Same v w) :
    Matched True (slzElementsWrite f v) (slzElementsWrite f w) (f.elements v) (f.elements w) := by
  have hshort : (f.field w).bytes.length < wmul f.elemSize (f.count v) ↔
      (f.field v).bytes.length < wmul f.elemSize (f.count v) := by
    rw [h.count, ArrayField.short_iff, ← h.count, ArrayField.short_iff, h.elements]
  unfold slzElementsWrite
  simp only [← h.count, ← h.elements, hshort]
  by_cases hc : f.count v = 0
  · rw [if_pos hc, ArrayField.elements_nil_of_count hc]
    exact .done
  · rw [if_neg hc]
    split
    · exact .throw _ _ _
    · exact .safeWrite rfl

theorem slzArrayWrite_matched (h : f.Same v w) :
    Matched True (slzArrayWrite f v) (slzArrayWrite f w) (f.wire v) (f.wire w) := by
  have hnull : ((f.field v).address = 0 ∧ f.count v ≠ 0) ↔
      ((f.field w).address = 0 ∧ f.count w ≠ 0) := by
    rw [← h.count]
    exact and_congr_left h.held
  unfold slzArrayWrite
  simp only [hnull]
  split
  · exact .refused _ _
  · refine Matched.seq (by simp) ?_ (slzElementsWrite_matched h)
    rw [h.count]
    exact .safeWrite rfl

theorem slzArraysWrite_matched {fs : List (ArrayField α)} (h : ∀ f ∈ fs, f.Same v w) :
    Matched True (slzArraysWrite fs v) (slzArraysWrite fs w) (fs.flatMap fun f => f.wire v)
      (fs.flatMap fun f => f.wire w) := by
  induction fs with
  | nil => exact .done
  | cons f fs ih =>
    have hf := h f (by simp)
    exact Matched.seq (congrArg List.length hf.wire_eq) (slzArrayWrite_matched hf)
      (ih fun g hg => h g (List.mem_cons_of_mem _ hg))

theorem Layout.Same.write_matched {l : Layout slz} (h : l.Same v w) :
    Matched True (slz.write v) (slz.write w) (slz.wire v) (slz.wire w) := by
  have hlen : (slz.image v).length = (slz.image w).length := by
    rw [slz.image_length, slz.image_length]
  exact Matched.seq hlen (.safeWrite hlen) (slzArraysWrite_matched h.arrays)

/-- The writer of the union forgets what the writer of the arguments returned. -/
theorem Matched.forget {x y : OutM Bool} {d d' : List UInt8} (h : Matched True x y d d') :
    Matched False (do
      let _ ← x
      pure true) (do
      let _ ← y
      pure true) d d' := by
  intro s t hroom
  obtain ⟨k, s', t', hk, hs, ht, hroom', ⟨ok, hx, hy, -⟩ | ⟨e, hx, hy⟩⟩ := h s t hroom
  · exact ⟨k, s', t', hk, hs, ht, hroom', .inl ⟨true, by rw [bind_of_ok hx, pure_run],
      by rw [bind_of_ok hy, pure_run], fun h => h.elim⟩⟩
  · exact ⟨k, s', t', hk, hs, ht, hroom', .inr ⟨e, bind_of_error hx, bind_of_error hy⟩⟩

theorem Matched.weaken {x y : OutM Bool} {d d' : List UInt8} (h : Matched True x y d d') :
    Matched False x y d d' := by
  intro s t hroom
  obtain ⟨k, s', t', hk, hs, ht, hroom', hends⟩ := h s t hroom
  exact ⟨k, s', t', hk, hs, ht, hroom',
    hends.imp (fun ⟨ok, hx, hy, _⟩ => ⟨ok, hx, hy, fun h => h.elim⟩) id⟩

/-- Writing messages with the same content takes the same course. -/
theorem Message.Same.write_matched {m m' : Message} (h : m.Same m') :
    Matched False m.write m'.write m.wire m'.wire := by
  cases h with
  | op t args args' content =>
    exact Matched.seq rfl (.safeWrite rfl) content.write_matched.forget
  | other type =>
    have hseq := Matched.seq (x := safeWrite (leBytes 4 type)) rfl (.safeWrite rfl)
      (Matched.forget .done)
    rwa [List.append_nil] at hseq
  | string v v' content => exact content.write_matched.weaken
  | statResponse v v' content => exact content.write_matched.weaken
  | listing v v' content => exact content.write_matched.weaken

end Writers

end KisLinux.Net
