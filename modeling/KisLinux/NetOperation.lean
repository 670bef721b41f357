import KisLinux.NetSerializer

/-!
# Operations on the wire

The argument structures of the six operations, packed, and the tagged union
around them. The reader and the writer of the union drop what the reader and the
writer of the arguments return. `Carries` relates a structure whose arrays are
all there to the request it stands for, in which pointer values play no role.
-/
namespace KisLinux.Net
open ByteMemory StateRun ShortTransfer Fs

/-- `String`. -/
structure NetString where
  length : ℕ
  string : Buffer
  deriving DecidableEq, Repr

def NetString.image (s : NetString) : List UInt8 := leBytes 8 s.length ++ leBytes 8 s.string.address

def NetString.ofImage (b : List UInt8) : NetString :=
  ⟨leNat (b.take 8), .dangling (leNat ((b.drop 8).take 8))⟩

/-- The characters that the length counts. -/
def NetString.chars (s : NetString) : List UInt8 := s.string.bytes.take s.length

@[simp] theorem NetString.image_length (s : NetString) : s.image.length = 16 := by
  simp [NetString.image]

structure FsOpReadArgs where
  path : NetString
  offset : ℕ
  length : ℕ
  deriving DecidableEq, Repr

structure FsOpWriteArgs where
  path : NetString
  offset : ℕ
  length : ℕ
  data : Buffer
  deriving DecidableEq, Repr

structure FsOpCreateArgs where
  path : NetString
  flags : UInt8
  deriving DecidableEq, Repr

/-- The operations that only have a path. -/
structure FsOpPathArgs where
  path : NetString
  deriving DecidableEq, Repr

abbrev FsOpRemoveArgs := FsOpPathArgs

abbrev FsOpStatArgs := FsOpPathArgs

abbrev FsOpReadDirArgs := FsOpPathArgs

def FsOpPathArgs.serializer : Serializer FsOpPathArgs where
  size := 16
  image v := v.path.image
  ofImage b := ⟨.ofImage b⟩
  arrays := [⟨fun v => v.path.length, fun v => v.path.string, fun n b _ => ⟨⟨n, b⟩⟩, 1, Nat.one_pos⟩]
  image_length := fun v => v.path.image_length

def slzFsOpRead : Serializer FsOpReadArgs where
  size := 32
  image v := v.path.image ++ leBytes 8 v.offset ++ leBytes 8 v.length
  ofImage b := ⟨.ofImage b, leNat ((b.drop 16).take 8), leNat ((b.drop 24).take 8)⟩
  arrays := [⟨fun v => v.path.length, fun v => v.path.string,
    fun n b v => { v with path := ⟨n, b⟩ }, 1, Nat.one_pos⟩]
  image_length := fun v => by simp

def slzFsOpWrite : Serializer FsOpWriteArgs where
  size := 40
  image v := v.path.image ++ leBytes 8 v.offset ++ leBytes 8 v.length ++ leBytes 8 v.data.address
  ofImage b := ⟨.ofImage b, leNat ((b.drop 16).take 8), leNat ((b.drop 24).take 8),
    .dangling (leNat ((b.drop 32).take 8))⟩
  arrays := [⟨fun v => v.path.length, fun v => v.path.string,
      fun n b v => { v with path := ⟨n, b⟩ }, 1, Nat.one_pos⟩,
    ⟨fun v => v.length, fun v => v.data, fun n b v => { v with length := n, data := b }, 1,
      Nat.one_pos⟩]
  image_length := fun v => by simp

def slzFsOpCreate : Serializer FsOpCreateArgs where
  size := 17
  image v := v.path.image ++ [v.flags]
  ofImage b := ⟨.ofImage b, (b.drop 16).headD 0⟩
  arrays := [⟨fun v => v.path.length, fun v => v.path.string,
    fun n b v => { v with path := ⟨n, b⟩ }, 1, Nat.one_pos⟩]
  image_length := fun v => by simp

def slzFsOpRemove : Serializer FsOpRemoveArgs := FsOpPathArgs.serializer

def slzFsOpStat : Serializer FsOpStatArgs := FsOpPathArgs.serializer

def slzFsOpReadDir : Serializer FsOpReadDirArgs := FsOpPathArgs.serializer

/-- `enum FsOpType`. -/
inductive FsOpType
  | read
  | write
  | create
  | remove
  | stat
  | readDir
  deriving DecidableEq, Repr

namespace FsOpType

def code : FsOpType → ℕ
  | read => 0
  | write => 1
  | create => 2
  | remove => 3
  | stat => 4
  | readDir => 5

def ofCode : ℕ → Option FsOpType
  | 0 => some read
  | 1 => some write
  | 2 => some create
  | 3 => some remove
  | 4 => some stat
  | 5 => some readDir
  | _ => none

@[simp] theorem ofCode_code (t : FsOpType) : ofCode t.code = some t := by cases t <;> rfl

/-- The member of the union that belongs to a type. -/
def Args : FsOpType → Type
  | read => FsOpReadArgs
  | write => FsOpWriteArgs
  | create => FsOpCreateArgs
  | remove => FsOpRemoveArgs
  | stat => FsOpStatArgs
  | readDir => FsOpReadDirArgs

def serializer : (t : FsOpType) → Serializer t.Args
  | read => slzFsOpRead
  | write => slzFsOpWrite
  | create => slzFsOpCreate
  | remove => slzFsOpRemove
  | stat => slzFsOpStat
  | readDir => slzFsOpReadDir

/-- The path of the arguments. -/
def path : (t : FsOpType) → t.Args → NetString
  | read, v => FsOpReadArgs.path v
  | write, v => FsOpWriteArgs.path v
  | create, v => FsOpCreateArgs.path v
  | remove, v => FsOpPathArgs.path v
  | stat, v => FsOpPathArgs.path v
  | readDir, v => FsOpPathArgs.path v

end FsOpType

/-- The tagged union; `other` has a tag that is no operation. -/
inductive NetFsOperation
  | op (type : FsOpType) (args : type.Args)
  | other (type : ℕ)

/-- `slz_NetFsOperation_read` over the memory `old`. -/
def slzNetFsOperationRead (old : List UInt8) : InM (Bool × NetFsOperation) := do
  let r ← safeRead 4
  let type := leNat (r.2 ++ (old.take 4).drop r.2.length)
  if r.1 = false then pure (false, .other type)
  else
    match FsOpType.ofCode type with
    | none => pure (true, .other type)
    | some t => do
      let args ← t.serializer.read (t.serializer.ofImage ((old.drop 4).take t.serializer.size))
      pure (true, .op t args.2)

/-- The operation that the server reads next. -/
def nextOperation (old : List UInt8) (input : Input) : Option NetFsOperation :=
  match slzNetFsOperationRead old input with
  | .ok (true, op) _ => some op
  | _ => none

/-- All of the operation has come, and its path ends in it. -/
def NetFsOperation.Whole : NetFsOperation → Prop
  | .op t args => (∀ f ∈ t.serializer.arrays, f.Full args) ∧ 0 ∈ (t.path args).chars
  | .other _ => True

def NetFsOperation.type : NetFsOperation → ℕ
  | .op t _ => t.code
  | .other type => type

/-- `_FSOP_writers`. -/
def fsopWriters : NetFsOperation → OutM Bool
  | .op t args => t.serializer.write args
  | .other _ => pure true

def slzNetFsOperationWrite (op : NetFsOperation) : OutM Bool := do
  let ok ← safeWrite (leBytes 4 op.type)
  if ok then do
    let _ ← fsopWriters op
    pure true
  else pure false

/-! ## Requests -/

/-- An operation as a client means it. -/
inductive Request
  | read (path : List UInt8) (offset length : ℕ)
  | write (path : List UInt8) (offset : ℕ) (data : List UInt8)
  | create (path : List UInt8) (flags : UInt8)
  | remove (path : List UInt8)
  | stat (path : List UInt8)
  | readDir (path : List UInt8)
  deriving DecidableEq, Repr

namespace Request

def path : Request → List UInt8
  | read path _ _ | write path _ _ | create path _ | remove path | stat path | readDir path => path

def data : Request → List UInt8
  | write _ _ data => data
  | _ => []

/-- The numbers of a request are `size_t`. -/
def Fits : Request → Prop
  | read _ offset length => offset < wordSize ∧ length < wordSize
  | write _ offset _ => offset < wordSize
  | _ => True

end Request

def FsOpType.request : (t : FsOpType) → t.Args → Request
  | read, v => let v : FsOpReadArgs := v; .read v.path.chars v.offset v.length
  | write, v => let v : FsOpWriteArgs := v; .write v.path.chars v.offset (v.data.bytes.take v.length)
  | create, v => let v : FsOpCreateArgs := v; .create v.path.chars v.flags
  | remove, v => let v : FsOpRemoveArgs := v; .remove v.path.chars
  | stat, v => let v : FsOpStatArgs := v; .stat v.path.chars
  | readDir, v => let v : FsOpReadDirArgs := v; .readDir v.path.chars

/-- The arrays of the operation are all there and spell the request. -/
inductive NetFsOperation.Carries : NetFsOperation → Request → Prop
  | op (t : FsOpType) (args : t.Args) (full : ∀ f ∈ t.serializer.arrays, f.Full args) :
      Carries (.op t args) (t.request args)

theorem NetFsOperation.Carries.whole {op : NetFsOperation} {r : Request} (h : op.Carries r)
    (h0 : 0 ∈ r.path) : op.Whole := by
  cases h with
  | op t args full => cases t <;> exact ⟨full, h0⟩

/-- The bytes of an operation on the wire. -/
def NetFsOperation.wire : NetFsOperation → List UInt8
  | .op t args => leBytes 4 t.code ++ t.serializer.wire args
  | .other type => leBytes 4 type

end KisLinux.Net
