import TypeTraits.Pool.Basic
import TypeTraits.Ty.View

/-!
# Tables of types

A type table gives each type a handle, so that equal types have equal handles. It holds a node
for every compound type; the parts of a node are handles again, and a function node has the
number of its signature. A function node may have the number of a signature that arrives only
later; it stands for that function type from then on. The types without parts are not stored:
they have the handles from 1 on, and stored nodes those from 64 on.
-/

namespace TypeTraits

/-- What stands for a type. -/
structure TypeHandle where
  number : UInt32
  deriving DecidableEq, Repr, Inhabited, Hashable

/-- A type whose parts are handles. -/
inductive TypeNode where
  | void
  | nullptr
  | builtin (kind : Builtin)
  | qualified (type : TypeHandle) (cv : Cv)
  | pointer (pointee : TypeHandle)
  | lvalueRef (referent : TypeHandle)
  | rvalueRef (referent : TypeHandle)
  | array (element : TypeHandle) (bound : Option Nat)
  | function (signature : Nat)
  | memberPointer (cls pointee : TypeHandle)
  | record (id : RecordId)
  | enum (id : EnumId)
  deriving DecidableEq, Repr, Inhabited, Hashable

namespace TypeNode

/-- The nodes that have a handle of their own, in the order of their handles. -/
def predefined : List TypeNode := [void, nullptr] ++ Builtin.all.map builtin

/-- The handle of a node that is not stored. -/
def predefinedHandle? (n : TypeNode) : Option TypeHandle :=
  (predefined.idxOf? n).map fun i => ⟨UInt32.ofNat (i + 1)⟩

end TypeNode

/-- A function signature whose types are handles. -/
structure StoredSignature where
  result : TypeHandle
  params : List TypeHandle
  quals : FunctionQualifiers
  deriving DecidableEq, Repr, Inhabited

/-- Distinct types with their handles. -/
structure TypeTable where
  nodes : Pool TypeNode
  /-- Each signature once, in order of arrival. -/
  signatures : Array StoredSignature

namespace TypeTable

def fresh : TypeTable := ⟨.empty, #[]⟩

/-- The handle of the first stored node. -/
def firstStored : UInt32 := 64

/-- The handle of a node, entered into the table if it is new. -/
def intern (sharding : Sharding TypeNode) (table : TypeTable) (n : TypeNode) :
    TypeHandle × TypeTable :=
  match n.predefinedHandle? with
  | some handle => (handle, table)
  | none =>
    let shard := sharding n
    match table.nodes.place? shard n with
    | some place => (⟨firstStored + Pool.slot shard place⟩, table)
    | none =>
      let place := table.nodes.shardSize shard
      (⟨firstStored + Pool.slot shard place⟩, { table with nodes := table.nodes.push shard n })

/-- The node that a handle stands for. -/
def lookup? (table : TypeTable) (handle : TypeHandle) : Option TypeNode :=
  if handle.number < firstStored then
    if handle.number = 0 then none else TypeNode.predefined[handle.number.toNat - 1]?
  else table.nodes.get? (handle.number - firstStored)

/-- The number of a signature, entered into the table if it is new. -/
def internSignature (table : TypeTable) (s : StoredSignature) : Nat × TypeTable :=
  match table.signatures.idxOf? s with
  | some number => (number, table)
  | none => (table.signatures.size, { table with signatures := table.signatures.push s })

/-- The number of stored nodes. -/
def size (table : TypeTable) : Nat := table.nodes.size

mutual

/-- The handle of a type; its parts are entered first. -/
def add (sharding : Sharding TypeNode) (table : TypeTable) : Ty → TypeHandle × TypeTable
  | .void => table.intern sharding .void
  | .nullptr => table.intern sharding .nullptr
  | .builtin k => table.intern sharding (.builtin k)
  | .qualified t cv =>
    let (t, table) := add sharding table t
    table.intern sharding (.qualified t cv)
  | .pointer t =>
    let (t, table) := add sharding table t
    table.intern sharding (.pointer t)
  | .lvalueRef t =>
    let (t, table) := add sharding table t
    table.intern sharding (.lvalueRef t)
  | .rvalueRef t =>
    let (t, table) := add sharding table t
    table.intern sharding (.rvalueRef t)
  | .array t bound =>
    let (t, table) := add sharding table t
    table.intern sharding (.array t bound)
  | .function result params quals =>
    let (result, table) := add sharding table result
    let (params, table) := addAll sharding table params
    let (number, table) := table.internSignature ⟨result, params, quals⟩
    table.intern sharding (.function number)
  | .memberPointer cls t =>
    let (cls, table) := add sharding table cls
    let (t, table) := add sharding table t
    table.intern sharding (.memberPointer cls t)
  | .record id => table.intern sharding (.record id)
  | .enum id => table.intern sharding (.enum id)
  | .functionNamed number => table.intern sharding (.function number)
  | .unknown number => (⟨UInt32.ofNat number⟩, table)

/-- The handles of several types. -/
def addAll (sharding : Sharding TypeNode) (table : TypeTable) :
    List Ty → List TypeHandle × TypeTable
  | [] => ([], table)
  | t :: rest =>
    let (handle, table) := add sharding table t
    let (handles, table) := addAll sharding table rest
    (handle :: handles, table)

end

/-- The type behind a handle, read through at most `bound` nodes in a row. A signature may mention
its own number, so one of the signatures `within` that are being read is only named. -/
def readWithin (table : TypeTable) (within : List Nat) : Nat → TypeHandle → Ty
  | 0, handle => .unknown handle.number.toNat
  | bound + 1, handle =>
    match table.lookup? handle with
    | none => .unknown handle.number.toNat
    | some .void => .void
    | some .nullptr => .nullptr
    | some (.builtin k) => .builtin k
    | some (.qualified t cv) => .qualified (readWithin table within bound t) cv
    | some (.pointer t) => .pointer (readWithin table within bound t)
    | some (.lvalueRef t) => .lvalueRef (readWithin table within bound t)
    | some (.rvalueRef t) => .rvalueRef (readWithin table within bound t)
    | some (.array t b) => .array (readWithin table within bound t) b
    | some (.function number) =>
      if number ∈ within then .functionNamed number
      else
        match table.signatures[number]? with
        | some s =>
          let part := readWithin table (number :: within) bound
          .function (part s.result) (s.params.map part) s.quals
        | none => .functionNamed number
    | some (.memberPointer cls t) =>
      .memberPointer (readWithin table within bound cls) (readWithin table within bound t)
    | some (.record id) => .record id
    | some (.enum id) => .enum id

/-- The type behind a handle. No chain of different nodes is longer than the table. -/
def read (table : TypeTable) (handle : TypeHandle) : Ty :=
  table.readWithin [] (table.size + 1) handle

/-- The function type with the signature of a given number. -/
def functionType (table : TypeTable) (number : Nat) : Ty :=
  match table.signatures[number]? with
  | some s =>
    let part := table.readWithin [number] (table.size + 1)
    .function (part s.result) (s.params.map part) s.quals
  | none => .functionNamed number

/-- The number of distinct signatures. -/
def signatureCount (table : TypeTable) : Nat := table.signatures.size

end TypeTable

/-- The type without parts that has a given handle number. -/
def Ty.predefined? (number : Nat) : Option Ty :=
  if number = 0 then none
  else (([.void, .nullptr] ++ Builtin.all.map .builtin : List Ty))[number - 1]?

/-- The handle number of a builtin type. -/
def Builtin.handleNumber (k : Builtin) : Nat := Builtin.all.idxOf k + 3

end TypeTraits
