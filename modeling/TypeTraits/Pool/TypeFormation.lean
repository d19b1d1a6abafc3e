import TypeTraits.Pool.TypeTable

/-!
# Forming types in a table

The operations that form types in normal form, on handles. Each looks at the node behind the
handle it is given and no deeper, and relies on that node being in normal form already; only
qualifying an array goes on to its elements.
-/

namespace TypeTraits.TypeTable

/-- Adds a set of qualifiers that is known not to be empty, through at most `bound` arrays in a
row. -/
def withCvWithin (sharding : Sharding TypeNode) (cv : Cv) :
    Nat → TypeTable → TypeHandle → TypeHandle × TypeTable
  | 0, table, handle => (handle, table)
  | bound + 1, table, handle =>
    match table.lookup? handle with
    | some (.qualified inner have_) =>
      if have_.covers cv then (handle, table)
      else table.intern sharding (.qualified inner (have_ ∪ cv))
    | some (.lvalueRef _) | some (.rvalueRef _) | some (.function _) => (handle, table)
    | some (.array element b) =>
      let (element, table) := withCvWithin sharding cv bound table element
      table.intern sharding (.array element b)
    | _ => table.intern sharding (.qualified handle cv)

variable (sharding : Sharding TypeNode) (table : TypeTable)

/-- The type with `cv` added to its top-level qualification. No chain of different nodes is longer
than the table. -/
def qualify (handle : TypeHandle) (cv : Cv) : TypeHandle × TypeTable :=
  if cv.isEmpty then (handle, table)
  else withCvWithin sharding cv (table.size + 1) table handle

/-- `T*`. -/
def pointerTo (handle : TypeHandle) : TypeHandle × TypeTable :=
  table.intern sharding (.pointer handle)

/-- `T&`, where `&` absorbs a reference. -/
def lvalueRefTo (handle : TypeHandle) : TypeHandle × TypeTable :=
  match table.lookup? handle with
  | some (.lvalueRef _) => (handle, table)
  | some (.rvalueRef inner) => table.intern sharding (.lvalueRef inner)
  | _ => table.intern sharding (.lvalueRef handle)

/-- `T&&`, where an existing reference stays. -/
def rvalueRefTo (handle : TypeHandle) : TypeHandle × TypeTable :=
  match table.lookup? handle with
  | some (.lvalueRef _) | some (.rvalueRef _) => (handle, table)
  | _ => table.intern sharding (.rvalueRef handle)

/-- `T[bound]`. -/
def arrayOf (handle : TypeHandle) (bound : Option Nat) : TypeHandle × TypeTable :=
  table.intern sharding (.array handle bound)

/-- The type a parameter declared with this type has. -/
def asParameter (handle : TypeHandle) : TypeHandle × TypeTable :=
  match table.lookup? handle with
  | some (.qualified inner _) => (inner, table)
  | some (.array element _) => table.pointerTo sharding element
  | some (.function _) => table.pointerTo sharding handle
  | _ => (handle, table)

/-- The types that several parameters have. -/
def asParameters (table : TypeTable) : List TypeHandle → List TypeHandle × TypeTable
  | [] => ([], table)
  | handle :: rest =>
    let (param, table) := table.asParameter sharding handle
    let (params, table) := asParameters table rest
    (param :: params, table)

/-- The function type that a declarator with these parameters declares. -/
def functionOf (s : StoredSignature) : TypeHandle × TypeTable :=
  let (params, table) := table.asParameters sharding s.params
  let (number, table) := table.internSignature { s with params }
  table.intern sharding (.function number)

/-- `T C::*`. -/
def memberPointerTo (cls pointee : TypeHandle) : TypeHandle × TypeTable :=
  table.intern sharding (.memberPointer cls pointee)

end TypeTraits.TypeTable
