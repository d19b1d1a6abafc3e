import TypeTraits.Pool.Basic

/-!
# Names

A name table gives each name an atom, so that equal names have equal atoms. The empty name is
there from the beginning and has the atom that stands for no name. A full shard takes no further
name: asking for one gives that atom too.
-/

namespace TypeTraits

/-- What stands for a name. -/
structure Atom where
  slot : UInt32
  deriving DecidableEq, Repr, Inhabited

namespace Atom

/-- The atom of no name. -/
def none : Atom := ⟨0⟩

def isNone (a : Atom) : Bool := a.slot == 0

end Atom

/-- Distinct names with their atoms. -/
structure NameTable where
  pool : Pool String

namespace NameTable

/-- The number of names a shard can hold: as many as there are places in a slot. -/
def shardCapacity : Nat := 1 <<< 26

/-- The table that holds the empty name alone. -/
def fresh : NameTable := ⟨Pool.empty.push ⟨0, by decide⟩ ""⟩

/-- The atom of a name, entered into the table if it is new. -/
def intern (sharding : Sharding String) (table : NameTable) (name : String) : Atom × NameTable :=
  if name.isEmpty then (.none, table)
  else
    let shard := sharding name
    match table.pool.place? shard name with
    | some place => (⟨Pool.slot shard place⟩, table)
    | none =>
      let place := table.pool.shardSize shard
      if place < shardCapacity then (⟨Pool.slot shard place⟩, ⟨table.pool.push shard name⟩)
      else (.none, table)

/-- The atoms of several names, entered in order. -/
def internAll (sharding : Sharding String) (table : NameTable) :
    List String → List Atom × NameTable
  | [] => ([], table)
  | name :: rest =>
    let (atom, table) := table.intern sharding name
    let (atoms, table) := internAll sharding table rest
    (atom :: atoms, table)

variable (table : NameTable)

/-- The name behind an atom that the table gave. -/
def resolve? (a : Atom) : Option String := table.pool.get? a.slot

/-- The name behind an atom, or the empty name. -/
def resolve (a : Atom) : String := (table.resolve? a).getD ""

/-- The number of names, the empty one included. -/
def size : Nat := table.pool.size

/-- Whether there is no name but the empty one. -/
def isEmpty : Bool := table.size ≤ 1

end NameTable

/-- The names that most programs use: adapters of the library and the functions that
expressions look up. -/
def commonNames : List String :=
  ["std::reference_wrapper", "std::unique_ptr", "std::shared_ptr", "std::function", "get",
    "swap", "operator()", "operator*", "operator="]

end TypeTraits
