import TypeTraits.Builtin

/-!
# Ordered candidate lists

Searches such as "the smallest signed integer at least this wide" walk a fixed list and take
the first match. Integers stand in ascending rank; alignment candidates in the order in which
storage looks for a type with a given natural alignment.
-/

namespace TypeTraits

namespace Builtin

/-- The signed integer types in ascending rank, with or without the 128-bit one. -/
def signedLadder (wide : Bool) : List Builtin :=
  [signedChar, short, int, long, longLong] ++ if wide then [int128] else []

/-- The unsigned integer types in ascending rank, with or without the 128-bit one. -/
def unsignedLadder (wide : Bool) : List Builtin :=
  [unsignedChar, unsignedShort, unsignedInt, unsignedLong, unsignedLongLong] ++
    if wide then [unsignedInt128] else []

/-- The first type of a ladder that has at least `size` bytes. -/
def firstOfSize (target : Target) (ladder : List Builtin) (size : Nat) : Option Builtin :=
  ladder.find? fun k => size ≤ (k.layout target).size

end Builtin

/-- A type whose natural alignment storage may borrow. -/
inductive AlignCandidate where
  | builtin (kind : Builtin)
  /-- A struct that holds one `long double`. -/
  | longDoubleStruct
  /-- A struct that holds an array of four `double`. -/
  | doubleArrayStruct
  /-- A pointer to an object. -/
  | pointer
  deriving DecidableEq, Repr, Inhabited

namespace AlignCandidate

/-- Size and alignment of a candidate; the size of the array of four is a 64-bit word. -/
def layout (target : Target) : AlignCandidate → Layout
  | builtin k => k.layout target
  | longDoubleStruct => target.longDouble
  | doubleArrayStruct => ⟨target.double.size * 4 % Layout.limit, target.double.align⟩
  | pointer => target.pointer

def name : AlignCandidate → String
  | builtin k => k.name
  | longDoubleStruct => "struct \x7b long double \x7d"
  | doubleArrayStruct => "struct \x7b double[4] \x7d"
  | pointer => "int*"

/-- Every candidate, in search order. -/
def all : List AlignCandidate :=
  [builtin .unsignedChar, builtin .unsignedShort, builtin .unsignedInt, builtin .unsignedLong,
    builtin .unsignedLongLong, builtin .double, builtin .longDouble, longDoubleStruct,
    doubleArrayStruct, pointer]

/-- The candidate alignments on a target. -/
def alignments (target : Target) : List Nat :=
  all.map fun c => (c.layout target).align

/-- The first candidate with exactly the given alignment. -/
def withAlignment (target : Target) (align : Nat) : Option AlignCandidate :=
  all.find? fun c => (c.layout target).align == align

/-- The default alignment of `length` bytes: the strictest candidate alignment that is at most
`length`, or the loosest one when all are stricter. -/
def defaultAlignment (target : Target) (length : Nat) : Nat :=
  let aligns := alignments target
  ((aligns.filter (· ≤ length)).max?.or aligns.min?).getD 1

end AlignCandidate

end TypeTraits
