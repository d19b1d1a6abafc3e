import TypeTraits.Ty.View

/-!
# Enumerations

An enumeration is known by the range of its enumerators; the underlying type is the fixed one,
`int` for a scoped enumeration, and otherwise the first integer type that holds the range.
-/

namespace TypeTraits

/-- An enumeration whose enumerators span `least` to `greatest`. -/
structure Enumeration where
  id : EnumId
  name : String
  isScoped : Bool
  fixedUnderlying : Option Ty
  least : Int
  greatest : Int
  deriving DecidableEq, Repr, Inhabited

namespace Enumeration

/-- The value of an enumerator written in decimal, perhaps after a sign. Values have 128 bits. -/
def valueOfText? (text : String) : Option Int :=
  let (negative, digits) :=
    match text.toList with
    | '-' :: digits => (true, digits)
    | '+' :: digits => (false, digits)
    | digits => (false, digits)
  if digits.isEmpty || !digits.all Char.isDigit then none
  else
    let magnitude : Int := digits.foldl (fun n c => 10 * n + (c.toNat - '0'.toNat : Nat)) 0
    let value := if negative then -magnitude else magnitude
    let bound : Nat := 1 <<< 127
    if -bound ≤ value && value < bound then some value else none

/-- The integer types tried in turn. -/
def candidates : List Builtin :=
  [.int, .unsignedInt, .long, .unsignedLong, .longLong, .unsignedLongLong]

/-- Whether every enumerator is a value of `k`. -/
def fitsIn (e : Enumeration) (target : Target) (k : Builtin) : Bool :=
  let (low, high) := k.range target
  low ≤ e.least && e.greatest ≤ high

/-- The underlying type on a target. -/
def underlying (e : Enumeration) (target : Target) : Ty :=
  match e.fixedUnderlying with
  | some t => t
  | none =>
    if e.isScoped then .builtin .int
    else .builtin ((candidates.find? (e.fitsIn target)).getD .unsignedLongLong)

end Enumeration

end TypeTraits
