import TypeTraits.Expr.Basic

/-!
# Conversion sequences

An implicit conversion sequence is standard, user-defined or an ellipsis match. Comparing two
sequences is what overload resolution ranks candidates by: `lt` means the better one.
-/

namespace TypeTraits

/-- Rank of a standard conversion; lower is better. -/
inductive ConversionRank where
  | exact
  | promotion
  | conversion
  deriving DecidableEq, Repr, Inhabited

/-- Form of a conversion sequence; lower is better. -/
inductive ConversionKind where
  | standard
  | userDefined
  | ellipsis
  deriving DecidableEq, Repr, Inhabited

def ConversionRank.toNat : ConversionRank → Nat
  | exact => 0
  | promotion => 1
  | conversion => 2

def ConversionKind.toNat : ConversionKind → Nat
  | standard => 0
  | userDefined => 1
  | ellipsis => 2

/-- Which functions of a record a function is one of. -/
inductive FunctionSet where
  | constructor
  | assignment
  | destructor
  | conversion
  | call
  | indirection
  | swap
  /-- Functions of the library that belong to no record. -/
  | library
  deriving DecidableEq, Repr, Inhabited

/-- The identity of a declared function. -/
structure FunctionRef where
  record : RecordId
  set : FunctionSet
  index : Nat
  deriving DecidableEq, Repr, Inhabited

/-- How a reference is bound. -/
structure ReferenceBinding where
  /-- An rvalue reference is bound to an rvalue. -/
  rvalueToRvalue : Bool
  /-- The referenced type without its qualification. -/
  referent : Ty
  cv : Cv
  /-- The reference is the object parameter of a function without ref-qualifier. -/
  implicitObject : Bool
  /-- The reference is bound to a temporary. -/
  temporary : Bool
  deriving DecidableEq, Repr, Inhabited

/-- An implicit conversion sequence. In a user-defined one, rank, distance and
`pointerToBool` describe the conversion after the user's function. -/
structure Conversion where
  kind : ConversionKind := .standard
  rank : ConversionRank := .exact
  effects : Effects := .none
  /-- Inheritance distance of a derived-to-base conversion. -/
  derivedDistance : Option Nat := none
  pointerToBool : Bool := false
  binding : Option ReferenceBinding := none
  /-- The converting constructor or conversion function. -/
  user : Option FunctionRef := none
  deriving DecidableEq, Repr, Inhabited

namespace Conversion

def identity : Conversion := {}

def standard (rank : ConversionRank) : Conversion := { rank }

def ellipsis : Conversion := { kind := .ellipsis }

/-- A conversion to a base at some distance; distance zero is the identity. -/
def derivedToBase (distance : Nat) : Conversion :=
  if distance = 0 then identity
  else { rank := .conversion, derivedDistance := some distance }

/-- The conversion through `user` that goes on with `second`. -/
def userDefined (user : FunctionRef) (second : Conversion) (effects : Effects) : Conversion :=
  { second with kind := .userDefined, effects, user := some user }

/-- Binding of an object to the object parameter of a member function of `cls`. -/
def objectBinding (cls : Ty) (cv : Cv) (distance : Nat) (ref : RefQualifier)
    (objectIsRvalue : Bool) : Conversion :=
  { derivedToBase distance with
    binding := some
      { rvalueToRvalue := ref == .rvalue && objectIsRvalue
        referent := cls
        cv
        implicitObject := ref == .none
        temporary := false } }

/-- Of two flags, the one that is down is better. -/
def compareFlags (a b : Bool) : Ordering :=
  match a, b with
  | false, true => .lt
  | true, false => .gt
  | _, _ => .eq

/-- The shorter of two known distances is better. -/
def compareDistances : Option Nat → Option Nat → Ordering
  | some a, some b => compare a b
  | _, _ => .eq

end Conversion

namespace ReferenceBinding

/-- Binding an rvalue to an rvalue reference is better, unless an object parameter without
ref-qualifier takes part. -/
def compareCategory (a b : ReferenceBinding) : Ordering :=
  if a.implicitObject || b.implicitObject then .eq
  else Conversion.compareFlags b.rvalueToRvalue a.rvalueToRvalue

/-- Of two references to the same type, the one that is less qualified is better. -/
def compareCv (a b : ReferenceBinding) : Ordering :=
  if a.referent = b.referent ∧ a.cv ≠ b.cv then
    if b.cv.covers a.cv then .lt
    else if a.cv.covers b.cv then .gt
    else .eq
  else .eq

def compare : Option ReferenceBinding → Option ReferenceBinding → Ordering
  | some a, some b => (a.compareCategory b).then (a.compareCv b)
  | _, _ => .eq

end ReferenceBinding

namespace Conversion

/-- Which of two sequences is the better one. Sequences through different functions of the
user are indistinguishable, and so are ellipsis matches. -/
def compare (a b : Conversion) : Ordering :=
  (Ord.compare a.kind.toNat b.kind.toNat).then <|
    if a.kind = .ellipsis then .eq
    else if a.kind = .userDefined ∧ a.user ≠ b.user then .eq
    else
      (Ord.compare a.rank.toNat b.rank.toNat).then <|
        (compareFlags a.pointerToBool b.pointerToBool).then <|
          (compareDistances a.derivedDistance b.derivedDistance).then <|
            ReferenceBinding.compare a.binding b.binding

end Conversion

end TypeTraits
