import TypeTraits.Hierarchy
import TypeTraits.Layout.Record
import TypeTraits.Trait.Assignment
import TypeTraits.Trait.Construction
import TypeTraits.Trait.Destruction

/-!
# Type properties

Facts about one type. Where no intrinsic answers, a class is empty when deriving from it adds
no byte, and polymorphic when `dynamic_cast` to a `void` pointer works on it; the properties of
representation hold then of scalars and arrays of scalars alone. Whether a class is abstract or
final, or has a virtual destructor, only the provider knows.
-/

namespace TypeTraits.Solver

variable (s : Solver)

/-- `std::size_t`: the first of `unsigned long`, `unsigned int` and `unsigned long long` that is
as wide as a pointer. -/
def sizeType : Ty :=
  let target := s.program.target
  let candidates : List Builtin := [.unsignedLong, .unsignedInt, .unsignedLongLong]
  .builtin <|
    (candidates.find? fun k => (k.layout target).size == target.pointer.size).getD
      .unsignedLongLong

def isEmpty (t : Ty) : Bool :=
  (s.intrinsic .isEmpty (s.ask .isEmpty t [] (Introspection.isEmpty s.program t))).getD
    ((s.program.class? t).isSome && s.program.emptyProbe t)

def isPolymorphic (t : Ty) : Bool :=
  (s.intrinsic .isPolymorphic
    (s.ask .isPolymorphic t [] (Introspection.isPolymorphic s.program t))).getD
    (s.program.dynamicCastToVoid t).isOk

def isAbstract (t : Ty) : Bool :=
  (s.ask .isAbstract t [] (Introspection.isAbstract s.program t)).getD false

def isFinal (t : Ty) : Bool := (s.ask .isFinal t [] (Introspection.isFinal s.program t)).getD false

def hasVirtualDestructor (t : Ty) : Bool :=
  (s.ask .hasVirtualDestructor t [] (Introspection.hasVirtualDestructor s.program t)).getD false

def isTriviallyCopyable (t : Ty) : Bool :=
  (s.intrinsic .isTriviallyCopyable
    (s.ask .isTriviallyCopyable t [] (Introspection.isTriviallyCopyable s.program t))).getD
    t.element.isScalar

def isStandardLayout (t : Ty) : Bool :=
  (s.intrinsic .isStandardLayout
    (s.ask .isStandardLayout t [] (Introspection.isStandardLayout s.program t))).getD
    t.element.isScalar

def isTrivial (t : Ty) : Bool :=
  (s.intrinsic .isTrivial (s.ask .isTrivial t [] (Introspection.isTrivial s.program t))).getD
    (s.isTriviallyCopyable t && s.isTriviallyConstructible t [])

/-- What the provider tells of a type that is both trivial and of standard layout. -/
def podAnswer (t : Ty) : Option Bool := do
  if ← s.ask .isTrivial t [] (Introspection.isTrivial s.program t) then
    s.ask .isStandardLayout t [] (Introspection.isStandardLayout s.program t)
  else some false

/-- A type that behaves as in C: trivially constructed, copied, assigned and destroyed, and of
standard layout. -/
def isPod (t : Ty) : Bool :=
  (s.intrinsic .isPod (s.podAnswer t)).getD
    (let u := t.element
    s.isTriviallyConstructible u [] &&
      s.isTriviallyConstructible u [s.copySource u] &&
      s.isTriviallyAssignable (s.assignmentTarget u) (s.copySource u) &&
      s.isTriviallyDestructible u &&
      s.isStandardLayout u)

def isLiteralType (t : Ty) : Bool :=
  (s.intrinsic .isLiteralType
    (s.ask .isLiteralType t [] (Introspection.isLiteralType s.program t))).getD
    (t.element.isScalar || t.element.isReference)

/-- Only an intrinsic knows. -/
def isAggregate (t : Ty) : Bool :=
  (s.intrinsic .isAggregate
    (s.ask .isAggregate t [] (Introspection.isAggregate s.program t))).getD false

/-- Only an intrinsic knows. -/
def hasUniqueObjectRepresentations (t : Ty) : Bool :=
  (s.intrinsic .hasUniqueObjectRepresentations
    (s.ask .hasUniqueObjectRepresentations t []
      (Introspection.hasUniqueObjectRepresentations s.program t))).getD false

/-- The underlying type of an enumeration, where an intrinsic tells it; other types are
rejected. -/
def underlyingType (t : Ty) : Except TraitError (Option Ty) :=
  if (s.program.enumOf? t).isNone then .error (.notEnum (s.program.spell t))
  else
    .ok (s.intrinsic .underlyingType
      (s.ask .underlyingType t [] (Introspection.underlyingType s.program t)))

end TypeTraits.Solver
