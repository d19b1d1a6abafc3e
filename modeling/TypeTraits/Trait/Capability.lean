/-!
# Capabilities

Which compiler intrinsics and which language features answers may rely on. A set of flags is a
32-bit word, so that bits without a name survive being read and written.
-/

namespace TypeTraits

/-- A compiler intrinsic that answers a trait directly. -/
inductive Intrinsic where
  | isConvertibleTo
  | isConstructible
  | isAssignable
  | isDestructible
  | isTriviallyConstructible
  | isTriviallyAssignable
  | isTriviallyDestructible
  | hasTrivialConstructor
  | hasTrivialDestructor
  | isNothrowConstructible
  | isNothrowAssignable
  | isEmpty
  | isPolymorphic
  | isPod
  | isStandardLayout
  | isTriviallyCopyable
  | isTrivial
  | isLiteralType
  | isAggregate
  | hasUniqueObjectRepresentations
  | underlyingType
  deriving DecidableEq, Repr

namespace Intrinsic

/-- Every flag, from the lowest bit on. -/
def all : List Intrinsic :=
  [isConvertibleTo, isConstructible, isAssignable, isDestructible, isTriviallyConstructible,
    isTriviallyAssignable, isTriviallyDestructible, hasTrivialConstructor, hasTrivialDestructor,
    isNothrowConstructible, isNothrowAssignable, isEmpty, isPolymorphic, isPod, isStandardLayout,
    isTriviallyCopyable, isTrivial, isLiteralType, isAggregate, hasUniqueObjectRepresentations,
    underlyingType]

/-- The flag as it is written in a configuration. -/
def flagName : Intrinsic → String
  | isConvertibleTo => "IS_CONVERTIBLE_TO"
  | isConstructible => "IS_CONSTRUCTIBLE"
  | isAssignable => "IS_ASSIGNABLE"
  | isDestructible => "IS_DESTRUCTIBLE"
  | isTriviallyConstructible => "IS_TRIVIALLY_CONSTRUCTIBLE"
  | isTriviallyAssignable => "IS_TRIVIALLY_ASSIGNABLE"
  | isTriviallyDestructible => "IS_TRIVIALLY_DESTRUCTIBLE"
  | hasTrivialConstructor => "HAS_TRIVIAL_CONSTRUCTOR"
  | hasTrivialDestructor => "HAS_TRIVIAL_DESTRUCTOR"
  | isNothrowConstructible => "IS_NOTHROW_CONSTRUCTIBLE"
  | isNothrowAssignable => "IS_NOTHROW_ASSIGNABLE"
  | isEmpty => "IS_EMPTY"
  | isPolymorphic => "IS_POLYMORPHIC"
  | isPod => "IS_POD"
  | isStandardLayout => "IS_STANDARD_LAYOUT"
  | isTriviallyCopyable => "IS_TRIVIALLY_COPYABLE"
  | isTrivial => "IS_TRIVIAL"
  | isLiteralType => "IS_LITERAL_TYPE"
  | isAggregate => "IS_AGGREGATE"
  | hasUniqueObjectRepresentations => "HAS_UNIQUE_OBJECT_REPRESENTATIONS"
  | underlyingType => "UNDERLYING_TYPE"

/-- The flag's bit. -/
def index : Intrinsic → Nat
  | isConvertibleTo => 0
  | isConstructible => 1
  | isAssignable => 2
  | isDestructible => 3
  | isTriviallyConstructible => 4
  | isTriviallyAssignable => 5
  | isTriviallyDestructible => 6
  | hasTrivialConstructor => 7
  | hasTrivialDestructor => 8
  | isNothrowConstructible => 9
  | isNothrowAssignable => 10
  | isEmpty => 11
  | isPolymorphic => 12
  | isPod => 13
  | isStandardLayout => 14
  | isTriviallyCopyable => 15
  | isTrivial => 16
  | isLiteralType => 17
  | isAggregate => 18
  | hasUniqueObjectRepresentations => 19
  | underlyingType => 20

theorem mem_all (f : Intrinsic) : f ∈ all := by
  cases f <;> decide

end Intrinsic

/-- A language feature. Without `noexcept` queries, exception specifications are unknown; the
128-bit integers end the integer ladders; member functions may have ref-qualifiers. -/
inductive Feature where
  | noexcept
  | int128
  | refQualifiedFunctions
  deriving DecidableEq, Repr

namespace Feature

/-- Every flag, from the lowest bit on. -/
def all : List Feature :=
  [noexcept, int128, refQualifiedFunctions]

/-- The flag as it is written in a configuration. -/
def flagName : Feature → String
  | noexcept => "NOEXCEPT"
  | int128 => "INT128"
  | refQualifiedFunctions => "REF_QUALIFIED_FUNCTIONS"

/-- The flag's bit. -/
def index : Feature → Nat
  | noexcept => 0
  | int128 => 1
  | refQualifiedFunctions => 2

theorem mem_all (f : Feature) : f ∈ all := by
  cases f <;> decide

end Feature

/-- A set of intrinsics and features. -/
structure Capabilities where
  intrinsics : BitVec 32
  features : BitVec 32
  deriving DecidableEq, Repr, Inhabited

namespace Capabilities

/-- Every intrinsic and every feature. -/
def all : Capabilities where
  intrinsics := BitVec.ofNat 32 ((1 <<< Intrinsic.all.length) - 1)
  features := BitVec.ofNat 32 ((1 <<< Feature.all.length) - 1)

/-- No intrinsic and no feature. -/
def none : Capabilities := ⟨0, 0⟩

/-- Whether an intrinsic is available. -/
def has (c : Capabilities) (i : Intrinsic) : Bool := c.intrinsics.getLsbD i.index

/-- Whether a feature is available. -/
def supports (c : Capabilities) (f : Feature) : Bool := c.features.getLsbD f.index

/-- Whether every intrinsic of `wanted` is available. -/
def hasAll (c wanted : Capabilities) : Bool :=
  c.intrinsics &&& wanted.intrinsics == wanted.intrinsics

/-- Whether every feature of `wanted` is available. -/
def supportsAll (c wanted : Capabilities) : Bool :=
  c.features &&& wanted.features == wanted.features

theorem has_all (i : Intrinsic) : all.has i = true := by
  cases i <;> decide

theorem supports_all (f : Feature) : all.supports f = true := by
  cases f <;> decide

end Capabilities

end TypeTraits
