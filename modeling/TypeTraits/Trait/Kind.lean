import TypeTraits.Error

/-!
# Trait kinds

Every trait has a name and takes a fixed or open number of operands after the type it is asked
of. Asking it with the wrong number is an error.
-/

namespace TypeTraits

/-- A type trait. The operands after the first type are the target of `isConvertible`, the
argument pack of `isConstructible`, the arguments of the callable of `isInvocable`, and the
callable with its arguments for `isInvocableR`. -/
inductive TraitKind where
  | isVoid
  | isNullPointer
  | isIntegral
  | isFloatingPoint
  | isArray
  | isPointer
  | isLvalueReference
  | isRvalueReference
  | isMemberObjectPointer
  | isMemberFunctionPointer
  | isEnum
  | isUnion
  | isClass
  | isFunction
  | isArithmetic
  | isFundamental
  | isScalar
  | isObject
  | isCompound
  | isReference
  | isMemberPointer
  | isReferenceable
  | isConst
  | isVolatile
  | isSigned
  | isUnsigned
  | isBoundedArray
  | isUnboundedArray
  | isSame
  | rank
  | extent (dimension : Nat)
  | sizeof
  | alignmentOf
  | addConst
  | addVolatile
  | addCv
  | removeConst
  | removeVolatile
  | removeCv
  | addLvalueReference
  | addRvalueReference
  | removeReference
  | removeCvref
  | addPointer
  | removePointer
  | removeExtent
  | removeAllExtents
  | decay
  | typeIdentity
  | makeSigned
  | makeUnsigned
  | underlyingType
  | commonType
  | isBaseOf
  | isEmpty
  | isPolymorphic
  | isAbstract
  | isFinal
  | hasVirtualDestructor
  | isTrivial
  | isTriviallyCopyable
  | isStandardLayout
  | isPod
  | isLiteralType
  | isAggregate
  | hasUniqueObjectRepresentations
  | isConvertible
  | isNothrowConvertible
  | isConstructible
  | isTriviallyConstructible
  | isNothrowConstructible
  | isDefaultConstructible
  | isTriviallyDefaultConstructible
  | isNothrowDefaultConstructible
  | isCopyConstructible
  | isTriviallyCopyConstructible
  | isNothrowCopyConstructible
  | isMoveConstructible
  | isTriviallyMoveConstructible
  | isNothrowMoveConstructible
  | isAssignable
  | isTriviallyAssignable
  | isNothrowAssignable
  | isCopyAssignable
  | isTriviallyCopyAssignable
  | isNothrowCopyAssignable
  | isMoveAssignable
  | isTriviallyMoveAssignable
  | isNothrowMoveAssignable
  | isDestructible
  | isTriviallyDestructible
  | isNothrowDestructible
  | isSwappableWith
  | isSwappable
  | isNothrowSwappableWith
  | isNothrowSwappable
  | isInvocable
  | isInvocableR
  | isNothrowInvocable
  | isNothrowInvocableR
  | invokeResult
  | resultOf
  deriving DecidableEq, Repr, Inhabited, Hashable

namespace TraitKind

/-- The trait's name. -/
def name : TraitKind → String
  | isVoid => "is_void"
  | isNullPointer => "is_null_pointer"
  | isIntegral => "is_integral"
  | isFloatingPoint => "is_floating_point"
  | isArray => "is_array"
  | isPointer => "is_pointer"
  | isLvalueReference => "is_lvalue_reference"
  | isRvalueReference => "is_rvalue_reference"
  | isMemberObjectPointer => "is_member_object_pointer"
  | isMemberFunctionPointer => "is_member_function_pointer"
  | isEnum => "is_enum"
  | isUnion => "is_union"
  | isClass => "is_class"
  | isFunction => "is_function"
  | isArithmetic => "is_arithmetic"
  | isFundamental => "is_fundamental"
  | isScalar => "is_scalar"
  | isObject => "is_object"
  | isCompound => "is_compound"
  | isReference => "is_reference"
  | isMemberPointer => "is_member_pointer"
  | isReferenceable => "is_referenceable"
  | isConst => "is_const"
  | isVolatile => "is_volatile"
  | isSigned => "is_signed"
  | isUnsigned => "is_unsigned"
  | isBoundedArray => "is_bounded_array"
  | isUnboundedArray => "is_unbounded_array"
  | isSame => "is_same"
  | rank => "rank"
  | extent _ => "extent"
  | sizeof => "sizeof"
  | alignmentOf => "alignment_of"
  | addConst => "add_const"
  | addVolatile => "add_volatile"
  | addCv => "add_cv"
  | removeConst => "remove_const"
  | removeVolatile => "remove_volatile"
  | removeCv => "remove_cv"
  | addLvalueReference => "add_lvalue_reference"
  | addRvalueReference => "add_rvalue_reference"
  | removeReference => "remove_reference"
  | removeCvref => "remove_cvref"
  | addPointer => "add_pointer"
  | removePointer => "remove_pointer"
  | removeExtent => "remove_extent"
  | removeAllExtents => "remove_all_extents"
  | decay => "decay"
  | typeIdentity => "type_identity"
  | makeSigned => "make_signed"
  | makeUnsigned => "make_unsigned"
  | underlyingType => "underlying_type"
  | commonType => "common_type"
  | isBaseOf => "is_base_of"
  | isEmpty => "is_empty"
  | isPolymorphic => "is_polymorphic"
  | isAbstract => "is_abstract"
  | isFinal => "is_final"
  | hasVirtualDestructor => "has_virtual_destructor"
  | isTrivial => "is_trivial"
  | isTriviallyCopyable => "is_trivially_copyable"
  | isStandardLayout => "is_standard_layout"
  | isPod => "is_pod"
  | isLiteralType => "is_literal_type"
  | isAggregate => "is_aggregate"
  | hasUniqueObjectRepresentations => "has_unique_object_representations"
  | isConvertible => "is_convertible"
  | isNothrowConvertible => "is_nothrow_convertible"
  | isConstructible => "is_constructible"
  | isTriviallyConstructible => "is_trivially_constructible"
  | isNothrowConstructible => "is_nothrow_constructible"
  | isDefaultConstructible => "is_default_constructible"
  | isTriviallyDefaultConstructible => "is_trivially_default_constructible"
  | isNothrowDefaultConstructible => "is_nothrow_default_constructible"
  | isCopyConstructible => "is_copy_constructible"
  | isTriviallyCopyConstructible => "is_trivially_copy_constructible"
  | isNothrowCopyConstructible => "is_nothrow_copy_constructible"
  | isMoveConstructible => "is_move_constructible"
  | isTriviallyMoveConstructible => "is_trivially_move_constructible"
  | isNothrowMoveConstructible => "is_nothrow_move_constructible"
  | isAssignable => "is_assignable"
  | isTriviallyAssignable => "is_trivially_assignable"
  | isNothrowAssignable => "is_nothrow_assignable"
  | isCopyAssignable => "is_copy_assignable"
  | isTriviallyCopyAssignable => "is_trivially_copy_assignable"
  | isNothrowCopyAssignable => "is_nothrow_copy_assignable"
  | isMoveAssignable => "is_move_assignable"
  | isTriviallyMoveAssignable => "is_trivially_move_assignable"
  | isNothrowMoveAssignable => "is_nothrow_move_assignable"
  | isDestructible => "is_destructible"
  | isTriviallyDestructible => "is_trivially_destructible"
  | isNothrowDestructible => "is_nothrow_destructible"
  | isSwappableWith => "is_swappable_with"
  | isSwappable => "is_swappable"
  | isNothrowSwappableWith => "is_nothrow_swappable_with"
  | isNothrowSwappable => "is_nothrow_swappable"
  | isInvocable => "is_invocable"
  | isInvocableR => "is_invocable_r"
  | isNothrowInvocable => "is_nothrow_invocable"
  | isNothrowInvocableR => "is_nothrow_invocable_r"
  | invokeResult => "invoke_result"
  | resultOf => "result_of"

/-- Every trait once; `extent` asks about the first dimension. -/
def all : List TraitKind :=
  [isVoid, isNullPointer, isIntegral, isFloatingPoint, isArray, isPointer, isLvalueReference,
    isRvalueReference, isMemberObjectPointer, isMemberFunctionPointer, isEnum, isUnion, isClass,
    isFunction, isArithmetic, isFundamental, isScalar, isObject, isCompound, isReference,
    isMemberPointer, isReferenceable, isConst, isVolatile, isSigned, isUnsigned, isBoundedArray,
    isUnboundedArray, isSame, rank, extent 0, sizeof, alignmentOf, addConst, addVolatile, addCv,
    removeConst, removeVolatile, removeCv, addLvalueReference, addRvalueReference,
    removeReference, removeCvref, addPointer, removePointer, removeExtent, removeAllExtents,
    decay, typeIdentity, makeSigned, makeUnsigned, underlyingType, commonType, isBaseOf, isEmpty,
    isPolymorphic, isAbstract, isFinal, hasVirtualDestructor, isTrivial, isTriviallyCopyable,
    isStandardLayout, isPod, isLiteralType, isAggregate, hasUniqueObjectRepresentations,
    isConvertible, isNothrowConvertible, isConstructible, isTriviallyConstructible,
    isNothrowConstructible, isDefaultConstructible, isTriviallyDefaultConstructible,
    isNothrowDefaultConstructible, isCopyConstructible, isTriviallyCopyConstructible,
    isNothrowCopyConstructible, isMoveConstructible, isTriviallyMoveConstructible,
    isNothrowMoveConstructible, isAssignable, isTriviallyAssignable, isNothrowAssignable,
    isCopyAssignable, isTriviallyCopyAssignable, isNothrowCopyAssignable, isMoveAssignable,
    isTriviallyMoveAssignable, isNothrowMoveAssignable, isDestructible, isTriviallyDestructible,
    isNothrowDestructible, isSwappableWith, isSwappable, isNothrowSwappableWith,
    isNothrowSwappable, isInvocable, isInvocableR, isNothrowInvocable, isNothrowInvocableR,
    invokeResult, resultOf]

/-- The trait asked of one dimension, which matters to `extent` alone. A dimension is a 32-bit
number. -/
def inDimension (dimension : Nat) : TraitKind → TraitKind
  | extent _ => extent (dimension % (1 <<< 32))
  | k => k

/-- The trait with a given name. -/
def ofName? (text : String) (dimension : Nat) : Option TraitKind :=
  (all.find? fun k => k.name == text).map (inDimension dimension)

end TraitKind

/-- How many operands a trait takes after the first. -/
inductive Arity where
  | exactly (count : Nat)
  | atLeast (count : Nat)
  | any
  deriving DecidableEq, Repr

namespace Arity

/-- What a pack of `given` operands should have been, if it is none the trait takes. -/
def complaint? (a : Arity) (given : Nat) : Option String :=
  match a with
  | exactly n => if n = given then none else some (if n = 0 then "exactly 0" else "exactly 1")
  | atLeast n => if given < n then some "at least 1" else none
  | any => none

end Arity

namespace TraitKind

def arity : TraitKind → Arity
  | isSame | isBaseOf | isConvertible | isNothrowConvertible | isAssignable
  | isTriviallyAssignable | isNothrowAssignable | isSwappableWith | isNothrowSwappableWith =>
    .exactly 1
  | isInvocableR | isNothrowInvocableR => .atLeast 1
  | isConstructible | isTriviallyConstructible | isNothrowConstructible | commonType
  | isInvocable | isNothrowInvocable | invokeResult => .any
  | _ => .exactly 0

/-- Rejects a number of operands that the trait does not take. -/
def checkArity (k : TraitKind) (given : Nat) : Except TraitError Unit :=
  if given > Limits.traitArity then .error (.arityExceeded k.name given Limits.traitArity)
  else
    match k.arity.complaint? given with
    | some expected => .error (.arityMismatch k.name expected given)
    | none => .ok ()

/-- The traits that may be asked of a type alone. -/
def unary (dimension : Nat) : List TraitKind :=
  (all.filter fun k => (k.checkArity 0).isOk).map (inDimension dimension)

end TraitKind

end TypeTraits
