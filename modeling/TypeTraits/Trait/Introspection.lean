import TypeTraits.Expr.Operators
import TypeTraits.Layout.Object

/-!
# Introspection

The answers a compiler gives about a type without going through an expression of the language,
read off the declarations and the expression checker. A provider answers some of the questions
this way and leaves the others open.
-/

namespace TypeTraits

/-- A question a provider may answer. -/
inductive Question where
  | isAbstract
  | isFinal
  | hasVirtualDestructor
  | isPolymorphic
  | isEmpty
  | isStandardLayout
  | isTriviallyCopyable
  | isTrivial
  | isAggregate
  | isLiteralType
  | hasUniqueObjectRepresentations
  | underlyingType
  | isConstructible
  | isTriviallyConstructible
  | isNothrowConstructible
  | isAssignable
  | isTriviallyAssignable
  | isNothrowAssignable
  | isDestructible
  | isTriviallyDestructible
  | isNothrowDestructible
  | isConvertible
  | hasTrivialConstructor
  | hasTrivialDestructor
  deriving DecidableEq, Repr

namespace Question

def all : List Question :=
  [isAbstract, isFinal, hasVirtualDestructor, isPolymorphic, isEmpty, isStandardLayout,
    isTriviallyCopyable, isTrivial, isAggregate, isLiteralType, hasUniqueObjectRepresentations,
    underlyingType, isConstructible, isTriviallyConstructible, isNothrowConstructible,
    isAssignable, isTriviallyAssignable, isNothrowAssignable, isDestructible,
    isTriviallyDestructible, isNothrowDestructible, isConvertible, hasTrivialConstructor,
    hasTrivialDestructor]

def name : Question → String
  | isAbstract => "is_abstract"
  | isFinal => "is_final"
  | hasVirtualDestructor => "has_virtual_destructor"
  | isPolymorphic => "is_polymorphic"
  | isEmpty => "is_empty"
  | isStandardLayout => "is_standard_layout"
  | isTriviallyCopyable => "is_trivially_copyable"
  | isTrivial => "is_trivial"
  | isAggregate => "is_aggregate"
  | isLiteralType => "is_literal_type"
  | hasUniqueObjectRepresentations => "has_unique_object_representations"
  | underlyingType => "underlying_type"
  | isConstructible => "is_constructible"
  | isTriviallyConstructible => "is_trivially_constructible"
  | isNothrowConstructible => "is_nothrow_constructible"
  | isAssignable => "is_assignable"
  | isTriviallyAssignable => "is_trivially_assignable"
  | isNothrowAssignable => "is_nothrow_assignable"
  | isDestructible => "is_destructible"
  | isTriviallyDestructible => "is_trivially_destructible"
  | isNothrowDestructible => "is_nothrow_destructible"
  | isConvertible => "is_convertible"
  | hasTrivialConstructor => "has_trivial_constructor"
  | hasTrivialDestructor => "has_trivial_destructor"

/-- The question with a given name. -/
def ofName? (text : String) : Option Question := all.find? fun q => q.name == text

end Question

/-- The questions a provider answers, and about which type and further types. -/
structure Provider where
  answers : Question → Ty → List Ty → Bool

namespace Provider

/-- The provider that answers every question. -/
def declarations : Provider := ⟨fun _ _ _ => true⟩

/-- The provider that answers no question. -/
def silent : Provider := ⟨fun _ _ _ => false⟩

/-- The provider that answers the listed questions. -/
def only (questions : List Question) : Provider := ⟨fun q _ _ => questions.contains q⟩

end Provider

/-- The expressions `std::declval` gives for a list of types. -/
def Expr.declvals (types : List Ty) : Formed (List Expr) := types.mapM Expr.declval

namespace Introspection

variable (p : Program)

/-- A fact about a class: other types do not have it, and nothing is known of an incomplete
class. -/
def classFact (t : Ty) (fact : Record → Bool) : Option Bool :=
  match p.recordOf? t with
  | none => some false
  | some r => if r.complete then some (fact r) else none

/-- A fact that scalars have, arrays share with their element, and complete records decide. -/
def objectFact (t : Ty) (fact : Record → Bool) : Option Bool :=
  some (t.element.isScalar || (p.completeRecord? t.element).any fact)

def isAbstract (t : Ty) : Option Bool := classFact p t (·.facts.abstract)

def isFinal (t : Ty) : Option Bool := classFact p t (·.isFinal)

def hasVirtualDestructor (t : Ty) : Option Bool := classFact p t (·.facts.virtualDestructor)

def isPolymorphic (t : Ty) : Option Bool :=
  classFact p t fun r => !r.isUnion && r.facts.polymorphic

def isEmpty (t : Ty) : Option Bool := classFact p t fun r => !r.isUnion && r.facts.empty

def isStandardLayout (t : Ty) : Option Bool := objectFact p t (·.facts.standardLayout)

def isTriviallyCopyable (t : Ty) : Option Bool := objectFact p t (·.facts.triviallyCopyable)

def isTrivial (t : Ty) : Option Bool := objectFact p t (·.facts.trivial)

def isAggregate (t : Ty) : Option Bool :=
  some (t.isArray || (p.class? t).any (·.facts.aggregate))

def isLiteralType (t : Ty) : Option Bool :=
  if t.isReference || t.isVoid then some true else objectFact p t (·.facts.literal)

def hasUniqueObjectRepresentations (t : Ty) : Option Bool := some (p.hasUniqueRepresentation t)

def underlyingType (t : Ty) : Option Ty := (p.enumOf? t).map (·.underlying p.target)

/-- Effects of constructing an object from arguments of the given types; an object that cannot
be destroyed is not constructed. -/
def construction (t : Ty) (args : List Ty) : Option Effects := do
  let args ← (Expr.declvals args).toOption
  let effects ← (p.directInit t args).result.toOption
  if !t.isReference && !(p.destroy t).isOk then none
  return effects

/-- Effects of assigning one declared value to another. -/
def assignment (target source : Ty) : Option Effects := do
  let a ← (Expr.declval target).toOption
  let b ← (Expr.declval source).toOption
  (p.assign a b).result.toOption

/-- Effects of a destruction. -/
def destruction (t : Ty) : Option Effects := (p.destroy t).toOption

def isConstructible (t : Ty) (args : List Ty) : Option Bool := some (construction p t args).isSome

def isTriviallyConstructible (t : Ty) (args : List Ty) : Option Bool :=
  some ((construction p t args).any (·.trivial))

def isNothrowConstructible (t : Ty) (args : List Ty) : Option Bool :=
  some ((construction p t args).any (·.nothrow))

def isAssignable (target source : Ty) : Option Bool := some (assignment p target source).isSome

def isTriviallyAssignable (target source : Ty) : Option Bool :=
  some ((assignment p target source).any (·.trivial))

def isNothrowAssignable (target source : Ty) : Option Bool :=
  some ((assignment p target source).any (·.nothrow))

def isDestructible (t : Ty) : Option Bool := some (destruction p t).isSome

def isTriviallyDestructible (t : Ty) : Option Bool := some ((destruction p t).any (·.trivial))

def isNothrowDestructible (t : Ty) : Option Bool := some ((destruction p t).any (·.nothrow))

/-- Whether a function that returns the target type may return the source. -/
def isConvertible (source target : Ty) : Option Bool :=
  if source.isVoid || target.isVoid then some (source.isVoid && target.isVoid)
  else if target.isArray || target.isFunction then some false
  else
    match Expr.declval source with
    | .error _ => some false
    | .ok e => some (p.copyInit target e).result.isOk

def hasTrivialConstructor (t : Ty) : Option Bool :=
  objectFact p t (·.facts.trivialDefaultConstructor)

def hasTrivialDestructor (t : Ty) : Option Bool :=
  if t.isReference then some true
  else objectFact p t fun r => r.destructor.any fun d => d.trivial && !d.deleted

/-- The answer to a yes-or-no question about a type. The questions about construction take an
argument pack, and those about assignment and conversion the first type of it. -/
def decide (q : Question) (t : Ty) (args : List Ty) : Option Bool :=
  let first := args.headD .void
  match q with
  | .isAbstract => isAbstract p t
  | .isFinal => isFinal p t
  | .hasVirtualDestructor => hasVirtualDestructor p t
  | .isPolymorphic => isPolymorphic p t
  | .isEmpty => isEmpty p t
  | .isStandardLayout => isStandardLayout p t
  | .isTriviallyCopyable => isTriviallyCopyable p t
  | .isTrivial => isTrivial p t
  | .isAggregate => isAggregate p t
  | .isLiteralType => isLiteralType p t
  | .hasUniqueObjectRepresentations => hasUniqueObjectRepresentations p t
  | .underlyingType => none
  | .isConstructible => isConstructible p t args
  | .isTriviallyConstructible => isTriviallyConstructible p t args
  | .isNothrowConstructible => isNothrowConstructible p t args
  | .isAssignable => isAssignable p t first
  | .isTriviallyAssignable => isTriviallyAssignable p t first
  | .isNothrowAssignable => isNothrowAssignable p t first
  | .isDestructible => isDestructible p t
  | .isTriviallyDestructible => isTriviallyDestructible p t
  | .isNothrowDestructible => isNothrowDestructible p t
  | .isConvertible => isConvertible p t first
  | .hasTrivialConstructor => hasTrivialConstructor p t
  | .hasTrivialDestructor => hasTrivialDestructor p t

end Introspection

end TypeTraits
