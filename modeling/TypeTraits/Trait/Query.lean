import TypeTraits.Trait.CommonType
import TypeTraits.Trait.Invocation
import TypeTraits.Trait.Kind
import TypeTraits.Trait.Property
import TypeTraits.Trait.Swap
import Std.Data.HashMap

/-!
# Queries

A query asks a solver for one trait of one type. Its answer depends on the solver and the
question alone, so answers are remembered; what was rejected is asked anew each time. A traced
query reports when it starts and how it ends.
-/

namespace TypeTraits

/-- The answer to a query. -/
inductive Answer where
  | bool (value : Bool)
  | type (type : Ty)
  /-- A number, and the type that it is a value of. -/
  | value (value : Nat) (type : Ty)
  /-- The trait has no result for its operands. -/
  | inapplicable
  deriving DecidableEq, Repr, Inhabited

namespace Answer

/-- A type, where there is one. -/
def ofType? : Option Ty → Answer
  | some t => type t
  | none => inapplicable

/-- The answer with `g` applied to its type. -/
def mapTypes (g : Ty → Ty) : Answer → Answer
  | bool b => bool b
  | type t => type (g t)
  | value n t => value n (g t)
  | inapplicable => inapplicable

/-- The answer in words; a type is not spelled out. -/
def summary : Answer → String
  | bool b => if b then "true" else "false"
  | type _ => "type"
  | value n _ => toString n
  | inapplicable => "inapplicable"

end Answer

namespace Solver

variable (s : Solver)

/-- A number of type `std::size_t`. -/
def sizeAnswer (n : Nat) : Answer := .value n s.sizeType

/-- The answer to a query whose operands have been counted. -/
def evaluate (kind : TraitKind) (t : Ty) (args : List Ty) : Except TraitError Answer :=
  let p := s.program
  let category := p.category t
  let first := args.headD .void
  match kind with
  | .isVoid => .ok (.bool (category == .void))
  | .isNullPointer => .ok (.bool (category == .nullPointer))
  | .isIntegral => .ok (.bool (category == .integral))
  | .isFloatingPoint => .ok (.bool (category == .floatingPoint))
  | .isArray => .ok (.bool (category == .array))
  | .isPointer => .ok (.bool (category == .pointer))
  | .isLvalueReference => .ok (.bool (category == .lvalueRef))
  | .isRvalueReference => .ok (.bool (category == .rvalueRef))
  | .isMemberObjectPointer => .ok (.bool (category == .memberObjectPointer))
  | .isMemberFunctionPointer => .ok (.bool (category == .memberFunctionPointer))
  | .isEnum => .ok (.bool (category == .enum))
  | .isUnion => .ok (.bool (category == .union))
  | .isClass => .ok (.bool (category == .cls))
  | .isFunction => .ok (.bool (category == .function))
  | .isArithmetic => .ok (.bool category.isArithmetic)
  | .isFundamental => .ok (.bool category.isFundamental)
  | .isScalar => .ok (.bool category.isScalar)
  | .isObject => .ok (.bool category.isObject)
  | .isCompound => .ok (.bool category.isCompound)
  | .isReference => .ok (.bool category.isReference)
  | .isMemberPointer => .ok (.bool category.isMemberPointer)
  | .isReferenceable => .ok (.bool (p.isReferenceable t))
  | .isConst => .ok (.bool t.cv.isConst)
  | .isVolatile => .ok (.bool t.cv.isVolatile)
  | .isSigned => .ok (.bool (p.isSigned t))
  | .isUnsigned => .ok (.bool (p.isUnsigned t))
  | .isBoundedArray => .ok (.bool t.isBoundedArray)
  | .isUnboundedArray => .ok (.bool t.isUnboundedArray)
  | .isSame => .ok (.bool (t == first))
  | .rank => .ok (s.sizeAnswer t.rank)
  | .extent dimension => .ok (s.sizeAnswer (t.extent dimension))
  | .sizeof => .ok ((p.sizeOf t).elim .inapplicable s.sizeAnswer)
  | .alignmentOf => .ok ((p.alignOf t).elim .inapplicable s.sizeAnswer)
  | .addConst => .ok (.type (t.qualify .const))
  | .addVolatile => .ok (.type (t.qualify .volatile))
  | .addCv => .ok (.type (t.qualify .constVolatile))
  | .removeConst => .ok (.type t.removeConst)
  | .removeVolatile => .ok (.type t.removeVolatile)
  | .removeCv => .ok (.type t.removeCv)
  | .addLvalueReference => .ok (.type (p.addLvalueReference t))
  | .addRvalueReference => .ok (.type (p.addRvalueReference t))
  | .removeReference => .ok (.type t.withoutReference)
  | .removeCvref => .ok (.type t.removeCvref)
  | .addPointer => .ok (.type (p.addPointer t))
  | .removePointer => .ok (.type t.removePointer)
  | .removeExtent => .ok (.type t.removeExtent)
  | .removeAllExtents => .ok (.type t.element)
  | .decay => .ok (.type (p.decay t))
  | .typeIdentity => .ok (.type t)
  | .makeSigned => (p.makeSigned s.knowsInt128 t).map .type
  | .makeUnsigned => (p.makeUnsigned s.knowsInt128 t).map .type
  | .underlyingType => (s.underlyingType t).map .ofType?
  | .commonType => .ok (.ofType? (p.commonType (t :: args)))
  | .isBaseOf => .ok (.bool (p.isBaseOf t first))
  | .isEmpty => .ok (.bool (s.isEmpty t))
  | .isPolymorphic => .ok (.bool (s.isPolymorphic t))
  | .isAbstract => .ok (.bool (s.isAbstract t))
  | .isFinal => .ok (.bool (s.isFinal t))
  | .hasVirtualDestructor => .ok (.bool (s.hasVirtualDestructor t))
  | .isTrivial => .ok (.bool (s.isTrivial t))
  | .isTriviallyCopyable => .ok (.bool (s.isTriviallyCopyable t))
  | .isStandardLayout => .ok (.bool (s.isStandardLayout t))
  | .isPod => .ok (.bool (s.isPod t))
  | .isLiteralType => .ok (.bool (s.isLiteralType t))
  | .isAggregate => .ok (.bool (s.isAggregate t))
  | .hasUniqueObjectRepresentations => .ok (.bool (s.hasUniqueObjectRepresentations t))
  | .isConvertible => .ok (.bool (s.isConvertible t first))
  | .isNothrowConvertible => .ok (.bool (s.isNothrowConvertible t first))
  | .isConstructible => .ok (.bool (s.isConstructible t args))
  | .isTriviallyConstructible => .ok (.bool (s.isTriviallyConstructible t args))
  | .isNothrowConstructible => .ok (.bool (s.isNothrowConstructible t args))
  | .isDefaultConstructible => .ok (.bool (s.isConstructible t []))
  | .isTriviallyDefaultConstructible => .ok (.bool (s.isTriviallyConstructible t []))
  | .isNothrowDefaultConstructible => .ok (.bool (s.isNothrowConstructible t []))
  | .isCopyConstructible => .ok (.bool (s.isConstructible t [s.copySource t]))
  | .isTriviallyCopyConstructible => .ok (.bool (s.isTriviallyConstructible t [s.copySource t]))
  | .isNothrowCopyConstructible => .ok (.bool (s.isNothrowConstructible t [s.copySource t]))
  | .isMoveConstructible => .ok (.bool (s.isConstructible t [s.moveSource t]))
  | .isTriviallyMoveConstructible => .ok (.bool (s.isTriviallyConstructible t [s.moveSource t]))
  | .isNothrowMoveConstructible => .ok (.bool (s.isNothrowConstructible t [s.moveSource t]))
  | .isAssignable => .ok (.bool (s.isAssignable t first))
  | .isTriviallyAssignable => .ok (.bool (s.isTriviallyAssignable t first))
  | .isNothrowAssignable => .ok (.bool (s.isNothrowAssignable t first))
  | .isCopyAssignable => .ok (.bool (s.isAssignable (s.assignmentTarget t) (s.copySource t)))
  | .isTriviallyCopyAssignable =>
    .ok (.bool (s.isTriviallyAssignable (s.assignmentTarget t) (s.copySource t)))
  | .isNothrowCopyAssignable =>
    .ok (.bool (s.isNothrowAssignable (s.assignmentTarget t) (s.copySource t)))
  | .isMoveAssignable => .ok (.bool (s.isAssignable (s.assignmentTarget t) (s.moveSource t)))
  | .isTriviallyMoveAssignable =>
    .ok (.bool (s.isTriviallyAssignable (s.assignmentTarget t) (s.moveSource t)))
  | .isNothrowMoveAssignable =>
    .ok (.bool (s.isNothrowAssignable (s.assignmentTarget t) (s.moveSource t)))
  | .isDestructible => .ok (.bool (s.isDestructible t))
  | .isTriviallyDestructible => .ok (.bool (s.isTriviallyDestructible t))
  | .isNothrowDestructible => .ok (.bool (s.isNothrowDestructible t))
  | .isSwappableWith => .ok (.bool (s.isSwappableWith t first))
  | .isSwappable => .ok (.bool (s.isSwappable t))
  | .isNothrowSwappableWith => .ok (.bool (s.isNothrowSwappableWith t first))
  | .isNothrowSwappable => .ok (.bool (s.isNothrowSwappable t))
  | .isInvocable => .ok (.bool (s.isInvocable t args))
  | .isInvocableR => .ok (.bool (s.isInvocableR t first args.tail))
  | .isNothrowInvocable => .ok (.bool (s.isNothrowInvocable t args))
  | .isNothrowInvocableR => .ok (.bool (s.isNothrowInvocableR t first args.tail))
  | .invokeResult => .ok (.ofType? (s.invokeResult t args))
  | .resultOf => .ok (.ofType? (s.resultOf t))

/-- The answer to a query. -/
def query (kind : TraitKind) (t : Ty) (args : List Ty) : Except TraitError Answer := do
  kind.checkArity args.length
  s.evaluate kind t args

end Solver

/-- What a query asks. -/
structure Query where
  kind : TraitKind
  type : Ty
  args : List Ty := []
  deriving DecidableEq, Repr, Inhabited, Hashable

/-- The question with `g` applied to its types. -/
def Query.mapTypes (g : Ty → Ty) (q : Query) : Query :=
  { q with type := g q.type, args := q.args.map g }

/-- The answers a solver remembers. -/
abbrev Memo := Std.HashMap Query Answer

namespace Memo

/-- The remembered answer to a query, or the solver's, which is then remembered. -/
def ask (memo : Memo) (s : Solver) (q : Query) : Except TraitError Answer × Memo :=
  match memo[q]? with
  | some answer => (.ok answer, memo)
  | none =>
    match s.query q.kind q.type q.args with
    | .ok answer => (.ok answer, memo.insert q answer)
    | .error e => (.error e, memo)

/-- The same answers to the same questions, with `g` applied to the types of both. What was
answered stays so, whatever the types it was answered for have become. -/
def mapTypes (g : Ty → Ty) (memo : Memo) : Memo :=
  memo.fold (fun renamed q answer => renamed.insert (q.mapTypes g) (answer.mapTypes g)) ∅

end Memo

/-- What a traced query reports. -/
inductive QueryEvent where
  | start (kind : TraitKind)
  /-- The query was answered, perhaps from memory. -/
  | finished (kind : TraitKind) (answer : Answer) (remembered : Bool)
  | rejected (kind : TraitKind) (reason : TraitError)
  deriving Repr

namespace Memo

/-- Asks as `ask` does, and reports the events. -/
def askTraced (memo : Memo) (s : Solver) (q : Query) :
    (Except TraitError Answer × List QueryEvent) × Memo :=
  let remembered := memo.contains q
  let (result, memo) := memo.ask s q
  let last :=
    match result with
    | .ok answer => QueryEvent.finished q.kind answer remembered
    | .error e => .rejected q.kind e
  ((result, [.start q.kind, last]), memo)

end Memo

end TypeTraits
