import TypeTraits.Trait.Solver
import TypeTraits.Transform

/-!
# Construction traits

An object type is constructible from arguments when the expression that initializes it from
them is well-formed and the object can be destroyed. A reference is constructible when it can
be copy-initialized, or cast to without a downcast and without binding an rvalue reference to
an lvalue of its own or a derived type.
-/

namespace TypeTraits.Solver

variable (s : Solver)

/-- The expression that the fallback tests for an object type. -/
def constructObject (t : Ty) (args : List Ty) : Formed Effects := do
  if t.isVoid || t.isFunction then throw .notAnObject
  let exprs ← (Expr.declvals args).mapError fun _ => .incompleteType
  let effects ←
    match exprs with
    | [] => (s.program.valueInit t).result
    | [_] => (s.program.newExpression t exprs).result
    | _ => (s.program.functionalCast t exprs).result
  let destruction ← s.program.destroy t
  return effects.and destruction

/-- Whether a cast to the reference `target` that is well-formed is no construction. -/
def isCastOnly (target : Ty) (toRvalue : Bool) (source : Ty) : Bool :=
  let t := target.removeCvref
  let u := source.removeCvref
  let downcast := u != t && s.program.isBaseOf u t && !(s.constructObject t [source]).isOk
  let fromLvalue :=
    match source with
    | .lvalueRef _ => true
    | _ => false
  downcast ||
    toRvalue && fromLvalue && !t.isFunction && (u == t || s.program.isBaseOf t u)

/-- The expression that the fallback tests for a reference. The copy-initialization and the
cast are one question to the checker. -/
def constructReference (target : Ty) (toRvalue : Bool) (source : Ty) : Formed Effects := do
  let e ← Expr.declval source
  let (copied, effects) ← Check.result do
    if let some effects ← Check.attempt (s.program.copyInit target e) then
      return (true, effects)
    return (false, ← s.program.staticCastReference target e)
  if !copied && s.isCastOnly target toRvalue source then throw .invalidReceiver
  return effects

/-- The construction that the fallback tests; arrays are constructed from no arguments, as
their elements are. -/
def construct : Ty → List Ty → Formed Effects
  | .array t (some _), args => if args.isEmpty then construct t [] else .error .wrongArity
  | .array _ none, _ => .error .notAnObject
  | t, args =>
    match t.referent?, args with
    | some (_, isRvalue), [source] => s.constructReference t isRvalue source
    | some _, _ => .error .wrongArity
    | none, args => s.constructObject t args

def isConstructible (t : Ty) (args : List Ty) : Bool :=
  (s.intrinsic .isConstructible
    (s.ask .isConstructible t args (Introspection.isConstructible s.program t args))).getD
    (s.construct t args).isOk

/-- Trivial construction without an intrinsic for it: types with a trivial default constructor
from nothing, and scalars from nothing or from their own type. -/
def triviallyConstructs (t : Ty) (args : List Ty) : Bool :=
  match args with
  | [] =>
    (s.intrinsic .hasTrivialConstructor
      (s.ask .hasTrivialConstructor t.element []
        (Introspection.hasTrivialConstructor s.program t.element))).getD t.element.isScalar
  | [arg] => !t.isReference && arg.removeCvref == t.removeCv && t.isScalar
  | _ => false

def isTriviallyConstructible (t : Ty) (args : List Ty) : Bool :=
  (s.intrinsic .isTriviallyConstructible
    (s.ask .isTriviallyConstructible t args
      (Introspection.isTriviallyConstructible s.program t args))).getD
    (s.isConstructible t args && s.triviallyConstructs t args)

/-- Whether the initialization itself cannot throw; the destructor does not count. -/
def constructsNothrow (t : Ty) (args : List Ty) : Bool :=
  match Expr.declvals args with
  | .error _ => false
  | .ok exprs =>
    let effects : Formed Effects :=
      if t.isReference then
        match exprs with
        | [e] => Check.result do
          if let some effects ← Check.attempt (s.program.copyInit t e) then return effects
          s.program.staticCastReference t e
        | _ => .error .wrongArity
      else if exprs.isEmpty then (s.program.valueInit t).result
      else (s.program.directInit t exprs).result
    effects.toOption.any (·.nothrow)

/-- Without `noexcept` queries only trivial constructions count. -/
def isNothrowConstructible (t : Ty) (args : List Ty) : Bool :=
  s.isConstructible t args &&
    (s.intrinsic .isNothrowConstructible
      (s.ask .isNothrowConstructible t args
        (Introspection.isNothrowConstructible s.program t args))).getD
      (if !s.knowsNoexcept then s.isTriviallyConstructible t args
        else s.constructsNothrow t args)

/-- The argument of a copy: `const T&`, where that can be formed. -/
def copySource (t : Ty) : Ty := s.program.addLvalueReference (t.qualify .const)

/-- The argument of a move: `T&&`, where that can be formed. -/
def moveSource (t : Ty) : Ty := s.program.addRvalueReference t

end TypeTraits.Solver
