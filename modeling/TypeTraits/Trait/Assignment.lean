import TypeTraits.Trait.Solver
import TypeTraits.Transform

/-!
# Assignment traits

A type is assignable from another when `declval<To>() = declval<From>()` is well-formed. Copy
and move assignment are assignments to an lvalue of the type.
-/

namespace TypeTraits.Solver

variable (s : Solver)

/-- The assignment that the fallback tests. -/
def assignment (target source : Ty) : Formed Effects := do
  if target.isVoid || source.isVoid then throw .voidExpression
  let a ← Expr.declval target
  let b ← Expr.declval source
  (s.program.assign a b).result

def isAssignable (target source : Ty) : Bool :=
  (s.intrinsic .isAssignable
    (s.ask .isAssignable target [source] (Introspection.isAssignable s.program target source))).getD
    (s.assignment target source).isOk

/-- Trivial assignment without an intrinsic for it: a scalar lvalue that is not `const`, from
its own type. -/
def assignsScalar (target source : Ty) : Bool :=
  match target with
  | .lvalueRef t =>
    let (unqualified, cv) := t.splitCv
    !cv.isConst && source.removeCvref == unqualified && unqualified.isScalar
  | _ => false

def isTriviallyAssignable (target source : Ty) : Bool :=
  (s.intrinsic .isTriviallyAssignable
    (s.ask .isTriviallyAssignable target [source]
      (Introspection.isTriviallyAssignable s.program target source))).getD
    (s.isAssignable target source && assignsScalar target source)

/-- Without `noexcept` queries only trivial assignments count. -/
def isNothrowAssignable (target source : Ty) : Bool :=
  s.isAssignable target source &&
    (s.intrinsic .isNothrowAssignable
      (s.ask .isNothrowAssignable target [source]
        (Introspection.isNothrowAssignable s.program target source))).getD
      (if !s.knowsNoexcept then s.isTriviallyAssignable target source
        else (s.assignment target source).toOption.any (·.nothrow))

/-- The target of a copy or move assignment: `T&`, where that can be formed. -/
def assignmentTarget (t : Ty) : Ty := s.program.addLvalueReference t

end TypeTraits.Solver
