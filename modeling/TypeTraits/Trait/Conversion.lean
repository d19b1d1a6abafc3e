import TypeTraits.Trait.Solver
import TypeTraits.Transform

/-!
# Conversion traits

A type converts to another when a function that returns the other may return it. Arrays and
functions are never targets, and `void` converts to `void` alone.
-/

namespace TypeTraits.Solver

variable (s : Solver)

/-- The conversion that the fallback tests. -/
def converts (source target : Ty) : Bool :=
  if source.isVoid || target.isVoid then source.isVoid && target.isVoid
  else if target.isArray || target.isFunction then false
  else
    match Expr.declval source with
    | .error _ => false
    | .ok e => (s.program.copyInit target e).result.isOk

def isConvertible (source target : Ty) : Bool :=
  (s.intrinsic .isConvertibleTo
    (s.ask .isConvertible source [target]
      (Introspection.isConvertible s.program source target))).getD
    (s.converts source target)

/-- Without `noexcept` queries only conversions between scalars count. -/
def isNothrowConvertible (source target : Ty) : Bool :=
  source.isVoid && target.isVoid ||
    s.isConvertible source target &&
      if !s.knowsNoexcept then source.removeCvref.isScalar && target.removeCvref.isScalar
      else
        match Expr.declval source with
        | .error _ => false
        | .ok e => (s.program.copyInit target e).result.toOption.any (·.nothrow)

end TypeTraits.Solver
