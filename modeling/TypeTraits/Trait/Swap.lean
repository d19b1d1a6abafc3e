import TypeTraits.Trait.Solver
import TypeTraits.Transform

/-!
# Swap traits

Two types are swappable with each other when `using std::swap;` makes both `swap(t, u)` and
`swap(u, t)` well-formed.
-/

namespace TypeTraits.Solver

variable (s : Solver)

/-- The two swaps, checked as one question. -/
def swapBothWays (t u : Ty) : Formed Effects := do
  let a ← Expr.declval t
  let b ← Expr.declval u
  Check.result do
    let forward ← s.program.swap a b
    let backward ← s.program.swap b a
    return forward.and backward

def isSwappableWith (t u : Ty) : Bool := (s.swapBothWays t u).isOk

/-- Without `noexcept` queries only swaps of scalars count. -/
def isNothrowSwappableWith (t u : Ty) : Bool :=
  (s.swapBothWays t u).toOption.any fun effects =>
    if !s.knowsNoexcept then t.removeCvref.isScalar && u.removeCvref.isScalar
    else effects.nothrow

/-- Whether lvalues of a type have a property of pairs. -/
def holdsOfLvalues (property : Ty → Ty → Bool) (t : Ty) : Bool :=
  s.program.isReferenceable t &&
    let reference := s.program.addLvalueReference t
    property reference reference

def isSwappable (t : Ty) : Bool := s.holdsOfLvalues s.isSwappableWith t

def isNothrowSwappable (t : Ty) : Bool := s.holdsOfLvalues s.isNothrowSwappableWith t

end TypeTraits.Solver
