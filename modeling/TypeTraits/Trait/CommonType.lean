import TypeTraits.Expr.Conditional
import TypeTraits.Transform

/-!
# Common types

Two types meet where the conditional operator puts values of their decayed types, or else
`const` lvalues of them. A longer list is folded from the left.
-/

namespace TypeTraits.Program

variable (p : Program)

/-- Where the conditional operator puts values of two types. -/
def conditionalOfValues (a b : Ty) : Check (Option Ty) :=
  match Expr.declval a, Expr.declval b with
  | .ok x, .ok y => do
    let result ← Check.attempt (p.conditional x y)
    return result.map fun e => p.decay e.type
  | _, _ => return none

/-- Where the conditional operator puts `const` lvalues of two types. -/
def conditionalOfLvalues (a b : Ty) : Check Ty := do
  let result ← p.conditional (.lvalue (a.qualify .const)) (.lvalue (b.qualify .const))
  return result.type.removeCvref

/-- The common type of two types. Both tries are one question to the checker. -/
def commonPair (a b : Ty) : Option Ty :=
  let a := p.settle a
  let b := p.settle b
  Except.toOption <| Check.result do
    match ← p.conditionalOfValues a b with
    | some t => return t
    | none =>
      if a.isVoid || b.isVoid then throw .voidExpression
      p.conditionalOfLvalues a b

/-- The common type of a list of types; the empty list has none. -/
def commonType : List Ty → Option Ty
  | [] => none
  | [t] => p.commonPair t t
  | t :: rest => rest.foldlM p.commonPair t

end TypeTraits.Program
