import TypeTraits.Ty.Basic

/-!
# Function types named before they are known

A function type can be named by the number of its signature while nothing describes that
signature yet. Resolving puts the function types that have become known in the place of their
numbers, everywhere in a type, and changes nothing else.
-/

namespace TypeTraits.Ty

mutual

/-- The type with `function n` in the place of each function type named by a number `n`. -/
def resolve (function : Nat → Ty) : Ty → Ty
  | .void => .void
  | .nullptr => .nullptr
  | .builtin k => .builtin k
  | .qualified t cv => .qualified (resolve function t) cv
  | .pointer t => .pointer (resolve function t)
  | .lvalueRef t => .lvalueRef (resolve function t)
  | .rvalueRef t => .rvalueRef (resolve function t)
  | .array t b => .array (resolve function t) b
  | .function r ps q => .function (resolve function r) (resolveAll function ps) q
  | .memberPointer c t => .memberPointer (resolve function c) (resolve function t)
  | .record id => .record id
  | .enum id => .enum id
  | .functionNamed n => function n
  | .unknown n => .unknown n

/-- Resolves each type of a list. -/
def resolveAll (function : Nat → Ty) : List Ty → List Ty
  | [] => []
  | t :: ts => resolve function t :: resolveAll function ts

end

theorem resolveAll_eq_map (function : Nat → Ty) (ts : List Ty) :
    resolveAll function ts = ts.map (resolve function) := by
  induction ts with
  | nil => rfl
  | cons t ts ih => simp [resolveAll, ih]

/-- While no signature is known, resolving changes nothing. -/
theorem resolve_functionNamed (t : Ty) : t.resolve .functionNamed = t := by
  induction t using Ty.inductionOn with
  | function r ps q ihr ihp =>
    have h : ps.map (resolve .functionNamed) = ps.map id := List.map_congr_left ihp
    simp [resolve, resolveAll_eq_map, ihr, h]
  | _ => simp_all [resolve]

end TypeTraits.Ty
