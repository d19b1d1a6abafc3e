import TypeTraits.Ty.Basic

/-!
# Forming types in normal form

Each operation forms the type a declaration would: qualifiers of an array go to its innermost
element, those of references and functions are dropped and nested ones merge, references
collapse, and function parameters lose what a parameter cannot have.
-/

namespace TypeTraits.Ty

/-- Adds a set of qualifiers that is known not to be empty. -/
def withCv (cv : Cv) : Ty → Ty
  | qualified t have_ => .qualified t (have_ ∪ cv)
  | lvalueRef t => lvalueRef t
  | rvalueRef t => rvalueRef t
  | function r ps q => function r ps q
  | functionNamed n => functionNamed n
  | array t b => array (t.withCv cv) b
  | t => .qualified t cv

/-- The type with `cv` added to its top-level qualification. -/
def qualify (t : Ty) (cv : Cv) : Ty :=
  if cv.isEmpty then t else t.withCv cv

/-- `T&`, where `&` absorbs a reference. -/
def lvalueRefTo : Ty → Ty
  | lvalueRef t => lvalueRef t
  | rvalueRef t => lvalueRef t
  | t => lvalueRef t

/-- `T&&`, where an existing reference stays. -/
def rvalueRefTo : Ty → Ty
  | lvalueRef t => lvalueRef t
  | rvalueRef t => rvalueRef t
  | t => rvalueRef t

/-- The type a parameter declared with this type has: without top-level qualifiers, and a
pointer in place of an array or a function. -/
def asParameter : Ty → Ty
  | qualified t _ => t
  | array t _ => pointer t
  | function r ps q => pointer (function r ps q)
  | functionNamed n => pointer (functionNamed n)
  | t => t

/-- The function type that a declarator with these parameters declares. -/
def functionOf (s : Signature) : Ty :=
  .function s.result (s.params.map asParameter) s.quals

@[simp] theorem qualify_empty (t : Ty) : t.qualify ∅ = t := by
  simp [qualify, Cv.isEmpty]

theorem qualify_of_not_isEmpty {t : Ty} {cv : Cv} (h : cv.isEmpty = false) :
    t.qualify cv = t.withCv cv := by
  simp [qualify, h]

end TypeTraits.Ty
