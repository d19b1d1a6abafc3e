import TypeTraits.Program

/-!
# Spelling of types

A type is spelled as a declaration of it would be, with the declared name left out:
`const int*`, `int* const`, `int (*)[3]`, `void (*)(int)`, `int Widget::*`. The declarator
grows outwards from the place of the name while the walk goes inwards to the leaf type, so a
pointer or reference to an array or function puts its part in parentheses.
-/

namespace TypeTraits

namespace Spelling

/-- Longest chain of declarators that is spelled out. -/
def maxDepth : Nat := 64

/-- The leaf type before its declarator; a name and a word need a blank between them. -/
def join (base inner : String) : String :=
  match inner.toList with
  | [] => base
  | c :: _ => if c ∈ ['*', '&', '[', '(', ' '] then base ++ inner else base ++ " " ++ inner

/-- The declarator of a pointer or reference to `target`. -/
def wrap (target : Ty) (inner : String) : String :=
  match target with
  | .array .. | .function .. | .functionNamed _ => " (" ++ inner ++ ")"
  | _ => inner

/-- What follows the parameter list of a function. -/
def suffix (q : FunctionQualifiers) : String :=
  (if q.cv.isEmpty then "" else " " ++ q.cv.spelling) ++
    (match q.ref with
      | .none => ""
      | .lvalue => " &"
      | .rvalue => " &&") ++
    (if q.noexcept then " noexcept" else "")

end Spelling

namespace Program

open Spelling

/-- The name of a record as declared, or its number when nothing declares it. -/
def recordName (p : Program) (id : RecordId) : String :=
  match p.record? id with
  | some r => r.name
  | none => s!"<record#{id.index}>"

/-- The name of an enumeration as declared, or its number when nothing declares it. -/
def enumName (p : Program) (id : EnumId) : String :=
  match p.enum? id with
  | some e => e.name
  | none => s!"<enum#{id.index}>"

mutual

/-- Spells a type around the declarator `inner`, which `depth` outer types have formed. -/
def declarator (p : Program) (inner : String) (depth : Nat) (t : Ty) : String :=
  if depth > maxDepth then join "..." inner
  else
    match t with
    | .qualified (.pointer u) cv =>
      p.declarator (wrap u ("* " ++ cv.spelling ++ inner)) (depth + 1) u
    | .qualified (.memberPointer c u) cv =>
      p.declarator (wrap u (p.declarator "" 0 c ++ "::* " ++ cv.spelling ++ inner)) (depth + 1) u
    | .qualified u cv => join (cv.spelling ++ " " ++ p.declarator "" 0 u) inner
    | .pointer u => p.declarator (wrap u ("*" ++ inner)) (depth + 1) u
    | .lvalueRef u => p.declarator (wrap u ("&" ++ inner)) (depth + 1) u
    | .rvalueRef u => p.declarator (wrap u ("&&" ++ inner)) (depth + 1) u
    | .memberPointer c u =>
      p.declarator (wrap u (p.declarator "" 0 c ++ "::*" ++ inner)) (depth + 1) u
    | .array u b =>
      let bound := match b with
        | some n => s!"[{n}]"
        | none => "[]"
      p.declarator (inner ++ bound) (depth + 1) u
    | .function r ps q =>
      let params := p.declarators ps ++ (if q.variadic then ["..."] else [])
      p.declarator (inner ++ "(" ++ ", ".intercalate params ++ ")" ++ suffix q) (depth + 1) r
    | .functionNamed _ => join "<function>" inner
    | .void => join "void" inner
    | .nullptr => join "std::nullptr_t" inner
    | .builtin k => join k.name inner
    | .record id => join (p.recordName id) inner
    | .enum id => join (p.enumName id) inner
    | .unknown n => join s!"<type#{n}>" inner

/-- Spells each type of a parameter list on its own. -/
def declarators (p : Program) (ts : List Ty) : List String :=
  match ts with
  | [] => []
  | t :: ts => p.declarator "" 0 t :: p.declarators ts

end

/-- The spelling of a type. -/
def spell (p : Program) (t : Ty) : String := p.declarator "" 0 t

end Program

end TypeTraits
