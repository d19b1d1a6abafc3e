import TypeTraits.Program

/-!
# Layout of objects

Size and alignment of a type on the program's target. An enumeration is laid out as its
underlying type, which may be any type, another enumeration included: the walk through
enumerations therefore has a bound, and running out of it is told apart from having no layout.
-/

namespace TypeTraits.Program

variable (p : Program)

/-- Layout of a type, when `underlying` knows the layout of enumerations. The outer option is
the one `underlying` fails with. -/
def layoutStep (underlying : Enumeration → Option (Option Layout)) : Ty → Option (Option Layout)
  | .lvalueRef t => layoutStep underlying t
  | .rvalueRef t => layoutStep underlying t
  | .qualified t _ =>
    match t with
    | .qualified .. | .lvalueRef _ | .rvalueRef _ => some none
    | t => layoutStep underlying t
  | .void | .function .. | .functionNamed _ | .unknown _ => some none
  | .nullptr | .pointer _ => some p.target.pointer
  | .builtin k => some (k.layout p.target)
  | .memberPointer _ t =>
    some (if t.isFunction then p.target.memberFunctionPointer else p.target.memberDataPointer)
  | .array t b => do
    let inner ← layoutStep underlying t
    return do
      let layout ← inner
      let size ← Layout.fits? (layout.size * (← b))
      return ⟨size, layout.align⟩
  | .enum id =>
    match p.enum? id with
    | some e => underlying e
    | none => some none
  | .record id => some (((p.record? id).filter (·.complete)).map (·.layout))

/-- Layout of a type whose enumerations lead to one another at most `fuel` times; the outer
`none` means that this was not enough. -/
def layoutWithin : Nat → Ty → Option (Option Layout)
  | 0 => p.layoutStep fun _ => none
  | fuel + 1 => p.layoutStep fun e => layoutWithin fuel (e.underlying p.target)

/-- Layout of a complete object type; a reference has the layout of what it refers to. `none`
for `void`, functions, arrays of unknown bound, incomplete records and sizes out of range. -/
def layoutOf (t : Ty) : Option Layout :=
  (p.layoutWithin (p.enums.size + 1) t).join

def sizeOf (t : Ty) : Option Nat := (p.layoutOf t).map (·.size)

def alignOf (t : Ty) : Option Nat := (p.layoutOf t).map (·.align)

/-- Layout of a data member: a reference is stored as a pointer. -/
def memberLayout (t : Ty) : Option Layout :=
  if t.isReference then some p.target.pointer else p.layoutOf t

/-- Whether equal values of a type have equal bytes, when `underlying` answers for
enumerations. -/
def uniqueStep (underlying : Enumeration → Option Bool) (t : Ty) : Option Bool :=
  match t.element.core with
  | .builtin k => some k.isIntegral
  | .enum id =>
    match p.enum? id with
    | some e => underlying e
    | none => some false
  | .pointer _ => some true
  | .memberPointer _ u => some (!u.isFunction)
  | .record id => some (((p.record? id).filter (·.complete)).any (·.facts.uniqueRepresentation))
  | _ => some false

/-- The answer for a type whose enumerations lead to one another at most `fuel` times. -/
def uniqueWithin : Nat → Ty → Option Bool
  | 0 => p.uniqueStep fun _ => none
  | fuel + 1 => p.uniqueStep fun e => uniqueWithin fuel (e.underlying p.target)

/-- Whether every bit of an object's bytes takes part in its value. Floating-point types,
`std::nullptr_t` and pointers to member functions do not qualify. -/
def hasUniqueRepresentation (t : Ty) : Bool :=
  (p.uniqueWithin (p.enums.size + 1) t).getD false

end TypeTraits.Program
