import TypeTraits.Ty.Formation

/-!
# Views of a type

What a rule asks of a type before it decides: its qualification, the type behind a reference,
pointer, array or member pointer, and the kind of its unqualified form. None of these needs
the declarations of the program.
-/

namespace TypeTraits.Ty

/-- The type without parts that has a given name. -/
def ofName? (name : String) : Option Ty :=
  if name = "void" then some void
  else if name = "std::nullptr_t" then some nullptr
  else (Builtin.ofName? name).map builtin

/-- The unqualified type and the qualification. An array is as qualified as its elements. -/
def splitCv : Ty → Ty × Cv
  | qualified t cv => (t, cv)
  | array t b =>
    let (inner, cv) := t.splitCv
    (if cv.isEmpty then array t b else array inner b, cv)
  | t => (t, ∅)

def unqualified (t : Ty) : Ty := t.splitCv.1

def cv (t : Ty) : Cv := t.splitCv.2

/-- The type without its outermost qualifier, not looking into arrays. -/
def core : Ty → Ty
  | qualified t _ => t
  | t => t

/-- Whether the type is known at all. -/
def isKnown : Ty → Bool
  | unknown _ => false
  | _ => true

def builtin? (t : Ty) : Option Builtin :=
  match t.core with
  | builtin k => some k
  | _ => none

def recordId? (t : Ty) : Option RecordId :=
  match t.core with
  | record id => some id
  | _ => none

def enumId? (t : Ty) : Option EnumId :=
  match t.core with
  | enum id => some id
  | _ => none

def isRecord (t : Ty) : Bool := t.recordId?.isSome

/-- The signature of a function type. -/
def signature? : Ty → Option Signature
  | function r ps q => some ⟨r, ps, q⟩
  | _ => none

/-- What a reference refers to, and whether it is an rvalue reference. -/
def referent? : Ty → Option (Ty × Bool)
  | lvalueRef t => some (t, false)
  | rvalueRef t => some (t, true)
  | _ => none

def isReference (t : Ty) : Bool := t.referent?.isSome

/-- What a possibly qualified pointer points to. -/
def pointee? (t : Ty) : Option Ty :=
  match t.core with
  | pointer u => some u
  | _ => none

/-- Element and bound of an array type. -/
def arrayParts? : Ty → Option (Ty × Option Nat)
  | array t b => some (t, b)
  | _ => none

def isArray (t : Ty) : Bool := t.arrayParts?.isSome

/-- Class and pointee of a possibly qualified member pointer. -/
def memberPointerParts? (t : Ty) : Option (Ty × Ty) :=
  match t.core with
  | memberPointer c u => some (c, u)
  | _ => none

/-- The element type under all array bounds. -/
def element : Ty → Ty
  | array t _ => t.element
  | t => t

def isVoid (t : Ty) : Bool :=
  match t.core with
  | void => true
  | _ => false

def isFunction : Ty → Bool
  | function .. | functionNamed _ => true
  | _ => false

def isBoundedArray : Ty → Bool
  | array _ (some _) => true
  | _ => false

def isUnboundedArray : Ty → Bool
  | array _ none => true
  | _ => false

/-- Arithmetic types, enumerations, pointers, member pointers and `std::nullptr_t`. -/
def isScalar (t : Ty) : Bool :=
  match t.core with
  | builtin _ | enum _ | pointer _ | memberPointer .. | nullptr => true
  | _ => false

/-- Number of array dimensions. -/
def rank : Ty → Nat
  | array t _ => t.rank + 1
  | _ => 0

/-- Bound of an array dimension; zero when the dimension is unbounded or does not exist. -/
def extent : Ty → Nat → Nat
  | array _ b, 0 => b.getD 0
  | array t _, n + 1 => t.extent n
  | _, _ => 0

/-- The type without a reference. -/
def withoutReference : Ty → Ty
  | lvalueRef t => t
  | rvalueRef t => t
  | t => t

theorem splitCv_eq (t : Ty) : t.splitCv = (t.unqualified, t.cv) := rfl

@[simp] theorem unqualified_qualified (t : Ty) (cv : Cv) : (qualified t cv).unqualified = t := rfl

@[simp] theorem cv_qualified (t : Ty) (cv : Cv) : (qualified t cv).cv = cv := rfl

@[simp] theorem cv_array (t : Ty) (b : Option Nat) : (array t b).cv = t.cv := rfl

end TypeTraits.Ty
