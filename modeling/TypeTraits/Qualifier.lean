/-!
# Qualifiers, access and value categories

The small closed vocabularies of the type system. Sets of `const` and `volatile` are ordered
by inclusion; adding, removing and comparing them is set algebra.
-/

namespace TypeTraits

/-- A set of `const` and `volatile`. -/
structure Cv where
  isConst : Bool
  isVolatile : Bool
  deriving DecidableEq, Repr, Inhabited, Hashable

namespace Cv

instance : EmptyCollection Cv := ⟨⟨false, false⟩⟩

def const : Cv := ⟨true, false⟩

def volatile : Cv := ⟨false, true⟩

def constVolatile : Cv := ⟨true, true⟩

instance : Union Cv := ⟨fun a b => ⟨a.isConst || b.isConst, a.isVolatile || b.isVolatile⟩⟩

instance : SDiff Cv :=
  ⟨fun a b => ⟨a.isConst && !b.isConst, a.isVolatile && !b.isVolatile⟩⟩

/-- Whether every qualifier of `b` is one of `a`. -/
def covers (a b : Cv) : Bool :=
  (a.isConst || !b.isConst) && (a.isVolatile || !b.isVolatile)

/-- Whether the two sets share a qualifier. -/
def meets (a b : Cv) : Bool :=
  a.isConst && b.isConst || a.isVolatile && b.isVolatile

def isEmpty (a : Cv) : Bool := !a.isConst && !a.isVolatile

/-- The qualifiers as they are written, `const` first. -/
def spelling : Cv → String
  | ⟨false, false⟩ => ""
  | ⟨true, false⟩ => "const"
  | ⟨false, true⟩ => "volatile"
  | ⟨true, true⟩ => "const volatile"

/-- The set that a word stands for. -/
def ofWord? : String → Option Cv
  | "" => some ∅
  | "const" => some const
  | "volatile" => some volatile
  | "cv" => some constVolatile
  | _ => none

@[simp] theorem union_isConst (a b : Cv) : (a ∪ b).isConst = (a.isConst || b.isConst) := rfl

@[simp] theorem union_isVolatile (a b : Cv) :
    (a ∪ b).isVolatile = (a.isVolatile || b.isVolatile) := rfl

@[simp] theorem sdiff_isConst (a b : Cv) : (a \ b).isConst = (a.isConst && !b.isConst) := rfl

@[simp] theorem sdiff_isVolatile (a b : Cv) :
    (a \ b).isVolatile = (a.isVolatile && !b.isVolatile) := rfl

@[simp] theorem isConst_empty : (∅ : Cv).isConst = false := rfl

@[simp] theorem isVolatile_empty : (∅ : Cv).isVolatile = false := rfl

theorem isEmpty_iff {a : Cv} : a.isEmpty = true ↔ a = ∅ := by
  rcases a with ⟨_ | _, _ | _⟩ <;> decide

theorem covers_antisymm {a b : Cv} (hab : a.covers b = true) (hba : b.covers a = true) :
    a = b := by
  rcases a with ⟨_ | _, _ | _⟩ <;> rcases b with ⟨_ | _, _ | _⟩ <;> simp_all [covers]

end Cv

/-- The ref-qualifier of a member function. -/
inductive RefQualifier where
  | none
  | lvalue
  | rvalue
  deriving DecidableEq, Repr, Inhabited, Hashable

/-- Member access. -/
inductive Access where
  | pub
  | prot
  | priv
  deriving DecidableEq, Repr, Inhabited

/-- The access that a keyword gives. -/
def Access.ofKeyword? : String → Option Access
  | "public" => some pub
  | "protected" => some prot
  | "private" => some priv
  | _ => none

/-- Value category of an expression. -/
inductive ValueCategory where
  | lvalue
  | xvalue
  | prvalue
  deriving DecidableEq, Repr, Inhabited

namespace ValueCategory

def isGlvalue : ValueCategory → Bool
  | lvalue | xvalue => true
  | prvalue => false

def isRvalue : ValueCategory → Bool
  | xvalue | prvalue => true
  | lvalue => false

end ValueCategory

end TypeTraits
