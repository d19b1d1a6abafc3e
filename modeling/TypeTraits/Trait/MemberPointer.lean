import TypeTraits.Trait.Solver

/-!
# Pointers to member functions

The object parameter of a member function is qualified in one of twelve ways. A pointer to
member function splits into its class as the object parameter sees it and the plain function
signature.
-/

namespace TypeTraits

/-- The qualification of an object parameter. -/
inductive ReceiverQualifier where
  | none
  | const
  | volatile
  | constVolatile
  | lvalue
  | constLvalue
  | volatileLvalue
  | constVolatileLvalue
  | rvalue
  | constRvalue
  | volatileRvalue
  | constVolatileRvalue
  deriving DecidableEq, Repr

namespace ReceiverQualifier

def all : List ReceiverQualifier :=
  [none, const, volatile, constVolatile, lvalue, constLvalue, volatileLvalue,
    constVolatileLvalue, rvalue, constRvalue, volatileRvalue, constVolatileRvalue]

/-- The qualification with the given parts. -/
def ofParts (cv : Cv) (ref : RefQualifier) : ReceiverQualifier :=
  match ref, cv with
  | .none, ⟨false, false⟩ => none
  | .none, ⟨true, false⟩ => const
  | .none, ⟨false, true⟩ => volatile
  | .none, ⟨true, true⟩ => constVolatile
  | .lvalue, ⟨false, false⟩ => lvalue
  | .lvalue, ⟨true, false⟩ => constLvalue
  | .lvalue, ⟨false, true⟩ => volatileLvalue
  | .lvalue, ⟨true, true⟩ => constVolatileLvalue
  | .rvalue, ⟨false, false⟩ => rvalue
  | .rvalue, ⟨true, false⟩ => constRvalue
  | .rvalue, ⟨false, true⟩ => volatileRvalue
  | .rvalue, ⟨true, true⟩ => constVolatileRvalue

/-- The `const` and `volatile` of the object parameter. -/
def cv : ReceiverQualifier → Cv
  | none | lvalue | rvalue => ∅
  | const | constLvalue | constRvalue => .const
  | volatile | volatileLvalue | volatileRvalue => .volatile
  | constVolatile | constVolatileLvalue | constVolatileRvalue => .constVolatile

/-- The ref-qualifier of the object parameter. -/
def ref : ReceiverQualifier → RefQualifier
  | none | const | volatile | constVolatile => .none
  | lvalue | constLvalue | volatileLvalue | constVolatileLvalue => .lvalue
  | rvalue | constRvalue | volatileRvalue | constVolatileRvalue => .rvalue

@[simp] theorem cv_ofParts (cv : Cv) (ref : RefQualifier) : (ofParts cv ref).cv = cv := by
  rcases cv with ⟨_ | _, _ | _⟩ <;> cases ref <;> rfl

@[simp] theorem ref_ofParts (cv : Cv) (ref : RefQualifier) : (ofParts cv ref).ref = ref := by
  rcases cv with ⟨_ | _, _ | _⟩ <;> cases ref <;> rfl

end ReceiverQualifier

/-- The parts of `R (C::*)(P...) cv ref`. -/
structure MemberPointerParts where
  /-- The class, qualified as the object parameter is. -/
  classType : Ty
  result : Ty
  /-- The function type without the qualifiers of the object parameter. -/
  signature : Ty
  params : List Ty
  qualifier : ReceiverQualifier
  variadic : Bool
  deriving DecidableEq, Repr

namespace Solver

variable (s : Solver)

/-- The parts of a pointer to member function; one with a ref-qualifier has none where the
language does not know those. -/
def memberPointerParts? (t : Ty) : Option MemberPointerParts := do
  let (cls, member) ← t.memberPointerParts?
  let f ← member.signature?
  if f.quals.ref != .none && !s.knowsRefQualifiers then none
  let qualifier := ReceiverQualifier.ofParts f.quals.cv f.quals.ref
  let object := cls.qualify qualifier.cv
  return {
    classType :=
      match qualifier.ref with
      | .none => object
      | .lvalue => object.lvalueRefTo
      | .rvalue => object.rvalueRefTo
    result := f.result
    signature := .functionOf { f with quals := { f.quals with cv := ∅, ref := .none } }
    params := f.params
    qualifier
    variadic := f.quals.variadic }

end Solver

end TypeTraits
