import TypeTraits.Transform
import TypeTraits.Proofs.Layout.Qualification

/-!
# Decay

What decay leaves: no reference, no array, no qualifier, and of the functions only those that
nothing can point to. These types decay to themselves, so a second decay changes nothing, and
decaying until nothing changes is decaying once.
-/

namespace TypeTraits

namespace Ty

/-- The types that a parameter passed by value can have, and the functions that cannot be passed
as pointers. -/
def isDecayed : Ty → Bool
  | void | nullptr | builtin _ | record _ | enum _ | pointer _ | memberPointer .. => true
  | function r ps q => Signature.isAbominable ⟨r, ps, q⟩
  | _ => false

/-- A possibly qualified type in normal form that no decay turns into a pointer or strips of a
reference. -/
structure IsValue (t : Ty) : Prop where
  normal : t.isNormal = true
  decayed : t.unqualified.isDecayed = true

/-- A decayed type in normal form that is no class. -/
structure IsPlainValue (t : Ty) : Prop where
  normal : t.isNormal = true
  decayed : t.isDecayed = true
  notClass : t.isRecord = false

variable {t : Ty}

theorem unqualified_of_isDecayed (h : t.isDecayed = true) : t.unqualified = t := by
  cases t <;> first | rfl | cases h

theorem isReference_of_isDecayed (h : t.isDecayed = true) : t.isReference = false := by
  cases t <;> first | rfl | cases h

theorem isArray_of_isDecayed (h : t.isDecayed = true) : t.isArray = false := by
  cases t <;> first | rfl | cases h

theorem IsValue.of_isDecayed (hnormal : t.isNormal = true) (h : t.isDecayed = true) :
    t.IsValue :=
  ⟨hnormal, (unqualified_of_isDecayed h).symm ▸ h⟩

theorem IsPlainValue.isValue (h : t.IsPlainValue) : t.IsValue := .of_isDecayed h.normal h.decayed

theorem IsValue.unqualified (h : t.IsValue) : t.unqualified.IsValue :=
  .of_isDecayed (isNormal_unqualified h.normal) h.decayed

theorem IsValue.qualify (h : t.IsValue) (cv : Cv) : (t.qualify cv).IsValue :=
  ⟨isNormal_qualify h.normal, by rw [unqualified_qualify h.normal]; exact h.decayed⟩

theorem IsValue.isReference (h : t.IsValue) : t.isReference = false := by
  have hdecayed := h.decayed
  cases t <;> first | rfl | cases hdecayed

theorem IsValue.isArray (h : t.IsValue) : t.isArray = false := by
  cases t with
  | array u b =>
    have hu : u.isNormal = true := h.normal
    have hdecayed := h.decayed
    rw [unqualified_array hu] at hdecayed
    cases hdecayed
  | _ => rfl

theorem isVoid_unqualified (h : t.isNormal = true) : t.unqualified.isVoid = t.isVoid := by
  cases t with
  | qualified t cv =>
    cases t with
    | qualified _ _ => simp [isNormal, takesQualifier] at h
    | _ => rfl
  | array t b =>
    have ht : t.isNormal = true := h
    rw [unqualified_array ht]
    rfl
  | _ => rfl

theorem isVoid_qualify (t : Ty) (cv : Cv) : (t.qualify cv).isVoid = t.isVoid := by
  unfold Ty.qualify
  split
  · rfl
  · cases t <;> rfl

theorem eq_void_of_isVoid (h : t.isDecayed = true) (hvoid : t.isVoid = true) : t = .void := by
  cases t <;> first | rfl | cases hvoid | cases h

end Ty

namespace Program

variable {p : Program} {t : Ty}

theorem decay_of_isDecayed (h : t.isDecayed = true) : p.decay t = t := by
  cases t with
  | function r ps q =>
    have habominable : Signature.isAbominable ⟨r, ps, q⟩ = true := h
    have hreferenceable : p.isReferenceable (.function r ps q) = false := by
      simp [isReferenceable, category, Ty.signature?, habominable]
    change p.addPointer (.function r ps q) = _
    simp [addPointer, Ty.withoutReference, hreferenceable, Ty.isVoid, Ty.core]
  | _ => first | rfl | cases h

/-- A function decays to a pointer to it if there is one. -/
theorem decayObject_function {r : Ty} {ps : List Ty} {q : FunctionQualifiers} :
    p.decayObject (.function r ps q) =
      if Signature.isAbominable ⟨r, ps, q⟩ then .function r ps q
      else .pointer (.function r ps q) := by
  change p.addPointer (.function r ps q) = _
  simp only [addPointer, Ty.withoutReference, isReferenceable, category, Ty.signature?,
    Option.any_some, Ty.isVoid, Ty.core, Bool.or_false, Bool.not_eq_eq_eq_not, Bool.not_true]
  cases Signature.isAbominable ⟨r, ps, q⟩ <;> rfl

/-- What is left of a type that is no reference. -/
theorem decayed_decayObject (h : t.isNormal = true) (hreference : t.isReference = false) :
    (p.decayObject t).isNormal = true ∧ (p.decayObject t).isDecayed = true := by
  cases t with
  | lvalueRef t | rvalueRef t => cases hreference
  | array t b => exact ⟨h, rfl⟩
  | function r ps q =>
    rw [decayObject_function]
    cases habominable : Signature.isAbominable ⟨r, ps, q⟩ with
    | true => exact ⟨h, habominable⟩
    | false => exact ⟨h, rfl⟩
  | qualified t cv =>
    refine ⟨Ty.isNormal_unqualified h, ?_⟩
    cases t <;> simp [Ty.isNormal, Ty.takesQualifier] at h <;> rfl
  | functionNamed _ | unknown _ => cases h
  | _ => exact ⟨h, rfl⟩

theorem withoutReference_of_isNormal (h : t.isNormal = true) :
    t.withoutReference.isNormal = true ∧ t.withoutReference.isReference = false := by
  cases t <;> simp_all [Ty.withoutReference, Ty.isNormal, Ty.isReference, Ty.referent?]

theorem decayed_decay (h : t.isNormal = true) :
    (p.decay t).isNormal = true ∧ (p.decay t).isDecayed = true :=
  decayed_decayObject (withoutReference_of_isNormal h).1 (withoutReference_of_isNormal h).2

theorem isValue_decay (h : t.isNormal = true) : (p.decay t).IsValue :=
  .of_isDecayed (decayed_decay h).1 (decayed_decay h).2

theorem isPlainValue_decay (h : t.isNormal = true) (hclass : (p.decay t).isRecord = false) :
    (p.decay t).IsPlainValue :=
  ⟨(decayed_decay h).1, (decayed_decay h).2, hclass⟩

theorem decay_decay (h : t.isNormal = true) : p.decay (p.decay t) = p.decay t :=
  decay_of_isDecayed (decayed_decay h).2

/-- Decaying a type until nothing changes is decaying it once. -/
theorem settle_eq_decay (h : t.isNormal = true) : p.settle t = p.decay t := by
  have hobject : ∀ u : Ty, u.isNormal = true → u.isReference = false →
      p.settle u = p.decayObject u := by
    intro u hu hreference
    cases u with
    | lvalueRef u | rvalueRef u => cases hreference
    | qualified u cv =>
      cases u <;> simp [Ty.isNormal, Ty.takesQualifier] at hu <;> rfl
    | functionNamed _ | unknown _ => cases hu
    | _ => rfl
  have hwithout := withoutReference_of_isNormal h
  have hsettle : p.settle t = p.settle t.withoutReference := by cases t <;> rfl
  rw [hsettle, decay, hobject _ hwithout.1 hwithout.2]

theorem decay_of_isValue (h : t.IsValue) : p.decay t = t.unqualified := by
  have hdecayed := h.decayed
  cases t with
  | qualified t cv => rfl
  | array t b => cases h.isArray
  | _ => exact decay_of_isDecayed hdecayed

theorem removeCvref_of_isValue (h : t.IsValue) : t.removeCvref = t.unqualified := by
  have hreference := h.isReference
  cases t <;> first | rfl | cases hreference

end Program
end TypeTraits
