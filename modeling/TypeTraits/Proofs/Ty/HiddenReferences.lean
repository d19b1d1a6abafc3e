import TypeTraits.Ty.View

/-!
# References inside types

No reference is qualified or referred to, no array has references as its elements and nothing points
to one: a type hides no reference then, although it may be one, and the result and the parameters of
a function may be. Such types are what the operations on types form where no array, pointer or
member pointer is made of a reference. The ones that are no references themselves are the types of
operands; what an operation takes out of them and puts together again is one of them.
-/

namespace TypeTraits

namespace Ty

/-- Whether no reference stands in a place of the type that is for other types only. -/
def hidesNoReference : Ty → Bool
  | qualified t _ | pointer t | lvalueRef t | rvalueRef t | array t _ | memberPointer _ t =>
    !t.isReference && t.hidesNoReference
  | function r _ _ => r.hidesNoReference
  | _ => true

/-- Whether the type is one that an operand may have. -/
def isOperandType (t : Ty) : Bool := !t.isReference && t.hidesNoReference

/-- The types that can be written without an array of references or a pointer to one. -/
inductive IsWritten : Ty → Prop
  | void : IsWritten .void
  | nullptr : IsWritten .nullptr
  | builtin (kind : Builtin) : IsWritten (.builtin kind)
  | record (id : RecordId) : IsWritten (.record id)
  | enum (id : EnumId) : IsWritten (.enum id)
  | qualify {t : Ty} (cv : Cv) : IsWritten t → IsWritten (t.qualify cv)
  | pointer {t : Ty} : t.isReference = false → IsWritten t → IsWritten (.pointer t)
  | lvalueRefTo {t : Ty} : IsWritten t → IsWritten t.lvalueRefTo
  | rvalueRefTo {t : Ty} : IsWritten t → IsWritten t.rvalueRefTo
  | array {t : Ty} (bound : Option Nat) : t.isReference = false → IsWritten t →
      IsWritten (.array t bound)
  | function {s : Signature} : IsWritten s.result → (∀ t ∈ s.params, IsWritten t) →
      IsWritten (.functionOf s)
  | memberPointer {c t : Ty} : t.isReference = false → IsWritten c → IsWritten t →
      IsWritten (.memberPointer c t)

variable {t u c : Ty} {b : Option Nat} {cv : Cv}

theorem isOperandType_iff :
    t.isOperandType = true ↔ t.isReference = false ∧ t.hidesNoReference = true := by
  simp [isOperandType]

theorem hidesNoReference_withCv (ht : t.hidesNoReference = true) :
    (t.withCv cv).hidesNoReference = true ∧ (t.withCv cv).isReference = t.isReference := by
  induction t using Ty.inductionOn with
  | array t b ih =>
    simp only [hidesNoReference, Bool.and_eq_true, Bool.not_eq_true'] at ht
    obtain ⟨hhides, hreference⟩ := ih ht.2
    simp only [withCv, hidesNoReference, hhides, hreference, ht.1]
    exact ⟨rfl, rfl⟩
  | _ => simp_all [withCv, hidesNoReference, isReference, referent?]

theorem hidesNoReference_qualify (ht : t.hidesNoReference = true) (cv : Cv) :
    (t.qualify cv).hidesNoReference = true ∧ (t.qualify cv).isReference = t.isReference := by
  unfold qualify
  split
  · exact ⟨ht, rfl⟩
  · exact hidesNoReference_withCv ht

theorem hidesNoReference_lvalueRefTo (ht : t.hidesNoReference = true) :
    t.lvalueRefTo.hidesNoReference = true := by
  cases t <;> simp_all [lvalueRefTo, hidesNoReference, isReference, referent?]

theorem hidesNoReference_rvalueRefTo (ht : t.hidesNoReference = true) :
    t.rvalueRefTo.hidesNoReference = true := by
  cases t <;> simp_all [rvalueRefTo, hidesNoReference, isReference, referent?]

/-- What can be written hides no reference. -/
theorem IsWritten.hidesNoReference (h : t.IsWritten) : t.hidesNoReference = true := by
  induction h with
  | qualify cv _ ih => exact (hidesNoReference_qualify ih cv).1
  | pointer hreference _ ih | array _ hreference _ ih => simp [Ty.hidesNoReference, hreference, ih]
  | memberPointer hreference _ _ _ ih => simp [Ty.hidesNoReference, hreference, ih]
  | lvalueRefTo _ ih => exact hidesNoReference_lvalueRefTo ih
  | rvalueRefTo _ ih => exact hidesNoReference_rvalueRefTo ih
  | function _ _ ih _ => exact ih
  | _ => rfl

/-- A set of types that has, with a type, what the operations on expressions take out of it and form
of it. -/
structure IsClosed (ok : Ty → Prop) : Prop where
  void : ok .void
  builtin (kind : Builtin) : ok (.builtin kind)
  pointerTo {t : Ty} : ok t → ok (.pointer t)
  memberPointerTo {c t : Ty} : ok t → ok (.memberPointer c t)
  qualify {t : Ty} (cv : Cv) : ok t → ok (t.qualify cv)
  unqualified {t : Ty} : ok t → ok t.unqualified
  withoutReference {t : Ty} : ok t → ok t.withoutReference
  element {t : Ty} {b : Option Nat} : ok (.array t b) → ok t
  pointee {t u : Ty} : ok t → t.pointee? = some u → ok u
  memberPointee {t c u : Ty} : ok t → t.memberPointerParts? = some (c, u) → ok u
  result {t : Ty} {s : Signature} : ok t → t.signature? = some s → ok s.result.withoutReference

theorem isClosed_true : IsClosed fun _ => True := by
  constructor <;> intros <;> trivial

theorem isOperandType_unqualified (ht : t.isOperandType = true) :
    t.unqualified.isOperandType = true := by
  induction t using Ty.inductionOn with
  | array t b ih =>
    have hinner := ih ht
    unfold unqualified at hinner ⊢
    rw [splitCv]
    dsimp only
    split
    · exact ht
    · exact hinner
  | _ => exact ht

theorem isOperandType_withoutReference (ht : t.hidesNoReference = true) :
    t.withoutReference.isOperandType = true := by
  cases t <;> exact ht

theorem isClosed_isOperandType : IsClosed fun t => t.isOperandType = true where
  void := rfl
  builtin _ := rfl
  pointerTo h := h
  memberPointerTo h := h
  qualify cv h := by
    obtain ⟨hreference, hhides⟩ := isOperandType_iff.mp h
    obtain ⟨hhides', hreference'⟩ := hidesNoReference_qualify hhides cv
    exact isOperandType_iff.mpr ⟨hreference'.trans hreference, hhides'⟩
  unqualified := isOperandType_unqualified
  withoutReference h := isOperandType_withoutReference (isOperandType_iff.mp h).2
  element h := (isOperandType_iff.mp h).2
  pointee {t u} h hu := by
    have hcore : t.core.hidesNoReference = true := by
      cases t <;> simp_all [core, isOperandType, hidesNoReference]
    unfold pointee? at hu
    split at hu
    · next hpointer =>
      cases hu
      rw [hpointer] at hcore
      exact hcore
    · cases hu
  memberPointee {t c u} h hu := by
    have hcore : t.core.hidesNoReference = true := by
      cases t <;> simp_all [core, isOperandType, hidesNoReference]
    unfold memberPointerParts? at hu
    split at hu
    · next hpointer =>
      cases hu
      rw [hpointer] at hcore
      exact hcore
    · cases hu
  result {t s} h hs := by
    cases t <;> cases hs
    exact isOperandType_withoutReference (isOperandType_iff.mp h).2

end Ty
end TypeTraits
