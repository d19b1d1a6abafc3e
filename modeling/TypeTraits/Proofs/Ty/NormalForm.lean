import TypeTraits.Ty.View

/-!
# Types in normal form

The types that declarations form. A qualification is not empty, and what carries one is no
reference, function or array and has no other; references do not nest; parameters have what
`Ty.asParameter` leaves. These are exactly the types that the operations on types form, and a class
has one of them for each qualification.
-/

namespace TypeTraits.Ty

/-- Whether adding a qualification to the type wraps it. -/
def takesQualifier : Ty → Bool
  | qualified .. | lvalueRef _ | rvalueRef _ | array .. | function .. | functionNamed _ => false
  | _ => true

/-- Whether a parameter may have the type. -/
def isParameter : Ty → Bool
  | qualified .. | array .. | function .. | functionNamed _ => false
  | _ => true

mutual

/-- Whether the type is in normal form. -/
def isNormal : Ty → Bool
  | qualified t cv => !cv.isEmpty && t.takesQualifier && t.isNormal
  | pointer t => t.isNormal
  | lvalueRef t | rvalueRef t => !t.isReference && t.isNormal
  | array t _ => t.isNormal
  | function r ps _ => r.isNormal && areNormalParameters ps
  | memberPointer c t => c.isNormal && t.isNormal
  | functionNamed _ | unknown _ => false
  | _ => true

/-- Whether the types are parameters in normal form. -/
def areNormalParameters : List Ty → Bool
  | [] => true
  | t :: ts => t.isParameter && t.isNormal && areNormalParameters ts

end

theorem withCv_of_takesQualifier {t : Ty} {cv : Cv} (h : t.takesQualifier = true) :
    t.withCv cv = .qualified t cv := by
  cases t <;> simp [takesQualifier, withCv] at h ⊢

theorem isNormal_lvalueRefTo {t : Ty} (h : t.isNormal = true) : t.lvalueRefTo.isNormal = true := by
  cases t <;> simp_all [lvalueRefTo, isNormal, isReference, referent?]

theorem isNormal_rvalueRefTo {t : Ty} (h : t.isNormal = true) : t.rvalueRefTo.isNormal = true := by
  cases t <;> simp_all [rvalueRefTo, isNormal, isReference, referent?]

theorem isNormal_withCv {t : Ty} {cv : Cv} (hcv : cv.isEmpty = false) (h : t.isNormal = true) :
    (t.withCv cv).isNormal = true := by
  induction t using Ty.inductionOn with
  | qualified t c _ =>
    have hunion : (c ∪ cv).isEmpty = false := by
      rcases c with ⟨_ | _, _ | _⟩ <;> rcases cv with ⟨_ | _, _ | _⟩ <;> first | rfl | cases hcv
    simp only [isNormal, Bool.and_eq_true] at h
    simp [withCv, isNormal, hunion, h]
  | array t b ih => exact ih h
  | _ => simp_all [withCv, isNormal, takesQualifier]

theorem isNormal_qualify {t : Ty} {cv : Cv} (h : t.isNormal = true) :
    (t.qualify cv).isNormal = true := by
  cases hcv : cv.isEmpty with
  | true => simpa [qualify, hcv] using h
  | false => rw [qualify_of_not_isEmpty hcv]; exact isNormal_withCv hcv h

theorem areNormalParameters_iff {ts : List Ty} :
    areNormalParameters ts = true ↔ ∀ t ∈ ts, t.isParameter = true ∧ t.isNormal = true := by
  induction ts with
  | nil => simp [areNormalParameters]
  | cons t ts ih => simp [areNormalParameters, ih]

theorem isNormal_asParameter {t : Ty} (h : t.isNormal = true) :
    t.asParameter.isParameter = true ∧ t.asParameter.isNormal = true := by
  cases t with
  | qualified t cv =>
    simp only [isNormal, Bool.and_eq_true] at h
    cases t <;> simp_all [asParameter, isParameter, takesQualifier]
  | _ => simp_all [asParameter, isParameter, isNormal]

theorem asParameter_of_isParameter {t : Ty} (h : t.isParameter = true) : t.asParameter = t := by
  cases t <;> simp [isParameter, asParameter] at h ⊢

/-- The types that can be written: what the operations on types form from the types without
parts. -/
inductive IsFormed : Ty → Prop
  | void : IsFormed .void
  | nullptr : IsFormed .nullptr
  | builtin (kind : Builtin) : IsFormed (.builtin kind)
  | record (id : RecordId) : IsFormed (.record id)
  | enum (id : EnumId) : IsFormed (.enum id)
  | qualify {t : Ty} (cv : Cv) : IsFormed t → IsFormed (t.qualify cv)
  | pointer {t : Ty} : IsFormed t → IsFormed (.pointer t)
  | lvalueRefTo {t : Ty} : IsFormed t → IsFormed t.lvalueRefTo
  | rvalueRefTo {t : Ty} : IsFormed t → IsFormed t.rvalueRefTo
  | array {t : Ty} (bound : Option Nat) : IsFormed t → IsFormed (.array t bound)
  | function {s : Signature} : IsFormed s.result → (∀ t ∈ s.params, IsFormed t) →
      IsFormed (.functionOf s)
  | memberPointer {c t : Ty} : IsFormed c → IsFormed t → IsFormed (.memberPointer c t)

/-- Exactly the types in normal form can be written. -/
theorem isFormed_iff_isNormal {t : Ty} : t.IsFormed ↔ t.isNormal = true := by
  constructor
  · intro h
    induction h with
    | qualify cv _ ih => exact isNormal_qualify ih
    | lvalueRefTo _ ih => exact isNormal_lvalueRefTo ih
    | rvalueRefTo _ ih => exact isNormal_rvalueRefTo ih
    | function _ _ hresult hparams =>
      simp only [functionOf, isNormal, Bool.and_eq_true, areNormalParameters_iff, List.mem_map]
      refine ⟨hresult, ?_⟩
      rintro t ⟨u, hu, rfl⟩
      exact isNormal_asParameter (hparams u hu)
    | memberPointer _ _ hc ht => simp [isNormal, hc, ht]
    | pointer _ ih | array _ _ ih => exact ih
    | _ => rfl
  · intro h
    induction t using Ty.inductionOn with
    | void => exact .void
    | nullptr => exact .nullptr
    | builtin k => exact .builtin k
    | record id => exact .record id
    | enum id => exact .enum id
    | qualified t cv ih =>
      simp only [isNormal, Bool.and_eq_true, Bool.not_eq_true'] at h
      rw [← withCv_of_takesQualifier h.1.2, ← qualify_of_not_isEmpty h.1.1]
      exact .qualify cv (ih h.2)
    | pointer t ih => exact .pointer (ih h)
    | lvalueRef t ih =>
      simp only [isNormal, Bool.and_eq_true, Bool.not_eq_true'] at h
      have hformed := IsFormed.lvalueRefTo (ih h.2)
      cases t <;> simp_all [lvalueRefTo, isReference, referent?]
    | rvalueRef t ih =>
      simp only [isNormal, Bool.and_eq_true, Bool.not_eq_true'] at h
      have hformed := IsFormed.rvalueRefTo (ih h.2)
      cases t <;> simp_all [rvalueRefTo, isReference, referent?]
    | array t b ih => exact .array b (ih h)
    | function r ps q hr hps =>
      simp only [isNormal, Bool.and_eq_true, areNormalParameters_iff] at h
      have hparams : ps.map asParameter = ps :=
        (List.map_congr_left fun t ht => asParameter_of_isParameter (h.2 t ht).1).trans
          (List.map_id' ps)
      have hformed := @IsFormed.function ⟨r, ps, q⟩ (hr h.1) fun t ht => hps t ht (h.2 t ht).2
      rwa [functionOf, hparams] at hformed
    | memberPointer c t hc ht =>
      simp only [isNormal, Bool.and_eq_true] at h
      exact .memberPointer (hc h.1) (ht h.2)
    | functionNamed _ | unknown _ => cases h

theorem eq_record_of_recordId? {t : Ty} {id : RecordId} (h : t.isNormal = true)
    (hid : t.unqualified.recordId? = some id) : t.unqualified = .record id := by
  cases t with
  | qualified t cv =>
    rw [unqualified_qualified] at hid ⊢
    cases t <;> simp_all [isNormal, takesQualifier, recordId?, core]
  | array t b =>
    simp only [unqualified, splitCv] at hid
    split at hid <;> simp [recordId?, core] at hid
  | _ => simp_all [unqualified, splitCv, recordId?, core]

theorem recordId?_unqualified {t : Ty} (h : t.isNormal = true) :
    t.unqualified.recordId? = t.recordId? := by
  cases t with
  | qualified t cv =>
    rw [unqualified_qualified]
    cases t <;> simp_all [isNormal, takesQualifier, recordId?, core]
  | array t b =>
    simp only [unqualified, splitCv]
    split <;> simp [recordId?, core]
  | _ => simp [unqualified, splitCv, recordId?]

theorem element_of_recordId? {t : Ty} {id : RecordId} (h : t.recordId? = some id) :
    t.element = t := by
  cases t <;> first | rfl | cases h

theorem isVoid_of_isRecord {t : Ty} (h : t.isRecord = true) : t.isVoid = false := by
  cases t with
  | qualified t cv => cases t <;> first | rfl | cases h
  | _ => first | rfl | cases h

/-- A class is known by its number, however it is qualified. -/
theorem unqualified_of_recordId? {t : Ty} {id : RecordId} (h : t.recordId? = some id) :
    t.unqualified = .record id := by
  cases t with
  | qualified t cv => cases t <;> simp_all [recordId?, core]
  | record id' =>
    cases h
    rfl
  | _ => simp [recordId?, core] at h

theorem unqualified_of_isRecord {t : Ty} (h : t.isNormal = true) (hr : t.isRecord = true) :
    ∃ id, t.unqualified = .record id := by
  obtain ⟨id, hid⟩ := Option.isSome_iff_exists.mp hr
  exact ⟨id, eq_record_of_recordId? h ((recordId?_unqualified h).trans hid)⟩

theorem isRecord_unqualified {t : Ty} (h : t.isNormal = true) :
    t.unqualified.isRecord = t.isRecord := by
  rw [isRecord, recordId?_unqualified h, isRecord]

theorem isNormal_of_referent? {t referent : Ty} {isRvalueRef : Bool} (h : t.isNormal = true)
    (hreferent : t.referent? = some (referent, isRvalueRef)) :
    referent.isNormal = true ∧ referent.isReference = false := by
  cases t <;> simp_all [referent?, isNormal]

theorem qualify_record (id : RecordId) (cv : Cv) :
    ((record id).qualify cv).isReference = false ∧ ((record id).qualify cv).isRecord = true ∧
      ((record id).qualify cv).unqualified = .record id := by
  unfold qualify
  split <;> exact ⟨rfl, rfl, rfl⟩

theorem recordId?_qualify (t : Ty) (cv : Cv) : (t.qualify cv).recordId? = t.recordId? := by
  unfold qualify
  split
  · rfl
  · cases t <;> rfl

theorem unqualified_unqualified {t : Ty} (h : t.isNormal = true) :
    t.unqualified.unqualified = t.unqualified := by
  induction t using Ty.inductionOn with
  | qualified t cv _ =>
    rw [unqualified_qualified]
    cases t <;> simp_all [isNormal, takesQualifier, unqualified, splitCv]
  | array t b ih =>
    have ht := ih h
    simp only [unqualified, splitCv] at ht ⊢
    by_cases hcv : t.splitCv.2.isEmpty = true
    · simp [hcv, splitCv]
    · simp only [hcv, Bool.false_eq_true, if_false, splitCv, ht, ite_self]
  | _ => simp [unqualified, splitCv]

/-- Nothing but the function type itself is that type when it is unqualified. -/
theorem eq_of_unqualified_function {t u : Ty} (hfunction : t.isFunction = true)
    (hu : u.isNormal = true) (hsame : t.unqualified = u.unqualified) : t = u := by
  have hplain : t.unqualified = t := by
    cases t <;> simp [isFunction] at hfunction <;> rfl
  rw [hplain] at hsame
  cases u with
  | qualified u cv =>
    rw [unqualified_qualified] at hsame
    rw [← hsame] at hu
    cases t <;> simp [isFunction, isNormal, takesQualifier] at hfunction hu
  | array u b =>
    simp only [unqualified, splitCv] at hsame
    split at hsame <;> simp [hsame, isFunction] at hfunction
  | _ => rw [hsame]; rfl

/-- Splitting a type and putting it together again gives the type. -/
theorem qualify_unqualified (t : Ty) (h : t.isNormal = true) : t.unqualified.qualify t.cv = t := by
  induction t using Ty.inductionOn with
  | qualified t cv ih =>
    simp only [isNormal, Bool.and_eq_true, Bool.not_eq_true'] at h
    rw [unqualified_qualified, cv_qualified, qualify_of_not_isEmpty h.1.1,
      withCv_of_takesQualifier h.1.2]
  | array t b ih =>
    have ht := ih h
    simp only [unqualified, cv, splitCv] at ht ⊢
    by_cases hcv : t.splitCv.2.isEmpty = true
    · simp [hcv, qualify]
    · rw [Bool.not_eq_true] at hcv
      rw [qualify_of_not_isEmpty hcv] at ht
      simp [hcv, qualify_of_not_isEmpty hcv, withCv, ht]
  | _ => simp [unqualified, cv, splitCv]

/-- An array is unqualified where its elements are. -/
theorem unqualified_array {t : Ty} {b : Option Nat} (h : t.isNormal = true) :
    (array t b).unqualified = array t.unqualified b := by
  have ht := qualify_unqualified t h
  simp only [unqualified, cv, splitCv] at ht ⊢
  by_cases hcv : t.splitCv.2.isEmpty = true
  · rw [qualify, if_pos hcv] at ht
    simp [hcv, ht]
  · simp [hcv]

theorem unqualified_qualify {t : Ty} {cv : Cv} (h : t.isNormal = true) :
    (t.qualify cv).unqualified = t.unqualified := by
  cases hcv : cv.isEmpty with
  | true => rw [qualify, if_pos hcv]
  | false =>
    rw [qualify_of_not_isEmpty hcv]
    induction t using Ty.inductionOn with
    | array t b ih =>
      have ht : t.isNormal = true := h
      change (array (t.withCv cv) b).unqualified = _
      rw [unqualified_array (isNormal_withCv hcv ht), unqualified_array ht, ih ht]
    | _ => rfl

end TypeTraits.Ty
