import TypeTraits.Proofs.Expr.Checker
import TypeTraits.Proofs.Expr.Effects
import TypeTraits.Proofs.Ty.NormalForm
import TypeTraits.Transform

/-!
# Operations on scalars

Converting one scalar to another, or to a reference to one, runs no function of the user, and
neither does initializing, assigning or swapping scalars. So none of them throws.
-/

namespace TypeTraits

/-- A call does not throw if neither the function nor a conversion does. -/
theorem Candidate.nothrow_callEffects {c : Candidate} {conversions : List (Option Conversion)}
    (hfunction : c.function.noexcept = true) (hresult : c.result = none)
    (h : ∀ conversion, some conversion ∈ conversions → conversion.effects.nothrow = true) :
    (c.callEffects conversions).nothrow = true := by
  have hfold : ∀ (l : List Conversion) (e : Effects), e.nothrow = true →
      (∀ conversion ∈ l, conversion.effects.nothrow = true) →
      (l.foldl (fun e conversion => e.and conversion.effects) e).nothrow = true := by
    intro l
    induction l with
    | nil => exact fun e he _ => he
    | cons conversion l ih =>
      intro e he hl
      obtain ⟨hconversion, hl⟩ := List.forall_mem_cons.mp hl
      exact ih _ (Bool.and_eq_true_iff.mpr ⟨he, hconversion⟩) hl
  unfold callEffects
  rw [hresult]
  refine hfold _ _ hfunction fun conversion hmem => ?_
  obtain ⟨o, ho, rfl⟩ := List.mem_filterMap.mp hmem
  exact h _ ho

namespace Program

variable {p : Program} {t : Ty} {source : Expr} {depth : Nat}

theorem isScalar_of_object {t : Ty} (ht : t.isNormal = true) (hreference : t.isReference = false)
    (hobject : (t.isVoid || t.isFunction) = false) (harray : t.isArray = false)
    (hrecord : t.isRecord = false) : t.isScalar = true := by
  cases t with
  | qualified t cv =>
    cases t <;> simp_all [Ty.isNormal, Ty.takesQualifier, Ty.isVoid, Ty.isRecord, Ty.recordId?,
      Ty.core, Ty.isScalar]
  | _ =>
    simp_all [Ty.isNormal, Ty.isReference, Ty.referent?, Ty.isVoid, Ty.isFunction, Ty.isArray,
      Ty.arrayParts?, Ty.isRecord, Ty.recordId?, Ty.core, Ty.isScalar]

theorem isScalar_of_isRecord {t : Ty} (h : t.isRecord = true) : t.isScalar = false := by
  cases t with
  | qualified t cv => cases t <;> simp_all [Ty.isRecord, Ty.recordId?, Ty.core, Ty.isScalar]
  | _ => simp_all [Ty.isRecord, Ty.recordId?, Ty.core, Ty.isScalar]

theorem isRecord_of_isScalar (h : t.isScalar = true) : t.isRecord = false := by
  rw [← Bool.not_eq_true]
  intro hrecord
  rw [isScalar_of_isRecord hrecord] at h
  cases h

theorem isScalar_unqualified (h : t.isScalar = true) : t.unqualified.isScalar = true := by
  cases t with
  | qualified t cv => cases t <;> simp_all [Ty.isScalar, Ty.core]
  | array t b => simp [Ty.isScalar, Ty.core] at h
  | _ => exact h

theorem not_isRecord_of_unqualified (h : t.unqualified.isScalar = true) : t.isRecord = false := by
  rw [← Bool.not_eq_true]
  intro hrecord
  obtain ⟨id, hid⟩ := Option.isSome_iff_exists.mp hrecord
  rw [Ty.unqualified_of_recordId? hid] at h
  cases h

/-- In normal form a type is a scalar where it is one without its qualifiers. -/
theorem isScalar_of_unqualified (ht : t.isNormal = true) (h : t.unqualified.isScalar = true) :
    t.isScalar = true := by
  cases t with
  | qualified t cv =>
    rw [Ty.unqualified_qualified] at h
    simp only [Ty.isNormal, Bool.and_eq_true] at ht
    cases t <;> first | exact h | cases ht.1.2
  | array t b =>
    simp only [Ty.unqualified, Ty.splitCv] at h
    split at h <;> cases h
  | _ => exact h

/-- Converting to a scalar what is no object of a class runs no function. -/
theorem effects_of_convert {mode : InitMode} {allowUser : Bool} {c : Conversion}
    (htarget : t.isScalar = true) (hsource : source.type.isRecord = false)
    (h : ((p.checkerBelow depth).convert source t mode allowUser).Returns c) :
    c.effects = .none := by
  have hreference : t.isReference = false := by
    cases t <;> simp_all [Ty.isScalar, Ty.core, Ty.isReference, Ty.referent?]
  obtain ⟨deeper, h⟩ := convert_returns h
  unfold convertStep at h
  rw [hreference, isRecord_of_isScalar htarget, hsource] at h
  simp only [Bool.false_eq_true, if_false] at h
  split at h
  · simp at h
  · exact effects_standardConversion (Check.returns_ofFormed.mp h)

/-- A scalar is initialized by a conversion. -/
theorem convert_of_constructStep {deeper : Checker} {e : Effects} (htarget : t.isScalar = true)
    (h : (p.constructStep deeper t [source]).Returns e) :
    ∃ c, (deeper.convert source t .direct true).Returns c ∧ c.effects = e := by
  have hplain : t.isReference = false ∧ (t.isVoid || t.isFunction) = false ∧ t.isArray = false := by
    cases t with
    | qualified t cv =>
      cases t <;> simp_all [Ty.isScalar, Ty.core, Ty.isReference, Ty.referent?, Ty.isVoid,
        Ty.isFunction, Ty.isArray, Ty.arrayParts?]
    | _ =>
      simp_all [Ty.isScalar, Ty.core, Ty.isReference, Ty.referent?, Ty.isVoid, Ty.isFunction,
        Ty.isArray, Ty.arrayParts?]
  obtain ⟨hreference, hobject, harray⟩ := hplain
  unfold constructStep at h
  rw [hreference, hobject, isRecord_of_isScalar htarget] at h
  simp only [Bool.false_eq_true, if_false] at h
  have hconvert : (do
      let c ← deeper.convert source t .direct true
      return c.effects : Check Effects).Returns e := by
    cases t <;> first | exact h | simp [Ty.isArray, Ty.arrayParts?] at harray
  obtain ⟨c, hc, h⟩ := hconvert.bind
  exact ⟨c, hc, Check.returns_pure.mp h⟩

/-- What is bound without a nested check is bound without a function. -/
theorem effects_of_bindAtOnce {isRvalueRef : Bool} {c : Conversion}
    (h : p.bindAtOnce? source t isRvalueRef = some (.ok c)) : c.effects = .none := by
  unfold bindAtOnce? at h
  split at h
  · exact effects_bindFunction (Option.some.inj h)
  · obtain ⟨relation, _, hbound⟩ := Option.map_eq_some_iff.mp h
    obtain ⟨sequence, binding, hsequence, rfl⟩ := bindRelated_eq_ok hbound
    have heffects : sequence.effects = .none := BaseConversion.effects_sequence? hsequence
    exact heffects

/-- Binding a reference to a scalar, from a scalar, runs no function. -/
theorem effects_of_bindReferent {isRvalueRef : Bool} {mode : InitMode} {allowUser : Bool}
    {c : Conversion} (ht : t.isNormal = true) (htarget : t.isScalar = true)
    (hsource : source.type.unqualified.isScalar = true)
    (h : (p.bindReferent (p.checkerBelow depth).convert source t isRvalueRef mode
      allowUser).Returns c) : c.effects = .none := by
  cases hatOnce : p.bindAtOnce? source t isRvalueRef with
  | some bound =>
    rw [bindReferent_of_atOnce hatOnce, Check.returns_ofFormed] at h
    exact effects_of_bindAtOnce (h ▸ hatOnce)
  | none =>
    rw [bindReferent_of_unrelated hatOnce,
      bindUnrelated_of_not_isRecord (isRecord_of_isScalar hsource)] at h
    split at h
    · simp at h
    · obtain ⟨conversion, hconversion, hc⟩ := Check.Returns.bind h
      cases Check.returns_pure.mp hc
      rw [Ty.qualify_unqualified t ht] at hconversion
      have heffects : conversion.effects = .none :=
        effects_of_convert htarget (not_isRecord_of_unqualified hsource) hconversion
      exact heffects

/-- Converting a scalar to a scalar or a reference to one runs no function. -/
theorem effects_of_convert_removeCvref {mode : InitMode} {allowUser : Bool} {c : Conversion}
    (ht : t.isNormal = true) (htarget : t.removeCvref.isScalar = true)
    (hsource : source.type.unqualified.isScalar = true)
    (h : ((p.checkerBelow depth).convert source t mode allowUser).Returns c) :
    c.effects = .none := by
  cases hreferent : t.referent? with
  | none =>
    have hplain : t.withoutReference = t := by
      cases t <;> first | rfl | cases hreferent
    rw [Ty.removeCvref, hplain] at htarget
    exact effects_of_convert (isScalar_of_unqualified ht htarget)
      (not_isRecord_of_unqualified hsource) h
  | some parts =>
    obtain ⟨referent, isRvalueRef⟩ := parts
    have hplain : t.withoutReference = referent := by
      cases t <;> cases hreferent <;> rfl
    rw [Ty.removeCvref, hplain] at htarget
    have hnormal := (Ty.isNormal_of_referent? ht hreferent).1
    obtain ⟨deeper, h⟩ := convert_returns h
    rw [convertStep, if_pos (by simp [Ty.isReference, hreferent])] at h
    obtain ⟨deeper, u, _, hu, h⟩ := bindReference_returns h
    cases hreferent.symm.trans hu
    exact effects_of_bindReferent hnormal (isScalar_of_unqualified hnormal htarget) hsource h

/-- Initializing a scalar from one runs no function. -/
theorem effects_of_directInit {e : Effects} (htarget : t.isScalar = true)
    (hsource : source.type.unqualified.isScalar = true)
    (h : (p.directInit t [source]).Returns e) : e = .none := by
  rw [directInit, checker_eq] at h
  obtain ⟨deeper, h⟩ := construct_returns h
  obtain ⟨c, hc, rfl⟩ := convert_of_constructStep htarget h
  exact effects_of_convert htarget (not_isRecord_of_unqualified hsource) hc

theorem effects_of_copyInit {e : Effects} (ht : t.isNormal = true)
    (htarget : t.removeCvref.isScalar = true) (hsource : source.type.unqualified.isScalar = true)
    (h : (p.copyInit t source).Returns e) : e = .none := by
  obtain ⟨c, hc, h⟩ := Check.Returns.bind h
  rw [convert, checker_eq] at hc
  rw [← Check.returns_pure.mp h]
  exact effects_of_convert_removeCvref ht htarget hsource hc

theorem effects_of_assign {a : Expr} {e : Effects} (htarget : a.type.unqualified.isScalar = true)
    (hsource : source.type.unqualified.isScalar = true) (h : (p.assign a source).Returns e) :
    e = .none := by
  unfold assign at h
  dsimp only at h
  rw [not_isRecord_of_unqualified htarget, if_neg Bool.false_ne_true] at h
  split at h
  · simp at h
  · split at h
    · simp at h
    · obtain ⟨c, hc, h⟩ := h.bind
      rw [convert, checker_eq] at hc
      rw [← Check.returns_pure.mp h]
      exact effects_of_convert htarget (not_isRecord_of_unqualified hsource) hc

theorem destroy_of_isScalar (h : t.isScalar = true) : p.destroy t = .ok .none := by
  cases t with
  | qualified t cv => cases t <;> first | rfl | cases h
  | _ => first | rfl | cases h

/-- Moving scalars does not throw. -/
theorem eq_librarySwap_of_stdSwap {f : FunctionDecl} (ht : t.isScalar = true)
    (h : (p.stdSwap t).Returns (some f)) : f = librarySwap t .none := by
  have hunqualified := isScalar_unqualified ht
  have hmoves {e : Effects} (h : (do
      let constructed ← p.directInit t [.xvalue t]
      let destroyed ← Check.ofFormed (p.destroy t)
      let assigned ← p.assign (.lvalue t) (.xvalue t)
      return (constructed.and destroyed).and assigned : Check Effects).Returns e) : e = .none := by
    obtain ⟨constructed, hconstructed, h⟩ := h.bind
    obtain ⟨destroyed, hdestroyed, h⟩ := h.bind
    obtain ⟨assigned, hassigned, h⟩ := h.bind
    rw [Check.returns_ofFormed, destroy_of_isScalar ht] at hdestroyed
    cases hdestroyed
    rw [effects_of_directInit ht hunqualified hconstructed,
      effects_of_assign hunqualified hunqualified hassigned] at h
    exact (Check.returns_pure.mp h).symm
  unfold stdSwap at h
  obtain ⟨swapped, hswapped, h⟩ := h.bind
  obtain ⟨e, rfl, rfl⟩ := Option.map_eq_some_iff.mp (Check.returns_pure.mp h)
  cases t with
  | array | function | functionNamed => cases ht
  | _ => rw [hmoves hswapped.attempt]

theorem swapClasses_of_isScalar (h : t.unqualified.isScalar = true) : p.swapClasses t = [] := by
  have hrecord : t.unqualified.recordId? = none :=
    Option.not_isSome_iff_eq_none.mp (Bool.eq_false_iff.mp (isRecord_of_isScalar h))
  simp [swapClasses, completeRecord?, recordOf?, hrecord]

/-- Swapping scalars does not throw. -/
theorem nothrow_of_swap {a b : Expr} {e : Effects} (hnormal : a.type.isNormal = true)
    (ha : a.type.unqualified.isScalar = true) (hb : b.type.unqualified.isScalar = true)
    (h : (p.swap a b).Returns e) : e.nothrow = true := by
  have hscalar := isScalar_of_unqualified hnormal ha
  have howners : p.swapOwners a b = [] := by
    simp [swapOwners, swapClasses_of_isScalar ha, swapClasses_of_isScalar hb]
  have hparam : a.type.lvalueRefTo.removeCvref = a.type.unqualified := by
    cases htype : a.type <;> rw [htype] at hscalar <;> first | rfl | cases hscalar
  simp only [swap, swapWith, howners, List.flatMap_nil, List.nil_append] at h
  obtain ⟨library, hlibrary, h⟩ := h.bind
  split at h
  · simp at h
  · obtain ⟨s, hs, heffects⟩ := h.bind
    obtain ⟨c, hc, conversions, hviable, hselect⟩ := resolve_returns hs
    obtain ⟨_, _, rfl⟩ := Candidate.select_eq_ok_iff.mp hselect
    obtain ⟨f, hf, rfl⟩ := Option.map_eq_some_iff.mp (Option.mem_toList.mp hc)
    subst hf
    have hstd : f = librarySwap a.type .none := by
      split at hlibrary
      · exact eq_librarySwap_of_stdSwap hscalar hlibrary
      · simp at hlibrary
    subst hstd
    rw [← Check.returns_pure.mp heffects]
    refine Candidate.nothrow_callEffects rfl rfl fun conversion hmem => ?_
    rcases viableConversions_returns hviable conversion hmem with
      ⟨_, _, hobject, _⟩ | rfl | ⟨arg, harg, param, hpar, hconvert⟩
    · cases hobject
    · rfl
    · have hsource : arg.type.unqualified.isScalar = true := by
        rcases List.mem_cons.mp harg with rfl | harg
        · exact ha
        · exact List.mem_singleton.mp harg ▸ hb
      have hreference : param = a.type.lvalueRefTo := by
        simpa [Candidate.library, librarySwap] using hpar
      subst hreference
      rw [checker_eq] at hconvert
      rw [effects_of_convert_removeCvref (Ty.isNormal_lvalueRefTo hnormal) (hparam ▸ ha) hsource
        hconvert]
      rfl

end Program
end TypeTraits
