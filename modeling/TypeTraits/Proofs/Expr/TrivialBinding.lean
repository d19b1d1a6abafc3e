import TypeTraits.Proofs.Expr.Checker
import TypeTraits.Proofs.Expr.Effects
import TypeTraits.Proofs.Ty.NormalForm
import TypeTraits.Record.Facts

/-!
# Trivial conversions

A trivial conversion runs no function of the user. Conversion functions are written by the user
and never trivial, and a trivial constructor is a special member, to which an unrelated source
converts only through a further function of the user. So a reference that is bound trivially is
bound directly or to a temporary that a standard conversion gives, and is bound in whatever form
the initialization has.
-/

namespace TypeTraits

/-- Which functions of a record are trivial: of its constructors only special members, and no
conversion function. -/
structure Record.TrivialFunctions (r : Record) : Prop where
  constructors : ∀ f ∈ r.constructors, f.trivial = true → (r.specialConstructor? f).isSome
  conversions : ∀ f ∈ r.conversions, f.trivial = false

/-- In every complete record of the program only such functions are trivial. -/
def Program.TrivialFunctions (p : Program) : Prop :=
  ∀ id r, p.record? id = some r → r.complete = true → r.id = id ∧ r.TrivialFunctions

theorem Effects.trivial_foldl_and {e : Effects} {l : List Conversion} (h : e.trivial = false) :
    (l.foldl (fun e c => e.and c.effects) e).trivial = false := by
  induction l generalizing e with
  | nil => exact h
  | cons c l ih => exact ih (by simp [Effects.and, h])

/-- A call of a function that is not trivial is not trivial. -/
theorem Candidate.trivial_callEffects {c : Candidate} {conversions : List (Option Conversion)}
    (h : c.function.trivial = false) : (c.callEffects conversions).trivial = false := by
  have harguments := Effects.trivial_foldl_and (e := ⟨c.function.noexcept, c.function.trivial⟩)
    (l := conversions.filterMap fun c => c) h
  unfold callEffects
  cases c.result with
  | none => exact harguments
  | some r => exact (Bool.and_eq_false_iff.mpr (Or.inl harguments))

namespace Program

variable {p : Program} {convert : ConvertArgument} {source : Expr} {c : Conversion}

theorem TrivialFunctions.completeRecord? (hp : p.TrivialFunctions) {t : Ty} {r : Record}
    (h : p.completeRecord? t = some r) : some r.id = t.recordId? ∧ r.TrivialFunctions := by
  obtain ⟨hr, hc⟩ := Option.filter_eq_some_iff.mp h
  obtain ⟨id, ht, hid⟩ := Option.bind_eq_some_iff.mp hr
  obtain ⟨heq, hfunctions⟩ := hp id r hid hc
  exact ⟨by rw [heq, ht], hfunctions⟩

/-- A candidate that is a conversion function is not trivial. -/
theorem trivial_of_conversionCandidates (hp : p.TrivialFunctions) {owner : Ty} {mode : InitMode}
    {accept : FunctionDecl → Check (Option Conversion)} {candidates : List Candidate}
    (h : (conversionCandidates (p.conversionOwners owner) mode accept).Returns candidates) :
    ∀ c ∈ candidates, c.function.trivial = false := by
  intro c hc
  obtain ⟨visible, hvisible, _, _, rfl⟩ := conversionCandidates_returns h c hc
  obtain ⟨o, ho, hmem⟩ := mem_visibleConversions hvisible
  obtain ⟨t, ht⟩ := mem_conversionOwners ho
  exact (hp.completeRecord? ht).2.conversions _ (Record.mem_candidates hmem).1

/-- A user-defined conversion is not trivial if none of its candidates can be. -/
theorem trivial_of_userDefinedConversion {candidates : List Candidate}
    (hcandidates : ∀ candidate ∈ candidates, ∀ conversions,
      (p.viableConversions convert (some source) [source] false candidate).Returns
        (some conversions) → candidate.function.trivial = false)
    (h : (p.userDefinedConversion convert candidates source).Returns c) :
    c.effects.trivial = false := by
  obtain ⟨s, hs, rfl⟩ := userDefinedConversion_returns h
  obtain ⟨candidate, hmem, conversions, hviable, hselect⟩ := resolve_returns hs
  obtain ⟨_, _, rfl⟩ := Candidate.select_eq_ok_iff.mp hselect
  exact Candidate.trivial_callEffects (hcandidates candidate hmem conversions hviable)

theorem trivial_of_conversionFromClass (hp : p.TrivialFunctions) {target : Ty} {mode : InitMode}
    (h : (p.conversionFromClass convert source target mode).Returns c) :
    c.effects.trivial = false := by
  obtain ⟨candidates, hcandidates, h⟩ := Check.Returns.bind h
  exact trivial_of_userDefinedConversion
    (fun candidate hmem _ _ => trivial_of_conversionCandidates hp hcandidates candidate hmem) h

theorem trivial_of_bindThroughFunction (hp : p.TrivialFunctions) {referent : Ty} {cv : Cv}
    {wantLvalue isRvalueRef : Bool} {mode : InitMode}
    (h : (p.bindThroughFunction convert source referent cv wantLvalue isRvalueRef mode).Returns
      c) : c.effects.trivial = false := by
  obtain ⟨candidates, hcandidates, h⟩ := Check.Returns.bind h
  exact trivial_of_userDefinedConversion
    (fun candidate hmem _ _ => trivial_of_conversionCandidates hp hcandidates candidate hmem) h

/-- Without a user-defined conversion an unrelated source does not convert to a reference to a
class. -/
theorem not_convert_reference {depth : Nat} {param t : Ty} {isRvalueRef : Bool} {id : RecordId}
    {mode : InitMode} (hparam : param.referent? = some (t, isRvalueRef))
    (ht : t.unqualified = .record id)
    (hunrelated : p.referenceRelation (.record id) source.type.unqualified = none) :
    ¬((p.checkerBelow depth).convert source param mode false).Returns c := by
  intro h
  have hreference : param.isReference = true := by simp [Ty.isReference, hparam]
  have hfunction : t.isFunction = false := by
    cases t <;> simp_all [Ty.unqualified, Ty.splitCv, Ty.isFunction]
  obtain ⟨deeper, h⟩ := convert_returns h
  rw [convertStep, if_pos hreference] at h
  obtain ⟨deeper, referent, toRvalue, hreferent, h⟩ := bindReference_returns h
  cases hparam.symm.trans hreferent
  rw [bindReferent_of_unrelated (bindAtOnce?_eq_none.mpr ⟨hfunction, ht ▸ hunrelated⟩)] at h
  rcases bindUnrelated_returns h with ⟨huser, _⟩ | h
  · simp at huser
  · obtain ⟨conversion, hconversion, _⟩ := Check.Returns.bind h
    rw [ht] at hconversion
    obtain ⟨deeper, h⟩ := convert_returns hconversion
    obtain ⟨hnotReference, hrecord, hunqualified⟩ := Ty.qualify_record id t.cv
    rw [convertStep, hnotReference, if_neg Bool.false_ne_true, hrecord] at h
    by_cases hvoid : source.type.isVoid = true
    · simp [hvoid] at h
    · rw [if_neg hvoid, if_pos rfl, classConversion, if_neg Bool.false_ne_true] at h
      obtain ⟨_, _, ⟨hrelated, _⟩ | ⟨_, h⟩⟩ := relatedConversion_returns h
      · rw [hunqualified] at hrelated
        exact referenceRelation_eq_none.mp hunrelated hrelated
      · simp at h

/-- The user-defined conversion of an unrelated source to a class is not trivial. -/
theorem trivial_of_unrelatedConversion (hp : p.TrivialFunctions) {depth : Nat} {target : Ty}
    {mode : InitMode} {r : Record} {id : RecordId} (htarget : target.unqualified = .record id)
    (hr : p.completeRecord? target.unqualified = some r)
    (hunrelated : p.referenceRelation (.record id) source.type.unqualified = none)
    (h : (p.unrelatedConversion (p.checkerBelow depth).convert source target mode r).Returns c) :
    c.effects.trivial = false := by
  obtain ⟨functions, hfunctions, h⟩ := Check.Returns.bind h
  obtain ⟨hid, htrivial⟩ := hp.completeRecord? hr
  rw [htarget] at hid
  refine trivial_of_userDefinedConversion ?_ h
  intro candidate hmem conversions hviable
  rcases List.mem_append.mp hmem with hmem | hmem
  · obtain ⟨hmem, hone⟩ := List.mem_filter.mp hmem
    obtain ⟨hf, _, _, hset, _⟩ := Record.mem_candidates hmem
    cases hnot : candidate.function.trivial with
    | false => rfl
    | true =>
      exfalso
      have hspecial := htrivial.constructors _ hf hnot
      unfold Record.specialConstructor? Special.ofConstructor? at hspecial
      split at hspecial
      · rename_i hparams hvariadic
        simp [hparams, hvariadic] at hone
      · rename_i param hparams hvariadic
        split at hspecial
        · rename_i t isRvalue hreferent
          split at hspecial
          · rename_i hcls
            obtain ⟨conversion, hconversion⟩ := viableConversions_converts (by simp [hset])
              hviable (source, param) (by simp [hparams])
            refine not_convert_reference hreferent ?_ hunrelated hconversion
            rw [hcls, Record.type]
            cases hid
            rfl
          · simp at hspecial
        · simp at hspecial
      · simp at hspecial
  · exact trivial_of_conversionCandidates hp hfunctions candidate hmem

/-- A trivial conversion of an unrelated source is a standard conversion. -/
theorem standard_of_trivial_convert (hp : p.TrivialFunctions) {depth : Nat} {target : Ty}
    (htarget : target.isNormal = true) (hreference : target.isReference = false)
    (hunrelated : p.referenceRelation target.unqualified source.type.unqualified = none)
    (h : ((p.checkerBelow depth).convert source target .copy true).Returns c)
    (htrivial : c.effects.trivial = true) :
    source.type.isVoid = false ∧ target.isRecord = false ∧ source.type.isRecord = false ∧
      p.standardConversion source target .copy = .ok c := by
  obtain ⟨deeper, h⟩ := convert_returns h
  rw [convertStep, hreference, if_neg Bool.false_ne_true] at h
  by_cases hvoid : source.type.isVoid = true
  · simp [hvoid] at h
  · rw [if_neg hvoid] at h
    by_cases hrecord : target.isRecord = true
    · exfalso
      rw [if_pos hrecord, classConversion, if_pos rfl] at h
      obtain ⟨id, hid⟩ := Ty.unqualified_of_isRecord htarget hrecord
      rw [hid] at hunrelated
      obtain ⟨r, hr, ⟨hrelated, _⟩ | ⟨_, h⟩⟩ := relatedConversion_returns h
      · rw [hid] at hrelated
        exact referenceRelation_eq_none.mp hunrelated hrelated
      · rw [trivial_of_unrelatedConversion hp hid hr hunrelated h] at htrivial
        simp at htrivial
    · rw [if_neg hrecord] at h
      by_cases hsource : source.type.isRecord = true
      · rw [if_pos hsource, if_pos rfl] at h
        rw [trivial_of_conversionFromClass hp h] at htrivial
        simp at htrivial
      · rw [if_neg hsource, Check.returns_ofFormed] at h
        exact ⟨by simpa using hvoid, by simpa using hrecord, by simpa using hsource, h⟩

/-- A temporary that binds trivially binds in a copy-initialization as well: it comes from a standard
conversion, and no class takes part. -/
theorem bindTemporary_of_trivial (hp : p.TrivialFunctions) {target referent : Ty}
    {isRvalueRef : Bool} {deeper : Nat} {c : Conversion} (htarget : target.isNormal = true)
    (hreferent : target.referent? = some (referent, isRvalueRef))
    (hrelation : p.referenceRelation referent.unqualified source.type.unqualified = none)
    (h : (bindTemporary (p.checkerBelow deeper).convert source referent isRvalueRef true).Returns c)
    (htrivial : c.effects.trivial = true) : source.type.isRecord = false ∧
      ((bindTemporary (p.checkerBelow 63).convert source referent isRvalueRef true).run
        (copyGuard target source)).1 = .ok c := by
  obtain ⟨hnormal, hnotReference⟩ := Ty.isNormal_of_referent? htarget hreferent
  have hqualify := Ty.qualify_unqualified referent hnormal
  obtain ⟨conversion, hconversion, hc⟩ := Check.Returns.bind h
  rw [hqualify] at hconversion
  cases Check.returns_pure.mp hc
  obtain ⟨hvoid, hrecord, hsourceRecord, hstandard⟩ :=
    standard_of_trivial_convert hp hnormal hnotReference hrelation hconversion htrivial
  have hne : target ≠ referent := by
    rintro rfl
    simp [Ty.isReference, hreferent] at hnotReference
  have hrun := fun g => @Check.run_guarded_of_room _ (.of .convert referent source)
    (p.convertStep (p.checkerBelow 62) source referent .copy true) g
  refine ⟨hsourceRecord, ?_⟩
  unfold bindTemporary
  rw [hqualify, Check.run_bind_of_ok (a := conversion)]
  · rfl
  · have hiterations : 2 < Limits.guardIterations := by decide
    have hdepth : 2 < Limits.initializationDepth := by decide
    refine (congrArg Prod.fst (hrun _ hiterations hdepth ?_)).trans ?_
    · simp [copyGuard, Guard.entered, CheckKey.of, Guard.fresh, hne.symm]
    · simp [convertStep, hnotReference, hvoid, hrecord, hsourceRecord, hstandard]

/-- A reference that direct initialization binds trivially is copy-initialized alike. -/
theorem copyInit_of_trivial_directInit (hp : p.TrivialFunctions) {target : Ty}
    (htarget : target.isNormal = true) (hreference : target.isReference = true)
    (hsource : source.type.isNormal = true) {e : Effects}
    (h : (p.directInit target [source]).Returns e) (htrivial : e.trivial = true) :
    (p.copyInit target source).result = .ok e := by
  unfold directInit at h
  rw [checker_eq] at h
  obtain ⟨deeper, h⟩ := construct_returns h
  unfold constructStep at h
  rw [if_pos hreference] at h
  obtain ⟨c, hc, h⟩ := Check.Returns.bind h
  cases Check.returns_pure.mp h
  obtain ⟨deeper, referent, isRvalueRef, hreferent, hbound⟩ := bindReference_returns hc
  suffices hok : ((p.bindReferent (p.checkerBelow 63).convert source referent isRvalueRef .copy
      true).run (copyGuard target source)).1 = .ok c by
    rw [copyInit_reference hreferent, hok]
    rfl
  cases hatOnce : p.bindAtOnce? source referent isRvalueRef with
  | some bound =>
    rw [bindReferent_of_atOnce hatOnce, Check.returns_ofFormed] at hbound
    rw [bindReferent_of_atOnce hatOnce]
    exact hbound
  | none =>
    have hrelation := (bindAtOnce?_eq_none.mp hatOnce).2
    rw [bindReferent_of_unrelated hatOnce] at hbound ⊢
    rcases bindUnrelated_returns hbound with ⟨_, _, _, hfunction⟩ | htemporary
    · rw [trivial_of_bindThroughFunction hp hfunction] at htrivial
      simp at htrivial
    · obtain ⟨hrecord, hrun⟩ :=
        bindTemporary_of_trivial hp htarget hreferent hrelation htemporary htrivial
      have hplain : source.type.unqualified.isRecord = false := by
        rw [Ty.isRecord_unqualified hsource, hrecord]
      rw [bindUnrelated_of_not_isRecord hplain] at hbound ⊢
      split at hbound
      · simp at hbound
      · rename_i hbinds
        rw [if_neg hbinds]
        exact hrun

end Program
end TypeTraits
