import TypeTraits.Proofs.Expr.Selection
import TypeTraits.Proofs.Expr.Steady
import TypeTraits.Proofs.Layout.Qualification
import TypeTraits.Proofs.Program.Development

/-!
# Converting to parameters

A function declares its parameters in one form, and the function type behind a pointer to it has
them adjusted. What is lost with the qualification of a type that is no class is never looked at:
such a conversion needs no further one, so that it does not even matter under which key it is
guarded. To an array or a function nothing converts.
-/

namespace TypeTraits

namespace Check

variable {α β : Type} {c : Check α}

/-- The check takes no guarded step. -/
def IsDecided (c : Check α) : Prop := ∃ r, c = ofFormed r

namespace IsDecided

theorem pure (a : α) : (pure a : Check α).IsDecided := ⟨.ok a, rfl⟩

theorem throw (e : Inapplicable) : (throw e : Check α).IsDecided := ⟨.error e, rfl⟩

theorem bind {f : α → Check β} (hc : c.IsDecided) (hf : ∀ a, c.Returns a → (f a).IsDecided) :
    (c >>= f).IsDecided := by
  obtain ⟨r, rfl⟩ := hc
  cases r with
  | error e => exact .throw e
  | ok a => exact hf a (returns_ofFormed.mpr rfl)

theorem filterMapM {f : α → Check (Option β)} {l : List α} (h : ∀ a ∈ l, (f a).IsDecided) :
    (l.filterMapM f).IsDecided := by
  induction l with
  | nil => exact .pure _
  | cons a l ih =>
    obtain ⟨ha, hl⟩ := List.forall_mem_cons.mp h
    rw [List.filterMapM_cons]
    refine ha.bind fun b _ => ?_
    cases b with
    | none => exact ih hl
    | some b => exact (ih hl).bind fun _ _ => .pure _

/-- Where nothing is visited yet, it does not matter under which key a decided check is guarded. -/
theorem run_guarded (hc : c.IsDecided) {g : Guard CheckKey} (hvisiting : g.visiting = [])
    (key key' : CheckKey) : (guarded key c).run g = (guarded key' c).run g := by
  obtain ⟨r, rfl⟩ := hc
  simp only [Check.run_guarded, Guard.enter, hvisiting, List.not_mem_nil, if_false]
  split_ifs
  · rfl
  · rfl
  · simp [Guard.leave]

end IsDecided
end Check

namespace Ty

variable {t : Ty}

/-- Adjusting the type as that of a parameter takes nothing from it but the qualification, and not
that of a class. -/
structure PassesAlike (t : Ty) : Prop where
  normal : t.isNormal = true
  array : t.isArray = false
  function : t.isFunction = false
  unqualified : t.isRecord = true → t.cv = ∅

theorem PassesAlike.asParameter (h : t.PassesAlike) : t.asParameter = t ∨
    ∃ u cv, t = .qualified u cv ∧ u.takesQualifier = true ∧ u.isRecord = false := by
  cases t with
  | qualified u cv =>
    have hnormal := h.normal
    simp only [isNormal, Bool.and_eq_true, Bool.not_eq_true'] at hnormal
    refine Or.inr ⟨u, cv, rfl, hnormal.1.2, ?_⟩
    cases u with
    | record id =>
      have hcv : cv = ∅ := h.unqualified rfl
      rw [hcv] at hnormal
      exact absurd hnormal.1.1 (by decide)
    | qualified => simp [takesQualifier] at hnormal
    | _ => rfl
  | array => cases h.array
  | function | functionNamed => cases h.function
  | _ => exact Or.inl rfl

theorem isArray_asValue (h : t.isNormal = true) :
    t.asValue.isArray = false ∧ t.asValue.isFunction = false := by
  cases t with
  | qualified u cv =>
    cases u <;> first | exact ⟨rfl, rfl⟩ | simp [isNormal, takesQualifier] at h
  | _ => exact ⟨rfl, rfl⟩

end Ty

theorem Expr.isNormal_callResult {t : Ty} (h : t.isNormal = true) :
    (callResult t).type.isNormal = true := by
  have hprvalue : (prvalueOf t).type.isNormal = true := by
    unfold prvalueOf prvalue
    dsimp only
    split
    · exact h
    · exact Ty.isNormal_unqualified h
  cases t with
  | lvalueRef t => exact (Ty.isNormal_of_referent? h rfl).1
  | rvalueRef t =>
    unfold callResult
    dsimp only
    split <;> exact (Ty.isNormal_of_referent? h rfl).1
  | _ => exact hprvalue

namespace Program

variable {p : Program} {args : List Expr} {t : Ty}

/-! ### Conversions that need no further one -/

theorem isDecided_viableConversions {c : Candidate} (hset : c.id.set = .conversion)
    (convert : ConvertArgument) (object : Option Expr) (args : List Expr) (allowUser : Bool) :
    (p.viableConversions convert object args allowUser c).IsDecided := by
  unfold viableConversions
  rw [if_pos hset]
  exact .pure _

/-- Among conversion functions nothing is left to convert. -/
theorem isDecided_resolve {candidates : List Candidate}
    (hset : ∀ c ∈ candidates, c.id.set = .conversion) (convert : ConvertArgument)
    (object : Option Expr) (args : List Expr) (allowUser : Bool) :
    (p.resolve convert candidates object args allowUser).IsDecided := by
  unfold resolve
  refine (Check.IsDecided.filterMapM fun c hc => ?_).bind fun viable _ => ?_
  · exact (isDecided_viableConversions (hset c hc) ..).bind fun _ _ => .pure _
  · by_cases hempty : viable.isEmpty = true
    · rw [if_pos hempty]
      exact ⟨.error .noViableFunction, rfl⟩
    · rw [if_neg hempty]
      cases Candidate.best? viable with
      | none => exact .throw _
      | some best => exact ⟨_, rfl⟩

theorem isDecided_conversionFromClass (convert : ConvertArgument) (source : Expr) (target : Ty)
    (mode : InitMode) : (p.conversionFromClass convert source target mode).IsDecided := by
  unfold conversionFromClass
  refine Check.IsDecided.bind (.filterMapM fun c _ => ?_) fun candidates hcandidates => ?_
  · exact Check.IsDecided.bind (.pure _) fun _ _ => .pure _
  · refine Check.IsDecided.bind (isDecided_resolve (fun c hc => ?_) ..) fun _ _ => .pure _
    obtain ⟨visible, hvisible, result, -, rfl⟩ := conversionCandidates_returns hcandidates c hc
    obtain ⟨owner, -, hmem⟩ := mem_visibleConversions hvisible
    exact (Record.mem_candidates hmem).2.2.2.1

/-- A conversion to a type that is neither a class nor a reference needs no further one. -/
theorem isDecided_convertStep (hreference : t.isReference = false) (hclass : t.isRecord = false)
    (deeper : Checker) (source : Expr) (mode : InitMode) (allowUser : Bool) :
    (p.convertStep deeper source t mode allowUser).IsDecided := by
  unfold convertStep
  simp only [hreference, hclass, Bool.false_eq_true, if_false]
  split
  · exact .throw _
  · split
    · split
      · exact isDecided_conversionFromClass ..
      · exact .throw _
    · exact ⟨_, rfl⟩

theorem standardConversion_congr {t u : Ty} (h : t.unqualified = u.unqualified) (e : Expr)
    (mode : InitMode) : p.standardConversion e t mode = p.standardConversion e u mode := by
  unfold standardConversion
  dsimp only
  rw [h]

/-- Such a conversion is the same to the unqualified type. -/
theorem convertStep_qualified {cv : Cv} (ht : t.takesQualifier = true) (hclass : t.isRecord = false)
    (deeper : Checker) (source : Expr) (mode : InitMode) (allowUser : Bool) :
    p.convertStep deeper source (.qualified t cv) mode allowUser =
      p.convertStep deeper source t mode allowUser := by
  have hreference : t.isReference = false := by cases t <;> first | rfl | cases ht
  have hreference' : (Ty.qualified t cv).isReference = false := rfl
  have hclass' : (Ty.qualified t cv).isRecord = t.isRecord := by
    cases t <;> first | rfl | cases ht
  have hunqualified : (Ty.qualified t cv).unqualified = t.unqualified := by
    cases t <;> first | rfl | cases ht
  have hfromClass : p.conversionFromClass deeper.convert source (.qualified t cv) mode =
      p.conversionFromClass deeper.convert source t mode := by
    unfold conversionFromClass
    simp only [standardConversion_congr hunqualified]
  unfold convertStep
  rw [hreference, hreference', hclass', hclass, hfromClass, standardConversion_congr hunqualified]
  simp only [Bool.false_eq_true, if_false]

/-- At the start of a check a parameter is converted to as the adjusted one is. -/
theorem run_convert_asParameter (ht : t.PassesAlike) {g : Guard CheckKey}
    (hvisiting : g.visiting = []) (source : Expr) :
    (p.checker.convert source t.asParameter .copy true).run g =
      (p.checker.convert source t .copy true).run g := by
  obtain hsame | ⟨u, cv, rfl, hu, hclass⟩ := ht.asParameter
  · rw [hsame]
  · have hreference : u.isReference = false := by cases u <;> first | rfl | cases hu
    change (Check.guarded _ (p.convertStep _ source u .copy true)).run g =
      (Check.guarded _ (p.convertStep _ source (.qualified u cv) .copy true)).run g
    rw [convertStep_qualified hu hclass]
    exact (isDecided_convertStep hreference hclass ..).run_guarded hvisiting _ _

theorem run_argumentConversions_asParameter {params : List Ty}
    (hparams : ∀ t ∈ params, t.PassesAlike) {g : Guard CheckKey} (hvisiting : g.visiting = []) :
    (argumentConversions p.checker.convert true args (params.map Ty.asParameter)).run g =
      (argumentConversions p.checker.convert true args params).run g := by
  induction args generalizing params g with
  | nil => simp only [argumentConversions]
  | cons arg args ih =>
    cases params with
    | nil => rfl
    | cons t params =>
      obtain ⟨ht, hparams⟩ := List.forall_mem_cons.mp hparams
      have hkeeps : g.Keeps ((p.checker.convert arg t .copy true).run g).2 := by
        rw [checker_eq]
        exact (steady_convert p _ arg t .copy true).1.keeps g
      have hrest := ih hparams (hkeeps.visiting.trans hvisiting)
      simp only [List.map_cons, argumentConversions, Check.run_bind, Check.run_attempt,
        run_convert_asParameter ht hvisiting]
      cases ((p.checker.convert arg t .copy true).run g).1.toOption with
      | none => rfl
      | some c => rw [Check.run_bind, Check.run_bind, hrest]

/-! ### Types that nothing converts to -/

theorem standardConversion_ne_ok {e : Expr} {mode : InitMode} {c : Conversion}
    (he : e.type.isNormal = true) (ht : t.isArray = true ∨ t.isFunction = true) :
    p.standardConversion e t mode ≠ .ok c := by
  have htarget : t.unqualified.isArray = true ∨ t.unqualified.isFunction = true := by
    cases t with
    | array u b =>
      refine Or.inl ?_
      simp only [Ty.unqualified, Ty.splitCv]
      split <;> rfl
    | function | functionNamed => exact Or.inr rfl
    | _ => obtain ht | ht := ht <;> cases ht
  have hsource := Ty.isArray_asValue he
  unfold standardConversion
  dsimp only
  generalize t.unqualified = target at htarget
  rw [if_neg (by rintro rfl; simp [hsource] at htarget)]
  cases target with
  | array | function | functionNamed =>
    cases e.type.asValue.core <;> simp [Ty.core]
  | _ => obtain htarget | htarget := htarget <;> cases htarget

/-- The conversion functions of the complete records give types in normal form. -/
def ConvertsToNormal (p : Program) : Prop :=
  ∀ t r, p.completeRecord? t = some r → ∀ f ∈ r.conversions, f.result.isNormal = true

/-- What a class is converted to, a conversion function gives something that converts to it. -/
theorem conversionFromClass_returns {convert : ConvertArgument} {e : Expr} {mode : InitMode}
    {c : Conversion} (h : (p.conversionFromClass convert e t mode).Returns c) :
    ∃ u r, p.completeRecord? u = some r ∧ ∃ f ∈ r.conversions, ∃ c',
      p.standardConversion (.callResult f.result) t mode = .ok c' := by
  obtain ⟨candidates, hcandidates, h⟩ := Check.Returns.bind h
  obtain ⟨s, hs, -⟩ := userDefinedConversion_returns h
  obtain ⟨c, hc, -⟩ := resolve_returns hs
  obtain ⟨visible, hvisible, result, hresult, -⟩ := conversionCandidates_returns hcandidates c hc
  obtain ⟨owner, howner, hmem⟩ := mem_visibleConversions hvisible
  obtain ⟨u, hu⟩ := mem_conversionOwners howner
  refine ⟨u, _, hu, visible.function, (Record.mem_candidates hmem).1, ?_⟩
  rw [Check.returns_pure] at hresult
  cases hs : p.standardConversion (.callResult visible.function.result) t mode with
  | error _ => simp [hs, Except.toOption] at hresult
  | ok c' => exact ⟨c', rfl⟩

theorem not_convert_returns (hp : p.ConvertsToNormal) {depth : Nat} {e : Expr} {mode : InitMode}
    {allowUser : Bool} {c : Conversion} (he : e.type.isNormal = true)
    (ht : t.isArray = true ∨ t.isFunction = true) :
    ¬((p.checkerBelow depth).convert e t mode allowUser).Returns c := by
  intro h
  obtain ⟨deeper, h⟩ := convert_returns h
  have hreference : t.isReference = false := by
    cases t <;> first | rfl | (obtain ht | ht := ht <;> cases ht)
  have hclass : t.isRecord = false := by
    cases t <;> first | rfl | (obtain ht | ht := ht <;> cases ht)
  unfold convertStep at h
  simp only [hreference, hclass, Bool.false_eq_true, if_false] at h
  split at h
  · simp at h
  · split at h
    · split at h
      · obtain ⟨u, r, hr, f, hf, c', hc'⟩ := conversionFromClass_returns h
        exact standardConversion_ne_ok (Expr.isNormal_callResult (hp u r hr f hf)) ht hc'
      · simp at h
    · exact standardConversion_ne_ok he ht (Check.returns_ofFormed.mp h)

end Program

namespace Development

variable {d : Development}

/-- The types of the operators of a complete class are in normal form. -/
theorem Reachable.isNormal_operators (h : d.Reachable) {t : Ty} {r : Record}
    (hr : d.program.completeRecord? t = some r) :
    ∀ f ∈ r.conversions ++ r.callOperators, ∀ u ∈ f.params ++ [f.result], u.isNormal = true := by
  intro f hf u hu
  obtain ⟨id, -, hid, hc⟩ := Program.completeRecord?_eq_some.mp hr
  obtain ⟨before, draft, -, -, hcompletes⟩ := h.completion hid hc
  rw [hcompletes.kept.conversions, hcompletes.kept.callOperators] at hf
  have hmem : f ∈ draft.record.allFunctions := by
    simp only [List.mem_append] at hf
    obtain hf | hf := hf <;> simp [Record.allFunctions, hf]
  refine hcompletes.normal u ?_
  simp only [Record.types, List.mem_append, List.mem_flatMap]
  exact Or.inl (Or.inr ⟨f, hmem, List.mem_append.mp hu⟩)

theorem Reachable.convertsToNormal (h : d.Reachable) : d.program.ConvertsToNormal :=
  fun _ _ hr f hf =>
    h.isNormal_operators hr f (List.mem_append_left _ hf) f.result (by simp)

end Development
end TypeTraits
