import TypeTraits.Proofs.Expr.Selection
import TypeTraits.Proofs.Expr.Steady
import TypeTraits.Proofs.Program.RootClass

/-!
# Checks before and after a class without bases is completed

While a class is incomplete nothing converts to it, and what its implicit constructors offer later
is to copy and move its own objects. So an expression that is no such object, and that no conversion
function turns into one, converts after the completion to whatever it converted to before.
-/

namespace TypeTraits

namespace Check

variable {α β : Type}

/-- Steady checks that come to the same within the limits, but for the reason of a failure. -/
structure Agree (c₁ c₂ : Check α) : Prop where
  left : c₁.Steady
  right : c₂.Steady
  agree : ∀ {g m n r s}, c₁.Takes g m r → c₂.Takes g n s → r.toOption = s.toOption

namespace Agree

variable {c₁ c₂ : Check α}

/-- Checks that never succeed agree. -/
theorem of_fails (left : c₁.Steady) (right : c₂.Steady) (h₁ : ∀ a, ¬c₁.Returns a)
    (h₂ : ∀ a, ¬c₂.Returns a) : Agree c₁ c₂ where
  left := left
  right := right
  agree {g m n r s} hr hs := by
    cases r with
    | ok a => exact absurd hr.returns (h₁ a)
    | error _ =>
      cases s with
      | ok a => exact absurd hs.returns (h₂ a)
      | error _ => rfl

theorem refl {c : Check α} (hc : c.Steady) : Agree c c where
  left := hc
  right := hc
  agree hr hs := by rw [(hr.unique hs).2]

theorem ofFormed (r : Formed α) : Agree (.ofFormed r) (.ofFormed r) := refl (.ofFormed r)

theorem throw (error : Inapplicable) : Agree (throw error : Check α) (throw error) :=
  refl (.throw error)

theorem bind {f₁ f₂ : α → Check β} (hc : Agree c₁ c₂) (hf : ∀ a, Agree (f₁ a) (f₂ a)) :
    Agree (c₁ >>= f₁) (c₂ >>= f₂) where
  left := hc.left.bind fun a => (hf a).left
  right := hc.right.bind fun a => (hf a).right
  agree hr hs := by
    rcases hr.of_bind hc.left fun a => (hf a).left with ⟨_, _, hr₁, rfl⟩ | ⟨_, a, _, ha, hr₂⟩ <;>
      rcases hs.of_bind hc.right fun a => (hf a).right with ⟨_, _, hs₁, rfl⟩ | ⟨_, b, _, hb, hs₂⟩
    · rfl
    · cases hc.agree hr₁ hb
    · cases hc.agree ha hs₁
    · cases hc.agree ha hb
      exact (hf a).agree hr₂ hs₂

theorem attempt (hc : Agree c₁ c₂) : Agree (Check.attempt c₁) (Check.attempt c₂) where
  left := hc.left.attempt
  right := hc.right.attempt
  agree hr hs := by
    obtain ⟨_, _, hr₁, rfl⟩ := hr.of_attempt hc.left
    obtain ⟨_, _, hs₁, rfl⟩ := hs.of_attempt hc.right
    rw [hc.agree hr₁ hs₁]

theorem guarded (key : CheckKey) (hc : Agree c₁ c₂) :
    Agree (Check.guarded key c₁) (Check.guarded key c₂) where
  left := hc.left.guarded key
  right := hc.right.guarded key
  agree hr hs := by
    rcases hr.of_guarded hc.left with ⟨⟨_, hr₁⟩, hroom⟩ | ⟨rfl, hroom⟩ <;>
      rcases hs.of_guarded hc.right with ⟨⟨_, hs₁⟩, hroom'⟩ | ⟨rfl, hroom'⟩
    · exact hc.agree hr₁ hs₁
    · exact absurd hroom hroom'
    · exact absurd hroom' hroom
    · rfl

/-- What one of them settles, the other comes to within the limits. -/
theorem result_of_settles {a : α} (h : Agree c₁ c₂) (hc : c₁.Settles a)
    (hlimits : c₂.InLimits (.fresh .initialization)) : c₂.result = .ok a := by
  obtain ⟨m, hm⟩ := hc
  obtain ⟨n, r, hallows, hn⟩ := h.right.takes _ hlimits
  have hsame := h.agree hm hn
  cases r with
  | error _ => cases hsame
  | ok b =>
    cases hsame
    rw [Check.result, hn.run _ (.refl _) hallows]

theorem isCompositional : IsCompositional fun _ c₁ c₂ => Agree c₁ c₂ where
  ofFormed := ofFormed
  bind := bind
  attempt := attempt

end Agree
end Check

/-- Every constructor takes nothing or a reference to an object of the class. -/
def Record.CopiesOnly (r : Record) : Prop :=
  ∀ f ∈ r.constructors, f.variadic = false ∧ ∀ param ∈ f.params,
    ∃ t isRvalueRef, param.referent? = some (t, isRvalueRef) ∧ t.recordId? = some r.id

namespace Program

/-- The class, or one that it derives from, has a conversion function that returns an object of the
record. -/
def ConvertsTo (p : Program) (t : Ty) (id : RecordId) : Prop :=
  ∃ owner ∈ p.conversionOwners t, ∃ f ∈ owner.2.conversions,
    (Expr.callResult f.result).type.IsOf id

instance (p : Program) (t : Ty) (id : RecordId) : Decidable (p.ConvertsTo t id) :=
  inferInstanceAs (Decidable (∃ owner ∈ p.conversionOwners t, ∃ f ∈ owner.2.conversions,
    (Expr.callResult f.result).type.IsOf id))

/-- The expression is no object of the record, and where functions of the user may convert it, none
of its conversion functions returns such an object. -/
def Avoids (p : Program) (id : RecordId) (e : Expr) (allowUser : Bool) : Prop :=
  ¬e.type.IsOf id ∧ (allowUser = true → ¬p.ConvertsTo e.type id)

variable {p : Program} {id : RecordId} {r : Record} {e : Expr} {t : Ty} {mode : InitMode}
  {allowUser : Bool} {depth : Nat} {c : Conversion}

theorem Avoids.direct (h : p.Avoids id e allowUser) : p.Avoids id e false :=
  ⟨h.1, fun h => by cases h⟩

theorem conversionOwners_qualify (ht : t.isNormal = true) (cv : Cv) :
    p.conversionOwners (t.qualify cv) = p.conversionOwners t := by
  simp only [conversionOwners, completeRecord?, recordOf?, Ty.recordId?_qualify,
    Ty.unqualified_qualify ht]

/-- An lvalue of another type avoids the record, however it is qualified. -/
theorem avoids_lvalue (ht : t.isNormal = true) (hother : t.recordId? ≠ some id)
    (hconverts : ¬p.ConvertsTo t id) (cv : Cv) : p.Avoids id (.lvalue (t.qualify cv)) true where
  left := by
    change (t.qualify cv).unqualified.recordId? ≠ some id
    rwa [Ty.unqualified_qualify ht, Ty.recordId?_unqualified ht]
  right _ := by
    change ¬p.ConvertsTo (t.qualify cv) id
    rwa [ConvertsTo, conversionOwners_qualify ht]

theorem closedSources_avoids (p : Program) (id : RecordId) : p.ClosedSources (p.Avoids id) where
  direct := .direct
  result h owner howner f hf :=
    ⟨fun hof => h.2 rfl ⟨owner, howner, f, hf, hof⟩, fun h => by cases h⟩

theorem classConversion_of_convert (ht : t.isRecord = true)
    (h : ((p.checkerBelow depth).convert e t mode allowUser).Returns c) :
    ∃ deeper, (p.classConversion (p.checkerBelow deeper).convert e t mode allowUser).Returns c := by
  have hreference : t.isReference = false := by
    cases t <;> first | rfl | cases ht
  obtain ⟨deeper, h⟩ := convert_returns h
  unfold convertStep at h
  rw [hreference, ht, if_neg Bool.false_ne_true] at h
  split at h
  · simp at h
  · exact ⟨deeper, h⟩

namespace AwaitsRoot

variable (h : p.AwaitsRoot r)

include h

/-- Nothing converts to an incomplete class. -/
theorem not_convert_before (ht : t.recordId? = some r.id) :
    ¬((p.checkerBelow depth).convert e t mode allowUser).Returns c := by
  intro hconvert
  obtain ⟨deeper, hclass⟩ := classConversion_of_convert (by rw [Ty.isRecord, ht]; rfl) hconvert
  have hnone : p.completeRecord? t.unqualified = none := by
    rw [Ty.unqualified_of_recordId? ht]
    exact (h.completeRecord?_of_eq rfl).1
  unfold classConversion directClassConversion at hclass
  split at hclass <;>
  · obtain ⟨s, hs, _⟩ := relatedConversion_returns hclass
    cases hnone.symm.trans hs

/-- An object that is not of the class is not of one that derives from it either. -/
theorem not_related (ht : t.recordId? = some r.id) (he : ¬e.type.IsOf r.id) :
    ¬(e.type.unqualified = t.unqualified ∨
      (p.defineRecord r).isBaseOf t.unqualified e.type.unqualified = true) := by
  rw [Ty.unqualified_of_recordId? ht, h.sameHierarchy.isBaseOf, h.isBaseOf_eq_false he, not_or]
  exact ⟨fun hsame => he (by rw [Ty.IsOf, hsame]; rfl), Bool.false_ne_true⟩

/-- Without functions of the user, only objects of the class convert to it. -/
theorem not_directClassConversion_after {convert : ConvertArgument} (ht : t.recordId? = some r.id)
    (he : ¬e.type.IsOf r.id) :
    ¬((p.defineRecord r).directClassConversion convert e t mode).Returns c := by
  intro hclass
  obtain ⟨s, _, ⟨hrelated, _⟩ | ⟨_, hfailed⟩⟩ := relatedConversion_returns hclass
  · exact h.not_related ht he hrelated
  · simp at hfailed

theorem not_convert_direct_after (ht : t.recordId? = some r.id) (he : ¬e.type.IsOf r.id) :
    ¬(((p.defineRecord r).checkerBelow depth).convert e t mode false).Returns c := by
  intro hconvert
  obtain ⟨deeper, hclass⟩ := classConversion_of_convert (by rw [Ty.isRecord, ht]; rfl) hconvert
  exact h.not_directClassConversion_after ht he hclass

/-- A reference to the class binds to no other object without functions of the user. -/
theorem not_convert_reference_after {param : Ty} {isRvalueRef : Bool}
    (hparam : param.referent? = some (t, isRvalueRef)) (ht : t.recordId? = some r.id)
    (he : ¬e.type.IsOf r.id) :
    ¬(((p.defineRecord r).checkerBelow depth).convert e param mode false).Returns c := by
  intro hconvert
  obtain ⟨deeper, hstep⟩ := convert_returns hconvert
  rw [convertStep, if_pos (by simp [Ty.isReference, hparam])] at hstep
  obtain ⟨deeper, u, isRvalueRef, hu, hbind⟩ := bindReference_returns hstep
  cases hparam.symm.trans hu
  have hnone : (p.defineRecord r).bindAtOnce? e t isRvalueRef = none := by
    have hfunction : t.isFunction = false := by
      cases t <;> first | rfl | cases ht
    rw [bindAtOnce?_eq_none, referenceRelation, if_neg, if_neg]
    · exact ⟨hfunction, rfl⟩
    · rw [Bool.and_eq_true]
      exact fun hbase => h.not_related ht he (Or.inr hbase.2)
    · exact fun hsame => h.not_related ht he (Or.inl hsame.symm)
  rw [bindReferent_of_unrelated hnone] at hbind
  rcases bindUnrelated_returns hbind with ⟨hallowed, _⟩ | htemporary
  · cases hallowed
  · obtain ⟨conversion, hconversion, _⟩ := htemporary.bind
    refine h.not_convert_direct_after ?_ he hconversion
    rw [Ty.unqualified_of_recordId? ht]
    exact Ty.recordId?_qualify ..

/-- An object that no conversion function turns into one of the class does not convert to it: the
constructors of the class only copy and move its own objects. -/
theorem not_convert_after (hr : r.CopiesOnly) (ht : t.recordId? = some r.id)
    (he : p.Avoids r.id e allowUser) :
    ¬(((p.defineRecord r).checkerBelow depth).convert e t mode allowUser).Returns c := by
  cases allowUser with
  | false => exact h.not_convert_direct_after ht he.1
  | true =>
    intro hconvert
    obtain ⟨deeper, hclass⟩ := classConversion_of_convert (by rw [Ty.isRecord, ht]; rfl) hconvert
    obtain ⟨s, hs, ⟨hrelated, _⟩ | ⟨_, hunrelated⟩⟩ := relatedConversion_returns hclass
    · exact h.not_related ht he.1 hrelated
    · rw [Ty.unqualified_of_recordId? ht] at hs
      cases hs.symm.trans (h.completeRecord?_of_eq (t := .record r.id) rfl).2
      obtain ⟨functions, hfunctions, hselected⟩ := hunrelated.bind
      obtain ⟨selection, hresolve, _⟩ := userDefinedConversion_returns hselected
      obtain ⟨candidate, hmem, conversions, hviable, _⟩ := resolve_returns hresolve
      rcases List.mem_append.mp hmem with hmem | hmem
      · obtain ⟨hconstructor, hone⟩ := List.mem_filter.mp hmem
        obtain ⟨hf, _, _, hset, _⟩ := Record.mem_candidates hconstructor
        obtain ⟨hvariadic, hparams⟩ := hr _ hf
        rw [hvariadic, Bool.and_false, Bool.or_false, beq_iff_eq] at hone
        obtain ⟨param, hparam⟩ := List.length_eq_one_iff.mp hone
        obtain ⟨u, isRvalueRef, hreferent, hu⟩ := hparams param (by simp [hparam])
        obtain ⟨conversion, hconversion⟩ := viableConversions_converts (by simp [hset]) hviable
          (e, param) (by simp [hparam])
        exact h.not_convert_reference_after hreferent hu he.1 hconversion
      · obtain ⟨visible, hvisible, result, haccept, _⟩ :=
          conversionCandidates_returns hfunctions candidate hmem
        obtain ⟨owner, howner, hfunction⟩ := mem_visibleConversions hvisible
        rw [h.conversionOwners fun hid => he.1 (Ty.isOf_of_recordId? hid)] at howner
        have hnot := h.not_related (e := Expr.callResult visible.function.result) ht fun hof =>
          he.2 rfl ⟨owner, howner, _, (Record.mem_candidates hfunction).1, hof⟩
        rw [not_or, Bool.not_eq_true] at hnot
        dsimp only at haccept
        rw [if_pos ⟨hnot.1, by rw [hnot.2]; rfl⟩] at haccept
        simp at haccept

theorem convertsTo_iff (ht : t.recordId? ≠ some r.id) :
    (p.defineRecord r).ConvertsTo t r.id ↔ p.ConvertsTo t r.id := by
  rw [ConvertsTo, ConvertsTo, h.conversionOwners ht]

/-! ### Conversions to other types -/

variable {convert : ConvertArgument}

theorem relatedConversion_eq (ht : t.unqualified = .record id) (hid : id ≠ r.id)
    (unrelated : Record → Check Conversion) :
    (p.defineRecord r).relatedConversion convert unrelated e t mode =
      p.relatedConversion convert unrelated e t mode := by
  have hother : t.unqualified.recordId? ≠ some r.id := by
    rw [ht]
    exact fun hsame => hid (Option.some.inj hsame)
  simp only [relatedConversion, h.completeRecord?_of_ne hother, h.sameHierarchy.isBaseOf,
    h.sameHierarchy.baseConversion, h.sameBaseConversions.resolve]

theorem classConversion_eq (ht : t.unqualified = .record id) (hid : id ≠ r.id)
    (he : e.type.recordId? ≠ some r.id) :
    (p.defineRecord r).classConversion convert e t mode allowUser =
      p.classConversion convert e t mode allowUser := by
  have hdirect : ∀ {e mode} {t : Ty}, t.unqualified = .record id →
      (p.defineRecord r).directClassConversion convert e t mode =
        p.directClassConversion convert e t mode :=
    fun ht => h.relatedConversion_eq ht hid _
  have hunrelated : (p.defineRecord r).unrelatedConversion convert e t mode =
      p.unrelatedConversion convert e t mode := by
    have htwice : t.unqualified.unqualified = .record id := by
      rw [ht]
      rfl
    funext s
    simp only [unrelatedConversion, h.conversionOwners he, h.sameHierarchy.isBaseOf, hdirect htwice,
      h.sameBaseConversions.userDefinedConversion]
  simp only [classConversion, hunrelated, hdirect ht, h.relatedConversion_eq ht hid]

theorem convertStep_eq (ht : t.recordId? ≠ some r.id) (he : e.type.recordId? ≠ some r.id)
    (deeper : Checker) : (p.defineRecord r).convertStep deeper e t mode allowUser =
      p.convertStep deeper e t mode allowUser := by
  have hclass : t.isRecord = true → (p.defineRecord r).classConversion deeper.convert e t mode
      allowUser = p.classConversion deeper.convert e t mode allowUser := by
    intro hrecord
    obtain ⟨id, hid⟩ := Option.isSome_iff_exists.mp hrecord
    refine h.classConversion_eq (Ty.unqualified_of_recordId? hid) ?_ he
    rintro rfl
    exact ht hid
  have hfunction : (p.defineRecord r).conversionFromClass deeper.convert e t mode =
      p.conversionFromClass deeper.convert e t mode := by
    simp only [conversionFromClass, h.conversionOwners he, h.sameBaseConversions.standardConversion,
      h.sameBaseConversions.userDefinedConversion]
  unfold convertStep
  rw [hfunction, h.sameBaseConversions.standardConversion]
  by_cases hrecord : t.isRecord = true
  · rw [hclass hrecord]
  · rw [if_neg hrecord, if_neg hrecord]

theorem constructStep_eq (ht : t.recordId? ≠ some r.id) (deeper : Checker) (args : List Expr) :
    (p.defineRecord r).constructStep deeper t args = p.constructStep deeper t args := by
  have hclass : t.isRecord = true →
      (p.defineRecord r).constructClass deeper t args = p.constructClass deeper t args := by
    intro hrecord
    obtain ⟨id, hid⟩ := Option.isSome_iff_exists.mp hrecord
    have hother : t.unqualified.recordId? ≠ some r.id := by
      rw [Ty.unqualified_of_recordId? hid]
      exact fun hsame => ht (hid.trans hsame)
    unfold constructClass
    simp only [h.completeRecord?_of_ne hother, h.sameBaseConversions.resolve]
  unfold constructStep
  by_cases hrecord : t.isRecord = true
  · rw [hclass hrecord]
  · simp only [if_neg hrecord]

theorem bindReferent_eq (he : e.type.recordId? ≠ some r.id) (isRvalueRef : Bool) :
    (p.defineRecord r).bindReferent convert e t isRvalueRef mode allowUser =
      p.bindReferent convert e t isRvalueRef mode allowUser := by
  simp only [bindReferent, bindFunction, bindObject, bindThroughFunction, h.conversionOwners he,
    h.sameBaseConversions.standardConversion, h.sameBaseConversions.referenceRelation,
    h.sameBaseConversions.userDefinedConversion]

/-! ### The checkers -/

/-- An expression that avoids the class converts to the same as before its completion. -/
theorem agree_convert (hr : r.CopiesOnly) (depth : Nat) {e : Expr} {allowUser : Bool}
    (he : p.Avoids r.id e allowUser) (t : Ty) (mode : InitMode) :
    ((p.checkerBelow depth).convert e t mode allowUser).Agree
        (((p.defineRecord r).checkerBelow depth).convert e t mode allowUser) ∧
      ((p.checkerBelow depth).bindReference e t mode allowUser).Agree
        (((p.defineRecord r).checkerBelow depth).bindReference e t mode allowUser) := by
  induction depth generalizing e t mode allowUser with
  | zero => exact ⟨.throw _, .throw _⟩
  | succ depth ih =>
    have hother : e.type.recordId? ≠ some r.id := fun hid => he.1 (Ty.isOf_of_recordId? hid)
    constructor
    · by_cases ht : t.recordId? = some r.id
      · exact .of_fails (p.steady_convert _ _ _ _ _).1
          ((p.defineRecord r).steady_convert _ _ _ _ _).1 (fun _ => h.not_convert_before ht)
          (fun _ => h.not_convert_after hr ht he)
      · change (Check.guarded _ _).Agree
          (Check.guarded _ ((p.defineRecord r).convertStep _ _ _ _ _))
        rw [h.convertStep_eq ht hother]
        exact .guarded _ (Check.Agree.isCompositional.convertStep (p.closedSources_avoids r.id)
          (fun _ _ _ _ hsource => (ih hsource _ _).1)
          (fun _ _ _ _ hsource => (ih hsource _ _).2) he)
    · cases hreferent : t.referent? with
      | none =>
        simp only [checkerBelow, checkerStep, hreferent]
        exact .throw _
      | some parts =>
        rw [bindReference_eq hreferent, bindReference_eq hreferent, h.bindReferent_eq hother]
        exact .guarded _ (Check.Agree.isCompositional.bindReferent
          (fun _ _ _ _ hsource => (ih hsource _ _).1) (p.closedSources_avoids r.id) he)

theorem agree_resolve (hr : r.CopiesOnly) (depth : Nat) (candidates : List Candidate)
    (object : Option Expr) {args : List Expr} (hargs : ∀ arg ∈ args, p.Avoids r.id arg true) :
    (p.resolve (p.checkerBelow depth).convert candidates object args true).Agree
      ((p.defineRecord r).resolve ((p.defineRecord r).checkerBelow depth).convert candidates object
        args true) := by
  rw [h.sameBaseConversions.resolve]
  exact Check.Agree.isCompositional.resolve
    (fun _ _ _ _ hsource => (h.agree_convert hr depth hsource _ _).1) candidates object hargs

/-- What is no object of the class is constructed as before the completion. -/
theorem agree_construct (hr : r.CopiesOnly) (depth : Nat) {t : Ty}
    (ht : t.element.recordId? ≠ some r.id) {args : List Expr}
    (hargs : ∀ arg ∈ args, p.Avoids r.id arg true) :
    ((p.checkerBelow depth).construct t args).Agree
      (((p.defineRecord r).checkerBelow depth).construct t args) := by
  induction depth generalizing t args with
  | zero => exact .throw _
  | succ depth ih =>
    have hother : t.recordId? ≠ some r.id := fun hid =>
      ht (by rw [Ty.element_of_recordId? hid, hid])
    change (Check.guarded _ _).Agree (Check.guarded _ ((p.defineRecord r).constructStep _ _ _))
    rw [h.constructStep_eq hother]
    refine .guarded _ (Check.Agree.isCompositional.constructStep
      (fun _ _ _ _ hsource => (h.agree_convert hr depth hsource _ _).1) hargs
      (fun _ _ _ _ hsource => (h.agree_convert hr depth hsource _ _).2) ?_)
    rintro element bound rfl
    exact ih (by exact ht) (List.forall_mem_nil _)

theorem agree_directInit (hr : r.CopiesOnly) (ht : t.element.recordId? ≠ some r.id)
    {args : List Expr} (hargs : ∀ arg ∈ args, p.Avoids r.id arg true) :
    (p.directInit t args).Agree ((p.defineRecord r).directInit t args) := by
  rw [directInit, directInit, checker_eq, checker_eq]
  exact h.agree_construct hr _ ht hargs

theorem directInit_noArguments_eq (ht : t.element.recordId? ≠ some r.id) :
    (p.defineRecord r).directInit t [] = p.directInit t [] :=
  directInit_noArguments_congr (by rw [h.completeRecord?_of_ne ht])

theorem destroy_eq (ht : t.element.recordId? ≠ some r.id) :
    (p.defineRecord r).destroy t = p.destroy t :=
  destroy_congr (by rw [h.completeRecord?_of_ne ht])

/-- What is no object of the class is assigned to as before the completion. -/
theorem agree_assign (hr : r.CopiesOnly) {a b : Expr} (ha : ¬a.type.IsOf r.id)
    (hb : p.Avoids r.id b true) : (p.assign a b).Agree ((p.defineRecord r).assign a b) := by
  simp only [assign]
  split
  · exact .throw .voidExpression
  · split
    · rw [h.completeRecord?_of_ne ha]
      split
      · exact .throw .incompleteType
      · rw [checker_eq, checker_eq]
        exact .bind (h.agree_resolve hr _ _ _ (by simpa using hb)) fun _ => .refl (.pure _)
    · split
      · exact .throw .notModifiable
      · rw [convert, convert, checker_eq, checker_eq]
        exact .bind (h.agree_convert hr _ hb _ _).1 fun _ => .refl (.pure _)

end AwaitsRoot
end Program
end TypeTraits
