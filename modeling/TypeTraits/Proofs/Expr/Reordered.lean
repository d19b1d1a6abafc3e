import TypeTraits.Proofs.Expr.Matching
import TypeTraits.Proofs.Expr.Selection
import TypeTraits.Proofs.Program.Reordered

/-!
# Initializations where classes name their bases in another order

A conversion asks a class for its constructors and for the conversion functions that are considered,
and it asks how the class converts to its bases. Programs that answer these questions alike, but for
the order of the functions, take the same steps in every initialization and come to the same.
-/

namespace TypeTraits
namespace Program

theorem SameBaseConversions.bindAtOnce? {p q : Program} (h : p.SameBaseConversions q) :
    q.bindAtOnce? = p.bindAtOnce? := by
  funext source referent isRvalueRef
  simp only [Program.bindAtOnce?, bindFunction, h.standardConversion, h.referenceRelation]

/-- Objects are destroyed alike. -/
theorem Reordered.destroy {p q : Program} (h : p.Reordered q) : q.destroy = p.destroy := by
  funext t
  refine destroy_congr ?_
  rcases h.completeRecord?_cases t.element with ⟨hp, hq⟩ | ⟨r, s, hp, hq, hsame⟩
  · rw [hp, hq]
  · rw [hp, hq, Option.map_some, Option.map_some, Record.destruction, Record.destruction,
      hsame.destructor]

/-- Programs with direct bases in one order or another, within the limits of the walks over them, in
which the same conversion functions are considered. -/
structure ConvertsAlike (p q : Program) : Prop where
  reordered : p.Reordered q
  rebased : p.Rebased q
  considered : ∀ t mode, (p.considered t mode).Perm (q.considered t mode)

namespace ConvertsAlike

open Check.Matches

variable {p q : Program} {convert : ConvertArgument} {source : Expr} {target : Ty}
  {isRvalueRef allowUser : Bool} {mode : InitMode}
  (h : p.ConvertsAlike q)

include h in
theorem bases : p.SameBaseConversions q := h.rebased.sameBaseConversions

variable
  (hconvert : ∀ source target mode allowUser, (convert source target mode allowUser).Steady)

include hconvert

theorem matches_resolve_self (candidates : List Candidate) (object : Option Expr)
    (args : List Expr) (allowUser : Bool) :
    (p.resolve convert candidates object args allowUser).Matches
      (p.resolve convert candidates object args allowUser) :=
  isCompositional.resolve (fun _ _ _ _ (_ : True) => .refl (hconvert ..)) candidates object
    fun _ _ => trivial

theorem matches_userDefinedConversion_self (candidates : List Candidate) :
    (p.userDefinedConversion convert candidates source).Matches
      (p.userDefinedConversion convert candidates source) :=
  .bind (matches_resolve_self hconvert ..) fun _ => .ofFormed _

include h

/-- Conversions through conversion functions whose results are accepted alike. -/
theorem matches_throughFunctions {accept accept' : FunctionDecl → Check (Option Conversion)}
    (haccept : ∀ f, (accept f).Matches (accept' f)) (htotal : ∀ f, (accept' f).Total)
    (constructors : List Candidate) (hplain : ∀ c ∈ constructors, c.isTemplate = false) :
    (conversionCandidates (p.conversionOwners source.type) mode accept >>= fun functions =>
      p.userDefinedConversion convert (constructors ++ functions) source).Matches
    (conversionCandidates (q.conversionOwners source.type) mode accept' >>= fun functions =>
      q.userDefinedConversion convert (constructors ++ functions) source) := by
  rw [h.bases.userDefinedConversion]
  have haccepted : (conversionCandidates (p.conversionOwners source.type) mode accept).Matches
      (conversionCandidates (p.conversionOwners source.type) mode accept') :=
    isCompositional.filterMapM fun c _ => .bind (haccept c.function) fun _ => .ofFormed _
  refine (haccepted.bind fun _ => matches_userDefinedConversion_self hconvert _).trans ?_
  refine .filterMapM_bind ?_ ?_ ?_ (h.considered source.type mode) ?_
  · exact fun c => (haccept c.function).right.bind fun _ => .pure _
  · exact fun c => (htotal c.function).bind fun _ => Check.total_pure _
  · exact fun _ => (matches_userDefinedConversion_self hconvert _).left
  · intro functions functions' hperm hreturns
    refine .bind (matches_resolve hconvert (hperm.append_left _) ?_ _ _ _) fun _ => .ofFormed _
    intro c hc
    rcases List.mem_append.mp hc with hc | hc
    · simp [Candidate.HasOneTieBreaker, hplain c hc]
    · obtain ⟨visible, hvisible, hreturn⟩ := hreturns c hc
      obtain ⟨result, -, hreturn⟩ := hreturn.bind
      rw [Check.returns_pure] at hreturn
      obtain ⟨_, -, rfl⟩ := Option.map_eq_some_iff.mp hreturn
      obtain ⟨owner, -, hmem⟩ := mem_visibleConversions hvisible
      have htemplate := Record.isTemplate_of_mem_candidates hmem
      simp [Candidate.HasOneTieBreaker, htemplate]

theorem matches_relatedConversion {unrelated unrelated' : Record → Check Conversion}
    (hunrelated : ∀ r s, r.Reordered s → (unrelated r).Matches (unrelated' s)) :
    (p.relatedConversion convert unrelated source target mode).Matches
      (q.relatedConversion convert unrelated' source target mode) := by
  unfold relatedConversion
  dsimp only
  rw [h.bases.isBaseOf, h.bases.baseConversion, h.bases.resolve]
  rcases h.reordered.completeRecord?_cases target.unqualified with
    ⟨hp, hq⟩ | ⟨r, s, hp, hq, hsame⟩
  · rw [hp, hq]
    exact isCompositional.throw _
  · rw [hp, hq]
    dsimp only
    rw [hsame.abstract, hsame.candidates]
    refine isCompositional.throwIf ?_
    split
    · split
      · split
        · exact isCompositional.pure _
        · exact .bind (matches_resolve_self hconvert ..) fun _ => .ofFormed _
      · exact .ofFormed _
    · exact hunrelated r s hsame

theorem matches_directClassConversion :
    (p.directClassConversion convert source target mode).Matches
      (q.directClassConversion convert source target mode) :=
  h.matches_relatedConversion hconvert fun _ _ _ => isCompositional.throw _

theorem matches_unrelatedConversion {r s : Record} (hsame : r.Reordered s) :
    (p.unrelatedConversion convert source target mode r).Matches
      (q.unrelatedConversion convert source target mode s) := by
  unfold unrelatedConversion
  dsimp only
  rw [hsame.candidates, h.bases.isBaseOf]
  refine h.matches_throughFunctions hconvert ?_ ?_ _ ?_
  · intro f
    split
    · exact isCompositional.pure _
    · exact (h.matches_directClassConversion hconvert).attempt
  · intro f
    split
    · exact Check.total_pure _
    · exact Check.total_attempt _
  · intro c hc
    exact Record.isTemplate_of_mem_candidates (List.mem_filter.mp hc).1

theorem matches_classConversion :
    (p.classConversion convert source target mode allowUser).Matches
      (q.classConversion convert source target mode allowUser) := by
  unfold classConversion
  cases allowUser with
  | true =>
    apply h.matches_relatedConversion hconvert
    intro r s hsame
    exact h.matches_unrelatedConversion hconvert hsame
  | false => exact h.matches_directClassConversion hconvert

theorem matches_conversionFromClass :
    (p.conversionFromClass convert source target mode).Matches
      (q.conversionFromClass convert source target mode) := by
  unfold conversionFromClass
  rw [h.bases.standardConversion]
  refine h.matches_throughFunctions hconvert ?_ ?_ [] ?_
  · exact fun _ => isCompositional.pure _
  · exact fun _ => Check.total_pure _
  · simp

theorem matches_bindThroughFunction {cv : Cv} {wantLvalue : Bool} :
    (p.bindThroughFunction convert source target cv wantLvalue isRvalueRef mode).Matches
      (q.bindThroughFunction convert source target cv wantLvalue isRvalueRef mode) := by
  unfold bindThroughFunction
  rw [h.bases.referenceRelation]
  refine h.matches_throughFunctions hconvert ?_ ?_ [] ?_
  · intro f
    dsimp only
    split <;> exact isCompositional.pure _
  · intro f
    dsimp only
    split <;> exact Check.total_pure _
  · simp

theorem matches_bindThroughFunctionOr {wantLvalue : Bool} {otherwise otherwise' : Check Conversion}
    (hotherwise : otherwise.Matches otherwise') :
    (p.bindThroughFunctionOr convert source target wantLvalue isRvalueRef mode allowUser
      otherwise).Matches
    (q.bindThroughFunctionOr convert source target wantLvalue isRvalueRef mode allowUser
      otherwise') := by
  unfold bindThroughFunctionOr
  split
  · refine .bind (h.matches_bindThroughFunction hconvert).attempt fun o => ?_
    cases o with
    | none => exact hotherwise
    | some c => exact isCompositional.pure _
  · exact hotherwise

theorem matches_bindReferent :
    (p.bindReferent convert source target isRvalueRef mode allowUser).Matches
      (q.bindReferent convert source target isRvalueRef mode allowUser) := by
  have hsame := congrFun (congrFun (congrFun h.bases.bindAtOnce? source) target) isRvalueRef
  cases hbound : p.bindAtOnce? source target isRvalueRef with
  | some bound =>
    rw [bindReferent_of_atOnce hbound, bindReferent_of_atOnce (hsame.trans hbound)]
    exact .ofFormed _
  | none =>
    have htemporary : (bindTemporary convert source target isRvalueRef allowUser).Matches
        (bindTemporary convert source target isRvalueRef allowUser) :=
      .bind (.refl (hconvert ..)) fun _ => .ofFormed _
    rw [bindReferent_of_unrelated hbound, bindReferent_of_unrelated (hsame.trans hbound)]
    unfold bindUnrelated
    dsimp only
    split
    · exact h.matches_bindThroughFunctionOr hconvert htemporary
    · refine h.matches_bindThroughFunctionOr hconvert ?_
      split
      · exact isCompositional.throw _
      · exact h.matches_bindThroughFunctionOr hconvert htemporary

omit hconvert

section Checkers

variable {deeper : Checker}
  (hdeeper : deeper.Related (fun _ c₁ c₂ => Check.Matches c₁ c₂) deeper)

include hdeeper

theorem matches_convertStep :
    (p.convertStep deeper source target mode allowUser).Matches
      (q.convertStep deeper source target mode allowUser) := by
  have hconvert := fun source target mode allowUser =>
    (hdeeper.convert source target mode allowUser).left
  unfold convertStep
  rw [h.bases.standardConversion]
  split
  · exact hdeeper.bindReference ..
  split
  · exact isCompositional.throw _
  split
  · exact h.matches_classConversion hconvert
  split
  · split
    · exact h.matches_conversionFromClass hconvert
    · exact isCompositional.throw _
  · exact .ofFormed _

theorem matches_constructClass {args : List Expr} :
    (p.constructClass deeper target args).Matches (q.constructClass deeper target args) := by
  have hconvert := fun source target mode allowUser =>
    (hdeeper.convert source target mode allowUser).left
  have hselect : ∀ candidates : List Candidate,
      Check.Matches (do return (← p.resolve deeper.convert candidates none args true).effects)
        (do return (← p.resolve deeper.convert candidates none args true).effects) :=
    fun _ => .bind (matches_resolve_self hconvert ..) fun _ => .ofFormed _
  unfold constructClass
  dsimp only
  rw [h.bases.resolve]
  rcases h.reordered.completeRecord?_cases target.unqualified with
    ⟨hp, hq⟩ | ⟨r, s, hp, hq, hsame⟩
  · rw [hp, hq]
    exact isCompositional.throw _
  · rw [hp, hq]
    dsimp only
    rw [hsame.abstract, hsame.candidates]
    refine isCompositional.throwIf ?_
    split
    · split
      · exact isCompositional.pure _
      · exact hselect _
    · exact hselect _

theorem matches_constructStep {args : List Expr} :
    (p.constructStep deeper target args).Matches (q.constructStep deeper target args) := by
  unfold constructStep
  split
  · split
    · exact .bind (hdeeper.bindReference ..) fun _ => .ofFormed _
    · exact isCompositional.throw _
  split
  · exact isCompositional.throw _
  split
  · split
    · exact hdeeper.construct ..
    · exact isCompositional.throw _
  · exact isCompositional.throw _
  split
  · exact h.matches_constructClass hdeeper
  split
  · exact isCompositional.pure _
  · exact .bind (hdeeper.convert ..) fun _ => .ofFormed _
  · exact isCompositional.throw _

theorem related_checkerStep : (p.checkerStep deeper).Related
    (fun _ c₁ c₂ => Check.Matches c₁ c₂) (q.checkerStep deeper) where
  convert source target mode allowUser := .guarded _ (h.matches_convertStep hdeeper)
  bindReference source target mode allowUser := by
    cases htarget : target.referent? with
    | none =>
      simp only [checkerStep, htarget]
      exact isCompositional.throw _
    | some parts =>
      simp only [checkerStep, htarget]
      exact .guarded _ (h.matches_bindReferent fun _ _ _ _ => (hdeeper.convert ..).left)
  construct target args := .guarded _ (h.matches_constructStep hdeeper)

end Checkers

/-- At every depth the checks of one program match those of the other. -/
theorem related_checkerBelow (depth : Nat) : (p.checkerBelow depth).Related
    (fun _ c₁ c₂ => Check.Matches c₁ c₂) (q.checkerBelow depth) := by
  induction depth with
  | zero =>
    constructor
    all_goals
      intros
      exact isCompositional.throw _
  | succ depth ih =>
    have hleft : (p.checkerStep (p.checkerBelow depth)).Related
        (fun _ c₁ c₂ => Check.Matches c₁ c₂) (p.checkerStep (q.checkerBelow depth)) :=
      .checkerStep p isCompositional (fun _ _ => isCompositional.throw _)
        (fun _ key _ _ => .guarded key) ih
    have hright := @related_checkerStep p q h (q.checkerBelow depth) {
      convert := fun _ _ _ _ => .refl (ih.convert ..).right
      bindReference := fun _ _ _ _ => .refl (ih.bindReference ..).right
      construct := fun _ _ => .refl (ih.construct ..).right }
    exact {
      convert := fun _ _ _ _ => (hleft.convert ..).trans (hright.convert ..)
      bindReference := fun _ _ _ _ => (hleft.bindReference ..).trans (hright.bindReference ..)
      construct := fun _ _ => (hleft.construct ..).trans (hright.construct ..) }

theorem matches_convert (source : Expr) (target : Ty) (mode : InitMode) (allowUser : Bool) :
    (p.convert source target mode allowUser).Matches (q.convert source target mode allowUser) := by
  rw [Program.convert, Program.convert, checker_eq, checker_eq]
  exact (h.related_checkerBelow _).convert ..

theorem matches_directInit (target : Ty) (args : List Expr) :
    (p.directInit target args).Matches (q.directInit target args) := by
  rw [directInit, directInit, checker_eq, checker_eq]
  exact (h.related_checkerBelow _).construct ..

theorem matches_copyInit (target : Ty) (source : Expr) :
    (p.copyInit target source).Matches (q.copyInit target source) :=
  .bind (h.matches_convert ..) fun _ => .ofFormed _

theorem matches_assign (a b : Expr) : (p.assign a b).Matches (q.assign a b) := by
  simp only [assign, h.bases.resolve]
  split
  · exact isCompositional.throw _
  · split
    · rcases h.reordered.completeRecord?_cases a.type.unqualified with
        ⟨hp, hq⟩ | ⟨r, s, hp, hq, hsame⟩
      · rw [hp, hq]
        exact isCompositional.throw _
      · rw [hp, hq]
        dsimp only
        rw [hsame.candidates, checker_eq, checker_eq]
        have hconvert := (h.related_checkerBelow (Limits.initializationDepth + 1)).convert
        exact .bind (isCompositional.resolve (fun _ _ _ _ (_ : True) => hconvert ..) _ _
          fun _ _ => trivial) fun _ => .ofFormed _
    · split
      · exact isCompositional.throw _
      · exact .bind (h.matches_convert ..) fun _ => .ofFormed _

end ConvertsAlike
end Program
end TypeTraits
