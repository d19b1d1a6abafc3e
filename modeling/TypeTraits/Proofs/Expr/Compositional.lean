import TypeTraits.Proofs.Expr.Checker
import TypeTraits.Proofs.Expr.Resolution

/-!
# Relations between checks that composed checks inherit

The checks of conversions, reference bindings and overload resolution are composed of conversions
that they leave to a deeper checker. A relation that sequencing and attempting respect, and in which
every decided check is to itself, holds of two such checks if it holds of their conversions. It need
hold only of conversions from expressions that such checks lead to from the one they start with.
-/

namespace TypeTraits

/-- A set of expressions, with or without leave to convert them by functions of the user, that
conversions do not leave: next to an expression that such functions may convert, it has what the
conversion functions return. -/
structure Program.ClosedSources (p : Program) (good : Expr → Bool → Prop) : Prop where
  direct : ∀ {e : Expr} {allowUser : Bool}, good e allowUser → good e false
  result : ∀ {e : Expr}, good e true → ∀ owner ∈ p.conversionOwners e.type,
    ∀ f ∈ owner.2.conversions, good (.callResult f.result) false

theorem Program.closedSources_true (p : Program) : p.ClosedSources fun _ _ => True :=
  ⟨fun _ => trivial, fun _ _ _ _ _ => trivial⟩

namespace Check

/-- A relation that a composed check inherits from its parts. -/
structure IsCompositional (rel : ∀ α : Type, Check α → Check α → Prop) : Prop where
  ofFormed {α : Type} (r : Formed α) : rel α (.ofFormed r) (.ofFormed r)
  bind {α β : Type} {c₁ c₂ : Check α} {f₁ f₂ : α → Check β} (hc : rel α c₁ c₂)
    (hf : ∀ a, rel β (f₁ a) (f₂ a)) : rel β (c₁ >>= f₁) (c₂ >>= f₂)
  attempt {α : Type} {c₁ c₂ : Check α} (hc : rel α c₁ c₂) :
    rel (Option α) (Check.attempt c₁) (Check.attempt c₂)

namespace IsCompositional

variable {rel : ∀ α : Type, Check α → Check α → Prop} (hrel : IsCompositional rel) {α β : Type}

include hrel

theorem pure (a : α) : rel α (pure a) (pure a) := hrel.ofFormed (.ok a)

theorem throw (error : Inapplicable) : rel α (throw error) (throw error) :=
  hrel.ofFormed (.error error)

/-- A check that is left early for the same reason on both sides. -/
theorem throwIf {condition : Prop} [Decidable condition] {error : Inapplicable}
    {rest₁ rest₂ : Unit → Check α} (hrest : rel α (rest₁ ()) (rest₂ ())) :
    rel α (if condition then MonadExcept.throw error >>= rest₁ else rest₁ ())
      (if condition then MonadExcept.throw error >>= rest₂ else rest₂ ()) := by
  split
  · exact hrel.throw error
  · exact hrest

theorem filterMapM {f₁ f₂ : α → Check (Option β)} {l : List α}
    (hf : ∀ a ∈ l, rel _ (f₁ a) (f₂ a)) : rel _ (l.filterMapM f₁) (l.filterMapM f₂) := by
  induction l with
  | nil => exact hrel.pure []
  | cons a l ih =>
    obtain ⟨ha, hl⟩ := List.forall_mem_cons.mp hf
    rw [List.filterMapM_cons, List.filterMapM_cons]
    refine hrel.bind ha fun o => ?_
    cases o with
    | none => exact ih hl
    | some b => exact hrel.bind (ih hl) fun _ => hrel.pure _

variable {p : Program} {good : Expr → Bool → Prop} {convert₁ convert₂ : ConvertArgument}
  (h : ∀ source target mode allowUser, good source allowUser →
    rel Conversion (convert₁ source target mode allowUser) (convert₂ source target mode allowUser))
  {source : Expr} {target : Ty} {isRvalueRef : Bool} {mode : InitMode} {allowUser : Bool}

include h

theorem argumentConversions {args : List Expr} (hargs : ∀ arg ∈ args, good arg allowUser)
    (params : List Ty) :
    rel _ (Program.argumentConversions convert₁ allowUser args params)
      (Program.argumentConversions convert₂ allowUser args params) := by
  induction args generalizing params with
  | nil => exact hrel.pure _
  | cons arg args ih =>
    obtain ⟨harg, hargs⟩ := List.forall_mem_cons.mp hargs
    replace ih := ih hargs
    cases params with
    | nil =>
      simp only [Program.argumentConversions]
      split
      · exact hrel.pure _
      · exact hrel.bind (ih []) fun _ => hrel.pure _
    | cons param params =>
      simp only [Program.argumentConversions]
      refine hrel.bind (hrel.attempt (h _ _ _ _ harg)) fun o => ?_
      cases o with
      | none => exact hrel.pure _
      | some c => exact hrel.bind (ih params) fun _ => hrel.pure _

theorem viableConversions (object : Option Expr) {args : List Expr}
    (hargs : ∀ arg ∈ args, good arg allowUser) (c : Candidate) :
    rel _ (p.viableConversions convert₁ object args allowUser c)
      (p.viableConversions convert₂ object args allowUser c) := by
  simp only [Program.viableConversions]
  repeat' split
  all_goals first
    | exact hrel.pure _
    | exact hrel.bind (hrel.argumentConversions h hargs _) fun _ => hrel.pure _

theorem resolve (candidates : List Candidate) (object : Option Expr) {args : List Expr}
    (hargs : ∀ arg ∈ args, good arg allowUser) :
    rel _ (p.resolve convert₁ candidates object args allowUser)
      (p.resolve convert₂ candidates object args allowUser) := by
  refine hrel.bind (hrel.filterMapM fun c _ =>
    hrel.bind (hrel.viableConversions h object hargs c) fun _ => hrel.pure _) fun viable => ?_
  dsimp only
  refine hrel.throwIf ?_
  cases Candidate.best? viable with
  | none => exact hrel.throw _
  | some best => exact hrel.ofFormed _

theorem userDefinedConversion (hsource : good source false) (candidates : List Candidate) :
    rel _ (p.userDefinedConversion convert₁ candidates source)
      (p.userDefinedConversion convert₂ candidates source) :=
  hrel.bind (hrel.resolve h _ _ (by simpa using hsource)) fun _ => hrel.pure _

theorem relatedConversion (hsource : good source false)
    {unrelated₁ unrelated₂ : Record → Check Conversion}
    (hunrelated : ∀ r, rel _ (unrelated₁ r) (unrelated₂ r)) :
    rel _ (p.relatedConversion convert₁ unrelated₁ source target mode)
      (p.relatedConversion convert₂ unrelated₂ source target mode) := by
  unfold Program.relatedConversion
  dsimp only
  cases p.completeRecord? target.unqualified with
  | none => exact hrel.throw _
  | some r =>
    dsimp only
    refine hrel.throwIf ?_
    split
    · split
      · split
        · exact hrel.pure _
        · exact hrel.bind (hrel.resolve h _ _ (by simpa using hsource)) fun _ => hrel.pure _
      · exact hrel.ofFormed _
    · exact hunrelated r

theorem directClassConversion (hsource : good source false) :
    rel _ (p.directClassConversion convert₁ source target mode)
      (p.directClassConversion convert₂ source target mode) :=
  hrel.relatedConversion h hsource fun _ => hrel.throw _

theorem conversionFromClass (hsource : good source false) :
    rel _ (p.conversionFromClass convert₁ source target mode)
      (p.conversionFromClass convert₂ source target mode) :=
  hrel.bind (hrel.filterMapM fun _ _ => hrel.bind (hrel.pure _) fun _ => hrel.pure _) fun _ =>
    hrel.userDefinedConversion h hsource _

theorem bindThroughFunction (hsource : good source false) {cv : Cv} {wantLvalue : Bool} :
    rel _ (p.bindThroughFunction convert₁ source target cv wantLvalue isRvalueRef mode)
      (p.bindThroughFunction convert₂ source target cv wantLvalue isRvalueRef mode) := by
  refine hrel.bind (hrel.filterMapM fun c _ => hrel.bind ?_ fun _ => hrel.pure _) fun _ =>
    hrel.userDefinedConversion h hsource _
  dsimp only
  split <;> exact hrel.pure _

theorem bindThroughFunctionOr (hsource : good source false) {wantLvalue : Bool}
    {otherwise₁ otherwise₂ : Check Conversion} (hotherwise : rel _ otherwise₁ otherwise₂) :
    rel _ (p.bindThroughFunctionOr convert₁ source target wantLvalue isRvalueRef mode allowUser
        otherwise₁)
      (p.bindThroughFunctionOr convert₂ source target wantLvalue isRvalueRef mode allowUser
        otherwise₂) := by
  unfold Program.bindThroughFunctionOr
  split
  · refine hrel.bind (hrel.attempt (hrel.bindThroughFunction h hsource)) fun o => ?_
    cases o with
    | none => exact hotherwise
    | some c => exact hrel.pure _
  · exact hotherwise

variable (hp : p.ClosedSources good)

include hp

theorem unrelatedConversion (hsource : good source true) (r : Record) :
    rel _ (p.unrelatedConversion convert₁ source target mode r)
      (p.unrelatedConversion convert₂ source target mode r) := by
  refine hrel.bind (hrel.filterMapM fun c hc => hrel.bind ?_ fun _ => hrel.pure _) fun functions =>
    hrel.userDefinedConversion h (hp.direct hsource) _
  obtain ⟨owner, howner, hmem⟩ := Program.mem_visibleConversions hc
  have hresult := hp.result hsource owner howner _ (Record.mem_candidates hmem).1
  dsimp only
  split
  · exact hrel.pure _
  · exact hrel.attempt (hrel.directClassConversion h hresult)

theorem classConversion (hsource : good source allowUser) :
    rel _ (p.classConversion convert₁ source target mode allowUser)
      (p.classConversion convert₂ source target mode allowUser) := by
  unfold Program.classConversion
  cases allowUser with
  | true =>
    exact hrel.relatedConversion h (hp.direct hsource) (hrel.unrelatedConversion h hp hsource)
  | false => exact hrel.directClassConversion h hsource

theorem bindReferent (hsource : good source allowUser) :
    rel _ (p.bindReferent convert₁ source target isRvalueRef mode allowUser)
      (p.bindReferent convert₂ source target isRvalueRef mode allowUser) := by
  cases hbound : p.bindAtOnce? source target isRvalueRef with
  | some bound =>
    rw [Program.bindReferent_of_atOnce hbound, Program.bindReferent_of_atOnce hbound]
    exact hrel.ofFormed _
  | none =>
    have htemporary : rel _ (Program.bindTemporary convert₁ source target isRvalueRef allowUser)
        (Program.bindTemporary convert₂ source target isRvalueRef allowUser) :=
      hrel.bind (h _ _ _ _ hsource) fun _ => hrel.pure _
    have hdirect := hp.direct hsource
    rw [Program.bindReferent_of_unrelated hbound, Program.bindReferent_of_unrelated hbound]
    unfold Program.bindUnrelated
    dsimp only
    split
    · exact hrel.bindThroughFunctionOr h hdirect htemporary
    · refine hrel.bindThroughFunctionOr h hdirect ?_
      split
      · exact hrel.throw _
      · exact hrel.bindThroughFunctionOr h hdirect htemporary

omit h

theorem convertStep {deeper₁ deeper₂ : Checker}
    (hconvert : ∀ source target mode allowUser, good source allowUser → rel _
      (deeper₁.convert source target mode allowUser)
      (deeper₂.convert source target mode allowUser))
    (hbind : ∀ source target mode allowUser, good source allowUser → rel _
      (deeper₁.bindReference source target mode allowUser)
      (deeper₂.bindReference source target mode allowUser))
    (hsource : good source allowUser) :
    rel _ (p.convertStep deeper₁ source target mode allowUser)
      (p.convertStep deeper₂ source target mode allowUser) := by
  unfold Program.convertStep
  split
  · exact hbind _ _ _ _ hsource
  split
  · exact hrel.throw _
  split
  · exact hrel.classConversion hconvert hp hsource
  split
  · split
    · exact hrel.conversionFromClass hconvert (hp.direct hsource)
    · exact hrel.throw _
  · exact hrel.ofFormed _

section Construction

variable {deeper₁ deeper₂ : Checker} {args : List Expr}
  (hconvert : ∀ source target mode allowUser, good source allowUser → rel _
    (deeper₁.convert source target mode allowUser) (deeper₂.convert source target mode allowUser))
  (hargs : ∀ arg ∈ args, good arg true)

include hconvert hargs

omit hp

theorem constructClass : rel _ (p.constructClass deeper₁ target args)
    (p.constructClass deeper₂ target args) := by
  have hselect : ∀ candidates : List Candidate, rel Effects
      (do return (← p.resolve deeper₁.convert candidates none args true).effects)
      (do return (← p.resolve deeper₂.convert candidates none args true).effects) :=
    fun candidates => hrel.bind (hrel.resolve hconvert candidates none hargs) fun _ => hrel.pure _
  unfold Program.constructClass
  dsimp only
  split
  · exact hrel.throw _
  · refine hrel.throwIf ?_
    split
    · split
      · exact hrel.pure _
      · exact hselect _
    · exact hselect _

theorem constructStep
    (hbind : ∀ source target mode allowUser, good source allowUser → rel _
      (deeper₁.bindReference source target mode allowUser)
      (deeper₂.bindReference source target mode allowUser))
    (helement : ∀ element bound, target = .array element bound →
      rel _ (deeper₁.construct element []) (deeper₂.construct element [])) :
    rel _ (p.constructStep deeper₁ target args) (p.constructStep deeper₂ target args) := by
  unfold Program.constructStep
  split
  · split
    · exact hrel.bind (hbind _ _ _ _ (hargs _ (List.mem_singleton_self _))) fun _ => hrel.pure _
    · exact hrel.throw _
  split
  · exact hrel.throw _
  split
  · split
    · exact helement _ _ rfl
    · exact hrel.throw _
  · exact hrel.throw _
  split
  · exact hrel.constructClass hconvert hargs
  split
  · exact hrel.pure _
  · exact hrel.bind (hconvert _ _ _ _ (hargs _ (List.mem_singleton_self _))) fun _ => hrel.pure _
  · exact hrel.throw _

end Construction

end IsCompositional
end Check

/-- Checkers of which each check of the one is related to the same check of the other. -/
structure Checker.Related (rel : ∀ α : Type, Check α → Check α → Prop) (c₁ c₂ : Checker) :
    Prop where
  convert (source : Expr) (target : Ty) (mode : InitMode) (allowUser : Bool) :
    rel _ (c₁.convert source target mode allowUser) (c₂.convert source target mode allowUser)
  bindReference (source : Expr) (target : Ty) (mode : InitMode) (allowUser : Bool) :
    rel _ (c₁.bindReference source target mode allowUser)
      (c₂.bindReference source target mode allowUser)
  construct (target : Ty) (args : List Expr) :
    rel _ (c₁.construct target args) (c₂.construct target args)

/-- Checkers are related by what guarded checks are, if their nested checks are by what the bodies
of these are. -/
theorem Checker.Related.checkerStep {rel guarded : ∀ α : Type, Check α → Check α → Prop}
    {c₁ c₂ : Checker} (p : Program) (hrel : Check.IsCompositional rel)
    (hthrow : ∀ (α : Type) error, guarded α (throw error) (throw error))
    (hguarded : ∀ (α : Type) key (body₁ body₂ : Check α), rel α body₁ body₂ →
      guarded α (.guarded key body₁) (.guarded key body₂))
    (h : c₁.Related rel c₂) : (p.checkerStep c₁).Related guarded (p.checkerStep c₂) where
  convert source target mode allowUser := hguarded _ _ _ _ <|
    hrel.convertStep p.closedSources_true (fun _ _ _ _ _ => h.convert ..)
      (fun _ _ _ _ _ => h.bindReference ..) trivial
  bindReference source target mode allowUser := by
    cases htarget : target.referent? with
    | none =>
      simp only [Program.checkerStep, htarget]
      exact hthrow _ _
    | some parts =>
      simp only [Program.checkerStep, htarget]
      exact hguarded _ _ _ _ (hrel.bindReferent (fun _ _ _ _ (_ : True) => h.convert ..)
        p.closedSources_true trivial)
  construct target args := hguarded _ _ _ _ <|
    hrel.constructStep (fun _ _ _ _ (_ : True) => h.convert ..) (fun _ _ => trivial)
      (fun _ _ _ _ _ => h.bindReference ..) fun _ _ _ => h.construct ..

end TypeTraits
