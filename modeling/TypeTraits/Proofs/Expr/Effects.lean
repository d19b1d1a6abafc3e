import TypeTraits.Proofs.Expr.Binding
import TypeTraits.Proofs.Expr.Resolution
import TypeTraits.Expr.Operators

/-!
# Trivial evaluation does not throw

Effects are sound when trivial evaluation does not throw, and a function is sound when, being
trivial, it neither throws nor is deleted. Over a program whose complete records have sound
functions only, every check returns sound effects: those of a call are put together from the
function and its conversions, and soundness is kept by putting effects together.
-/

namespace TypeTraits

namespace Effects

/-- Evaluation that runs only trivial functions cannot throw. -/
def Sound (e : Effects) : Prop := e.trivial = true → e.nothrow = true

@[simp] theorem sound_none : Effects.none.Sound := fun _ => rfl

theorem Sound.and {a b : Effects} (ha : a.Sound) (hb : b.Sound) : (a.and b).Sound := by
  intro h
  simp only [Effects.and, Bool.and_eq_true] at h ⊢
  exact ⟨ha h.1, hb h.2⟩

theorem Sound.foldl_and {e : Effects} {l : List Conversion} (he : e.Sound)
    (hl : ∀ c ∈ l, c.effects.Sound) : (l.foldl (fun e c => e.and c.effects) e).Sound := by
  induction l generalizing e with
  | nil => exact he
  | cons c l ih =>
    exact ih (he.and (hl c List.mem_cons_self)) fun c' hc' => hl c' (List.mem_cons_of_mem _ hc')

end Effects

/-- A trivial function neither throws nor is deleted. -/
def FunctionDecl.Sound (f : FunctionDecl) : Prop :=
  f.trivial = true → f.noexcept = true ∧ f.deleted = false

theorem FunctionDecl.sound_of_not_trivial {f : FunctionDecl} (h : f.trivial = false) :
    f.Sound := by
  simp [FunctionDecl.Sound, h]

/-- Every function of the record is sound. -/
def Record.Sound (r : Record) : Prop := ∀ f ∈ r.allFunctions, f.Sound

/-- Every complete record of the program is sound. -/
def Program.Sound (p : Program) : Prop :=
  ∀ id r, p.record? id = some r → r.complete = true → r.Sound

theorem Record.mem_allFunctions_of_mem_functions {r : Record} {set : FunctionSet}
    {f : FunctionDecl} (h : f ∈ r.functions set) : f ∈ r.allFunctions := by
  cases set <;> simp_all [functions, allFunctions]

namespace Candidate

/-- A candidate whose function and result conversion are sound. -/
structure Sound (c : Candidate) : Prop where
  function : c.function.Sound
  result : ∀ r, c.result = some r → r.effects.Sound

theorem sound_callEffects {c : Candidate} {conversions : List (Option Conversion)} (hc : c.Sound)
    (h : ∀ conversion, some conversion ∈ conversions → conversion.effects.Sound) :
    (c.callEffects conversions).Sound := by
  have harguments : ((conversions.filterMap fun c => c).foldl
      (fun e conversion => e.and conversion.effects)
      (⟨c.function.noexcept, c.function.trivial⟩ : Effects)).Sound := by
    refine Effects.Sound.foldl_and (fun ht => (hc.function ht).1) ?_
    intro conversion hmem
    obtain ⟨o, ho, rfl⟩ := List.mem_filterMap.mp hmem
    exact h _ ho
  unfold callEffects
  cases hr : c.result with
  | none => exact harguments
  | some r => exact harguments.and (hc.result r hr)

end Candidate

theorem Record.sound_of_mem_candidates {r : Record} (hr : r.Sound) {set : FunctionSet}
    {mode : InitMode} {object : Option Ty} :
    ∀ c ∈ r.candidates set mode object, c.Sound := by
  intro c hc
  obtain ⟨hf, hresult, _⟩ := mem_candidates hc
  exact ⟨hr _ (mem_allFunctions_of_mem_functions hf), by simp [hresult]⟩

/-- Conversions that an argument conversion returns have sound effects. -/
def ConvertArgument.Sound (convert : ConvertArgument) : Prop :=
  ∀ e t mode allowUser c, (convert e t mode allowUser).Returns c → c.effects.Sound

namespace Conversion

@[simp] theorem effects_derivedToBase (distance : Nat) :
    (derivedToBase distance).effects = .none := by
  unfold derivedToBase
  split <;> rfl

end Conversion

theorem BaseConversion.effects_sequence? {b : BaseConversion} {c : Conversion}
    (h : b.sequence? = .ok c) : c.effects = .none := by
  cases b <;> simp [sequence?] at h
  rw [← h]
  exact Conversion.effects_derivedToBase _

namespace Program

variable {p : Program}

theorem effects_objectConversion {o : Expr} {cls : Ty} {f : FunctionDecl} {c : Conversion}
    (h : p.objectConversion o cls f = some c) : c.effects = .none := by
  simp only [objectConversion] at h
  repeat' split at h
  all_goals first
    | cases h; exact Conversion.effects_derivedToBase _
    | cases h

theorem effects_pointerConversion {s t : Ty} {c : Conversion}
    (h : p.pointerConversion s t = .ok c) : c.effects = .none := by
  simp only [pointerConversion] at h
  repeat' split at h
  all_goals first
    | exact BaseConversion.effects_sequence? h
    | cases h <;> rfl

theorem effects_memberPointerConversion {sc s tc t : Ty} {c : Conversion}
    (h : p.memberPointerConversion sc s tc t = .ok c) : c.effects = .none := by
  simp only [memberPointerConversion] at h
  repeat' split at h
  all_goals first
    | exact BaseConversion.effects_sequence? h
    | cases h <;> rfl

theorem effects_enumConversion {s t : Ty} {k : Builtin} {c : Conversion}
    (h : p.enumConversion s t k = .ok c) : c.effects = .none := by
  simp only [enumConversion] at h
  repeat' split at h
  all_goals cases h <;> rfl

/-- Standard conversions run no function. -/
theorem effects_standardConversion {e : Expr} {t : Ty} {mode : InitMode} {c : Conversion}
    (h : p.standardConversion e t mode = .ok c) : c.effects = .none := by
  simp only [standardConversion] at h
  repeat' split at h
  all_goals first
    | exact effects_pointerConversion h
    | exact effects_memberPointerConversion h
    | exact effects_enumConversion h
    | cases h <;> rfl

variable {convert : ConvertArgument}

/-- Overload resolution among sound candidates selects with sound effects. -/
theorem sound_resolve {candidates : List Candidate} {object : Option Expr} {args : List Expr}
    {allowUser : Bool} {s : Selection} (hcandidates : ∀ c ∈ candidates, c.Sound)
    (hconvert : convert.Sound)
    (h : (p.resolve convert candidates object args allowUser).Returns s) :
    s.effects.Sound ∧ s.candidate ∈ candidates := by
  obtain ⟨c, hc, conversions, hviable, hselect⟩ := resolve_returns h
  obtain ⟨_, _, rfl⟩ := Candidate.select_eq_ok_iff.mp hselect
  refine ⟨Candidate.sound_callEffects (hcandidates c hc) ?_, hc⟩
  intro conversion hmem
  rcases viableConversions_returns hviable conversion hmem with
    ⟨o, cls, _, _, ho⟩ | rfl | ⟨arg, _, param, _, harg⟩
  · rw [effects_objectConversion ho]
    exact Effects.sound_none
  · exact Effects.sound_none
  · exact hconvert _ _ _ _ _ harg

/-- Overload resolution among the functions of a sound record selects with sound effects. -/
theorem sound_resolve_candidates {r : Record} {set : FunctionSet} {mode : InitMode}
    {cls : Option Ty} {object : Option Expr} {args : List Expr} {allowUser : Bool} {s : Selection}
    (hr : r.Sound) (hconvert : convert.Sound)
    (h : (p.resolve convert (r.candidates set mode cls) object args allowUser).Returns s) :
    s.effects.Sound :=
  (sound_resolve (Record.sound_of_mem_candidates hr) hconvert h).1

theorem Sound.completeRecord? (hp : p.Sound) {t : Ty} {r : Record}
    (h : p.completeRecord? t = some r) : r.Sound := by
  obtain ⟨hr, hc⟩ := Option.filter_eq_some_iff.mp h
  obtain ⟨id, _, hid⟩ := Option.bind_eq_some_iff.mp hr
  exact hp id r hid hc

theorem Sound.class? (hp : p.Sound) {t : Ty} {r : Record} (h : p.class? t = some r) :
    r.Sound :=
  hp.completeRecord? (Option.filter_eq_some_iff.mp h).1

theorem sound_conversionCandidates (hp : p.Sound) {source : Ty} {mode : InitMode}
    {accept : FunctionDecl → Check (Option Conversion)} {candidates : List Candidate}
    (haccept : ∀ f c, (accept f).Returns (some c) → c.effects.Sound)
    (h : (conversionCandidates (p.conversionOwners source) mode accept).Returns candidates) :
    ∀ c ∈ candidates, c.Sound := by
  intro c hc
  obtain ⟨visible, hvisible, result, hresult, rfl⟩ := conversionCandidates_returns h c hc
  obtain ⟨owner, howner, hvisible⟩ := mem_visibleConversions hvisible
  obtain ⟨t, ht⟩ := mem_conversionOwners howner
  refine ⟨(Record.sound_of_mem_candidates (hp.completeRecord? ht) visible hvisible).function, ?_⟩
  intro r hr
  cases hr
  exact haccept _ _ hresult

theorem sound_userDefinedConversion {candidates : List Candidate} {source : Expr}
    {c : Conversion} (hcandidates : ∀ c ∈ candidates, c.Sound) (hconvert : convert.Sound)
    (h : (p.userDefinedConversion convert candidates source).Returns c) : c.effects.Sound := by
  obtain ⟨s, hs, rfl⟩ := userDefinedConversion_returns h
  exact (sound_resolve hcandidates hconvert hs).1

theorem sound_relatedConversion (hp : p.Sound) (hconvert : convert.Sound)
    {unrelated : Record → Check Conversion} {source : Expr} {target : Ty} {mode : InitMode}
    {c : Conversion}
    (hunrelated : ∀ r, r.Sound → ∀ c, (unrelated r).Returns c → c.effects.Sound)
    (h : (p.relatedConversion convert unrelated source target mode).Returns c) :
    c.effects.Sound := by
  obtain ⟨r, hr, ⟨_, rfl | ⟨_, s, hs, rfl⟩⟩ | ⟨_, h⟩⟩ := relatedConversion_returns h
  · exact Effects.sound_none
  · exact (sound_resolve_candidates (hp.completeRecord? hr) hconvert hs : s.effects.Sound)
  · exact hunrelated r (hp.completeRecord? hr) c h

theorem sound_directClassConversion (hp : p.Sound) (hconvert : convert.Sound) {source : Expr}
    {target : Ty} {mode : InitMode} {c : Conversion}
    (h : (p.directClassConversion convert source target mode).Returns c) : c.effects.Sound := by
  refine sound_relatedConversion hp hconvert ?_ h
  simp

theorem sound_unrelatedConversion (hp : p.Sound) (hconvert : convert.Sound) {source : Expr}
    {target : Ty} {mode : InitMode} {r : Record} {c : Conversion} (hr : r.Sound)
    (h : (p.unrelatedConversion convert source target mode r).Returns c) : c.effects.Sound := by
  obtain ⟨functions, hfunctions, h⟩ := Check.Returns.bind h
  refine sound_userDefinedConversion ?_ hconvert h
  intro candidate hmem
  rcases List.mem_append.mp hmem with hmem | hmem
  · exact Record.sound_of_mem_candidates hr candidate (List.mem_filter.mp hmem).1
  · refine sound_conversionCandidates hp ?_ hfunctions candidate hmem
    intro f conversion hf
    dsimp only at hf
    split at hf
    · simp at hf
    · exact sound_directClassConversion hp hconvert hf.attempt

theorem sound_classConversion (hp : p.Sound) (hconvert : convert.Sound) {source : Expr}
    {target : Ty} {mode : InitMode} {allowUser : Bool} {c : Conversion}
    (h : (p.classConversion convert source target mode allowUser).Returns c) :
    c.effects.Sound := by
  unfold classConversion at h
  split at h
  · exact sound_relatedConversion hp hconvert
      (fun r hr c hc => sound_unrelatedConversion hp hconvert hr hc) h
  · exact sound_directClassConversion hp hconvert h

theorem sound_conversionFromClass (hp : p.Sound) (hconvert : convert.Sound) {source : Expr}
    {target : Ty} {mode : InitMode} {c : Conversion}
    (h : (p.conversionFromClass convert source target mode).Returns c) : c.effects.Sound := by
  obtain ⟨candidates, hcandidates, h⟩ := Check.Returns.bind h
  refine sound_userDefinedConversion (sound_conversionCandidates hp ?_ hcandidates) hconvert h
  intro f conversion hf
  rw [Check.returns_pure] at hf
  cases hs : p.standardConversion (Expr.callResult f.result) target mode with
  | error e => simp [hs, Except.toOption] at hf
  | ok found =>
    rw [hs] at hf
    cases hf
    rw [effects_standardConversion hs]
    exact Effects.sound_none

theorem sound_bindThroughFunction (hp : p.Sound) (hconvert : convert.Sound) {source : Expr}
    {referent : Ty} {cv : Cv} {wantLvalue isRvalueRef : Bool} {mode : InitMode} {c : Conversion}
    (h : (p.bindThroughFunction convert source referent cv wantLvalue isRvalueRef mode).Returns
      c) : c.effects.Sound := by
  obtain ⟨candidates, hcandidates, h⟩ := Check.Returns.bind h
  refine sound_userDefinedConversion (sound_conversionCandidates hp ?_ hcandidates) hconvert h
  intro f conversion hf
  dsimp only at hf
  split at hf
  · simp at hf
  · rw [Check.returns_pure] at hf
    obtain ⟨distance, _, rfl⟩ := Option.map_eq_some_iff.mp hf
    simp

theorem sound_bindObject (hp : p.Sound) (hconvert : convert.Sound) {source : Expr} {target : Ty}
    {isRvalueRef : Bool} {mode : InitMode} {allowUser : Bool} {c : Conversion}
    (h : (p.bindObject convert source target isRvalueRef mode allowUser).Returns c) :
    c.effects.Sound := by
  cases hrelation : p.referenceRelation target.unqualified source.type.unqualified with
  | some relation =>
    rw [bindObject_of_related hrelation, Check.returns_ofFormed] at h
    obtain ⟨sequence, binding, hs, rfl⟩ := bindRelated_eq_ok h
    rw [show _ = Effects.none from BaseConversion.effects_sequence? hs]
    exact Effects.sound_none
  | none =>
    rw [bindObject_of_unrelated hrelation] at h
    rcases bindUnrelated_returns h with ⟨_, _, _, h⟩ | h
    · exact sound_bindThroughFunction hp hconvert h
    · obtain ⟨found, hfound, h⟩ := Check.Returns.bind h
      rw [Check.returns_pure] at h
      subst h
      exact (hconvert _ _ _ _ _ hfound : found.effects.Sound)

theorem effects_bindFunction {source : Expr} {referent : Ty} {c : Conversion}
    (h : p.bindFunction source referent = .ok c) : c.effects = .none := by
  unfold bindFunction at h
  split at h
  · exact effects_standardConversion h
  · cases h

end Program

/-- Whatever the checker returns has sound effects. -/
structure Checker.Sound (checker : Checker) : Prop where
  convert : ConvertArgument.Sound checker.convert
  bindReference : ConvertArgument.Sound checker.bindReference
  construct : ∀ t args e, (checker.construct t args).Returns e → e.Sound

namespace Program

variable {p : Program} {deeper : Checker}

theorem sound_closed : Checker.closed.Sound :=
  ⟨by simp [Checker.closed, ConvertArgument.Sound], by simp [Checker.closed, ConvertArgument.Sound],
    by simp [Checker.closed]⟩

theorem sound_convertStep (hp : p.Sound) (hdeeper : deeper.Sound) {source : Expr} {target : Ty}
    {mode : InitMode} {allowUser : Bool} {c : Conversion}
    (h : (p.convertStep deeper source target mode allowUser).Returns c) : c.effects.Sound := by
  unfold convertStep at h
  split at h
  · exact hdeeper.bindReference _ _ _ _ _ h
  · split at h
    · simp at h
    · split at h
      · exact sound_classConversion hp hdeeper.convert h
      · split at h
        · split at h
          · exact sound_conversionFromClass hp hdeeper.convert h
          · simp at h
        · rw [Check.returns_ofFormed] at h
          rw [effects_standardConversion h]
          exact Effects.sound_none

theorem sound_constructClass (hp : p.Sound) (hdeeper : deeper.Sound) {target : Ty}
    {args : List Expr} {e : Effects} (h : (p.constructClass deeper target args).Returns e) :
    e.Sound := by
  simp only [constructClass] at h
  split at h
  · simp at h
  · rename_i r hr
    by_cases habstract : r.facts.abstract = true
    · simp [habstract] at h
    · rw [if_neg habstract] at h
      have hresolve : ∀ {args : List Expr}, (do
          let selection ← p.resolve deeper.convert (r.candidates .constructor .direct none) none
            args true
          return selection.effects : Check Effects).Returns e → e.Sound := by
        intro args h
        obtain ⟨s, hs, h⟩ := h.bind
        rw [Check.returns_pure] at h
        exact h ▸ sound_resolve_candidates (hp.completeRecord? hr) hdeeper.convert hs
      split at h
      · split at h
        · exact Check.returns_pure.mp h ▸ Effects.sound_none
        · exact hresolve h
      · exact hresolve h

theorem sound_constructStep (hp : p.Sound) (hdeeper : deeper.Sound) {target : Ty}
    {args : List Expr} {e : Effects} (h : (p.constructStep deeper target args).Returns e) :
    e.Sound := by
  simp only [constructStep] at h
  split at h
  · split at h
    · obtain ⟨c, hc, h⟩ := h.bind
      rw [Check.returns_pure] at h
      exact h ▸ hdeeper.bindReference _ _ _ _ _ hc
    · simp at h
  · split at h
    · simp at h
    · split at h
      · split at h
        · exact hdeeper.construct _ _ _ h
        · simp at h
      · simp at h
      · split at h
        · exact sound_constructClass hp hdeeper h
        · split at h
          · exact Check.returns_pure.mp h ▸ Effects.sound_none
          · obtain ⟨c, hc, h⟩ := h.bind
            rw [Check.returns_pure] at h
            exact h ▸ hdeeper.convert _ _ _ _ _ hc
          · simp at h

theorem sound_checkerStep (hp : p.Sound) (hdeeper : deeper.Sound) :
    (p.checkerStep deeper).Sound where
  convert source target mode allowUser c h := sound_convertStep hp hdeeper h.guarded
  bindReference source target mode allowUser c h := by
    simp only [checkerStep] at h
    split at h
    · simp at h
    · have h := h.guarded
      split at h
      · rw [Check.returns_ofFormed] at h
        rw [effects_bindFunction h]
        exact Effects.sound_none
      · exact sound_bindObject hp hdeeper.convert h
  construct target args e h := sound_constructStep hp hdeeper h.guarded

theorem sound_checkerOfDepth (hp : p.Sound) (depth : Nat) : (p.checkerOfDepth depth).Sound := by
  induction depth with
  | zero => exact sound_checkerStep hp sound_closed
  | succ depth ih => exact sound_checkerStep hp ih

theorem sound_checker (hp : p.Sound) : p.checker.Sound := sound_checkerOfDepth hp _

variable {a b : Expr} {e : Effects}

theorem sound_convert (hp : p.Sound) {t : Ty} {mode : InitMode} {allowUser : Bool}
    {c : Conversion} (h : (p.convert a t mode allowUser).Returns c) : c.effects.Sound :=
  (sound_checker hp).convert _ _ _ _ _ h

theorem sound_directInit (hp : p.Sound) {t : Ty} {args : List Expr}
    (h : (p.directInit t args).Returns e) : e.Sound :=
  (sound_checker hp).construct _ _ _ h

theorem sound_copyInit (hp : p.Sound) {t : Ty} (h : (p.copyInit t a).Returns e) : e.Sound := by
  obtain ⟨c, hc, h⟩ := Check.Returns.bind h
  rw [Check.returns_pure] at h
  exact h ▸ sound_convert hp hc

theorem sound_valueInit (hp : p.Sound) {t : Ty} (h : (p.valueInit t).Returns e) : e.Sound := by
  unfold valueInit at h
  split at h
  · simp at h
  · split at h
    · exact Check.returns_pure.mp h ▸ Effects.sound_none
    · exact sound_directInit hp h

theorem sound_staticCastReference (hp : p.Sound) {t : Ty}
    (h : (p.staticCastReference t a).Returns e) : e.Sound := by
  simp only [staticCastReference] at h
  split at h
  · simp at h
  · split at h
    · exact Check.returns_pure.mp h ▸ Effects.sound_none
    · split at h
      · exact Check.returns_pure.mp h ▸ Effects.sound_none
      · obtain ⟨c, hc, h⟩ := h.bind
        rw [Check.returns_pure] at h
        exact h ▸ (sound_checker hp).bindReference _ _ _ _ _ hc

theorem sound_staticCast (hp : p.Sound) {t : Ty} (h : (p.staticCast t a).Returns e) :
    e.Sound := by
  unfold staticCast at h
  split at h
  · exact sound_staticCastReference hp h
  · split at h
    · exact Check.returns_pure.mp h ▸ Effects.sound_none
    · obtain ⟨o, ho, h⟩ := h.bind
      cases o with
      | some found => exact Check.returns_pure.mp h ▸ sound_directInit hp ho.attempt
      | none =>
        dsimp only at h
        split at h
        · exact Check.returns_pure.mp h ▸ Effects.sound_none
        · simp at h

theorem sound_assign (hp : p.Sound) (h : (p.assign a b).Returns e) : e.Sound := by
  simp only [assign] at h
  split at h
  · simp at h
  · split at h
    · split at h
      · simp at h
      · rename_i r hr
        obtain ⟨s, hs, h⟩ := h.bind
        rw [Check.returns_pure] at h
        exact h ▸ sound_resolve_candidates (hp.completeRecord? hr) (sound_checker hp).convert hs
    · split at h
      · simp at h
      · obtain ⟨c, hc, h⟩ := h.bind
        rw [Check.returns_pure] at h
        exact h ▸ sound_convert hp hc

theorem sound_destroy (hp : p.Sound) {t : Ty} (h : p.destroy t = .ok e) : e.Sound := by
  fun_induction Program.destroy p t with
  | case1 | case2 | case8 =>
    cases h
    exact Effects.sound_none
  | case5 _ _ _ ih => exact ih h
  | case13 _ _ _ _ _ _ _ _ r hr d hd =>
    cases h
    have hmem : d ∈ r.allFunctions :=
      Record.mem_allFunctions_of_mem_functions (by simp [Record.functions, hd] : d ∈
        r.functions .destructor)
    exact fun ht => (hp.completeRecord? hr d hmem ht).1
  | _ => cases h

theorem sound_indirection (hp : p.Sound) {result : Expr}
    (h : (p.indirection a).Returns (result, e)) : e.Sound := by
  unfold indirection at h
  split at h
  · split at h
    · simp at h
    · cases Check.returns_pure.mp h
      exact Effects.sound_none
  · split at h
    · simp at h
    · rename_i r hr
      obtain ⟨s, hs, h⟩ := h.bind
      cases Check.returns_pure.mp h
      exact sound_resolve_candidates (hp.class? hr) (sound_checker hp).convert hs

theorem sound_callSignature (hp : p.Sound) {s : Signature} {args : List Expr} {result : Expr}
    (h : (p.callSignature s args).Returns (result, e)) : e.Sound := by
  obtain ⟨selection, hs, h⟩ := Check.Returns.bind h
  cases Check.returns_pure.mp h
  refine (sound_resolve ?_ (sound_checker hp).convert hs).1
  intro c hc
  rw [List.mem_singleton] at hc
  subst hc
  exact ⟨FunctionDecl.sound_of_not_trivial rfl, by simp [Candidate.library]⟩

theorem sound_call (hp : p.Sound) {args : List Expr} {result : Expr}
    (h : (p.call a args).Returns (result, e)) : e.Sound := by
  unfold call at h
  split at h
  · split at h
    · split at h
      · simp at h
      · exact sound_callSignature hp h
    · simp at h
  · split at h
    · simp at h
    · rename_i r hr
      dsimp only at h
      split at h
      · simp at h
      · obtain ⟨s, hs, h⟩ := h.bind
        cases Check.returns_pure.mp h
        exact sound_resolve_candidates (hp.class? hr) (sound_checker hp).convert hs

theorem sound_memberCall (hp : p.Sound) {member : Ty} {args : List Expr} {result : Expr}
    (h : (p.memberCall a member args).Returns (result, e)) : e.Sound := by
  unfold memberCall at h
  split at h
  · simp at h
  · rename_i cls target _
    split at h
    · simp at h
    · rename_i s _
      by_cases hreceiver : p.isReceiver a cls = true
      · by_cases hcovers : s.quals.cv.covers a.type.cv = true
        · simp only [hreceiver, hcovers, Bool.not_true, Bool.false_eq_true, if_false] at h
          split at h
          · exact sound_callSignature hp h
          · split at h
            · simp at h
            · exact sound_callSignature hp h
          · split at h
            · simp at h
            · exact sound_callSignature hp h
        · simp [hreceiver, hcovers] at h
      · simp [hreceiver] at h

theorem mem_swapOwners {r : Record} (h : r ∈ p.swapOwners a b) :
    ∃ t, p.completeRecord? t = some r := by
  rw [swapOwners, List.mem_reverse] at h
  obtain ⟨⟨t, r⟩, hr, rfl⟩ := mem_foldl_firsts (fun owner : Ty × Record => owner.1)
    (fun owner => owner.2) _ _ h
  have hclasses : ∀ u, (t, r) ∈ p.swapClasses u → ∃ t, p.completeRecord? t = some r := by
    intro u hu
    simp only [swapClasses] at hu
    split at hu
    · simp at hu
    · rename_i s hs
      rcases List.mem_cons.mp hu with hu | hu
      · cases hu
        exact ⟨_, hs⟩
      · obtain ⟨base, _, hbase⟩ := List.mem_filterMap.mp hu
        obtain ⟨s, hs, heq⟩ := Option.map_eq_some_iff.mp hbase
        cases heq
        exact ⟨t, hs⟩
  rcases List.mem_append.mp hr with hr | hr
  · exact hclasses _ hr
  · exact hclasses _ hr

theorem sound_swapWith (hp : p.Sound) {library : Check (Option FunctionDecl)}
    (hlibrary : ∀ f, library.Returns (some f) → f.trivial = false)
    (h : (p.swapWith library a b).Returns e) : e.Sound := by
  simp only [swapWith] at h
  obtain ⟨o, ho, h⟩ := h.bind
  split at h
  · simp at h
  · obtain ⟨s, hs, h⟩ := h.bind
    rw [Check.returns_pure] at h
    refine h ▸ (sound_resolve ?_ (sound_checker hp).convert hs).1
    intro c hc
    rcases List.mem_append.mp hc with hc | hc
    · obtain ⟨r, hr, hc⟩ := List.mem_flatMap.mp hc
      obtain ⟨t, ht⟩ := mem_swapOwners hr
      exact Record.sound_of_mem_candidates (hp.completeRecord? ht) c hc
    · rw [Option.mem_toList, Option.map_eq_some_iff] at hc
      obtain ⟨f, rfl, rfl⟩ := hc
      exact ⟨FunctionDecl.sound_of_not_trivial (hlibrary f ho), by simp [Candidate.library]⟩

theorem stdSwap_not_trivial {t : Ty} {f : FunctionDecl} (h : (p.stdSwap t).Returns (some f)) :
    f.trivial = false := by
  unfold stdSwap at h
  obtain ⟨o, _, h⟩ := h.bind
  rw [Check.returns_pure] at h
  obtain ⟨effects, _, rfl⟩ := Option.map_eq_some_iff.mp h
  rfl

theorem sound_swap (hp : p.Sound) (h : (p.swap a b).Returns e) : e.Sound := by
  refine sound_swapWith hp ?_ h
  intro f hf
  split at hf
  · exact stdSwap_not_trivial hf
  · simp at hf

end Program
end TypeTraits
