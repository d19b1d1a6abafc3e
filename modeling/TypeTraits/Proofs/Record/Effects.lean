import TypeTraits.Proofs.Expr.TrivialBinding
import TypeTraits.Proofs.Program.Development
import TypeTraits.Trait.Invocation
import TypeTraits.Trait.Swap

/-!
# Trivial functions do not throw

The functions of a record are defined by expressions over the records completed before, and the
effects of expressions come from the functions of complete records. So soundness of both is one
invariant of programs under development. The outcome of a synthesis is sound from the start and
stays so with each subobject; what the user writes is not trivial, hence sound.
-/

namespace TypeTraits

namespace Outcome

/-- A trivial outcome does not throw. -/
def Sound (o : Outcome) : Prop := o.trivial = true → o.noexcept = true

theorem sound_impossible : impossible.Sound := by simp [Sound, impossible]

theorem Sound.absorb {o : Outcome} {e : Effects} (ho : o.Sound) (he : e.Sound) :
    (o.absorb e).Sound := by
  intro h
  simp only [Outcome.absorb, Bool.and_eq_true] at h ⊢
  exact ⟨ho h.1, he h.2⟩

theorem Sound.apply {o : Outcome} (ho : o.Sound) (f : FunctionDecl) : (o.apply f).Sound := by
  intro h
  simp only [Outcome.apply, Bool.and_eq_true, Bool.not_eq_true'] at h ⊢
  exact ⟨ho h.1, h.2⟩

theorem Sound.implicitly {o : Outcome} (ho : o.Sound) (params : List Ty) (result : Ty) :
    (o.implicitly params result).Sound :=
  ho.apply _

/-- Soundness goes through subobjects if it goes through each. -/
theorem sound_through {step : Outcome → MemberObject → Check (Option Outcome)}
    {objects : List MemberObject} {o result : Outcome}
    (hstep : ∀ o m next, o.Sound → (step o m).Returns (some next) → next.Sound) (ho : o.Sound)
    (h : (through step o objects).Returns result) : result.Sound := by
  induction objects generalizing o with
  | nil => exact Check.returns_pure.mp h ▸ ho
  | cons m rest ih =>
    obtain ⟨next, hnext, h⟩ := Check.Returns.bind h
    cases next with
    | none => exact Check.returns_pure.mp h ▸ sound_impossible
    | some next => exact ih (hstep o m next ho hnext) h

end Outcome

namespace Synthesis

variable {s : Synthesis} {result : Outcome}

theorem sound_unionDefaultConstructor (h : s.unionDefaultConstructor.Returns result) :
    result.Sound := by
  refine Outcome.sound_through ?_ (fun _ => rfl) h
  intro o m next ho hnext
  split at hnext
  · simp at hnext
  · obtain ⟨effects, _, hnext⟩ := hnext.bind
    split at hnext
    · cases Check.returns_pure.mp hnext
      exact ho
    · split at hnext
      · cases Check.returns_pure.mp hnext
        simp [Outcome.Sound]
      · simp at hnext

theorem sound_defaultConstructor (hp : s.program.Sound)
    (h : s.defaultConstructor.Returns result) : result.Sound := by
  unfold defaultConstructor at h
  split at h
  · exact sound_unionDefaultConstructor h
  · refine Outcome.sound_through ?_ (fun _ => rfl) h
    intro o m next ho hnext
    rcases s.tells_returns.defaultStep_cases hnext with ⟨_, rfl⟩ | ⟨_, e, he, _, rfl⟩
    · simp [Outcome.Sound]
    · exact ho.absorb (Program.sound_directInit hp he)

theorem sound_constructFrom (hp : s.program.Sound) {copies : Bool} {arg : Ty → Expr}
    (h : (s.constructFrom copies arg).Returns result) : result.Sound := by
  refine Outcome.sound_through ?_ (fun _ => rfl) h
  intro o m next ho hnext
  rcases s.tells_returns.constructStep_cases hnext with
    ⟨_, rfl⟩ | ⟨_, e, he, ⟨_, _, rfl⟩ | ⟨_, _, rfl⟩⟩
  · exact ho
  · exact ho
  · exact ho.absorb (Program.sound_directInit hp he)

theorem sound_assignFrom (hp : s.program.Sound) {arg : Ty → Expr}
    (h : (s.assignFrom arg).Returns result) : result.Sound := by
  refine Outcome.sound_through ?_ (fun _ => rfl) h
  intro o m next ho hnext
  obtain ⟨_, e, he, ⟨_, _, rfl⟩ | ⟨_, rfl⟩⟩ := s.tells_returns.assignStep_cases hnext
  · exact ho
  · exact ho.absorb (Program.sound_assign hp he)

theorem sound_destructor (hp : s.program.Sound) (h : s.destructor.Returns result) :
    result.Sound := by
  refine Outcome.sound_through ?_ (fun _ => rfl) h
  intro o m next ho hnext
  rcases s.tells_returns.destroyStep_cases hnext with ⟨_, rfl⟩ | ⟨_, e, he, rfl⟩
  · exact ho
  · exact ho.absorb (Program.sound_destroy hp he)

theorem sound_of_yields (hp : s.program.Sound) {kind : Special} (h : s.Yields kind result) :
    result.Sound := by
  cases h with
  | impossible => exact Outcome.sound_impossible
  | default h => exact sound_defaultConstructor hp h
  | construct copies arg _ h => exact sound_constructFrom hp h
  | assign arg _ h => exact sound_assignFrom hp h

theorem sound_of_defines (hp : s.program.Sound) {kind : Special} {f base : FunctionDecl}
    (h : s.Defines kind f base) : f.Sound := by
  obtain ⟨o, _, _, ho, rfl⟩ := h
  exact (sound_of_yields hp ho).apply base

theorem sound_completeDestructor (hp : s.program.Sound) {draft : Draft} {inheritsVirtual : Bool}
    {f : FunctionDecl} (hwritten : ∀ f ∈ draft.record.allFunctions, f.IsUserWritten)
    (h : (s.completeDestructor draft inheritsVirtual).Returns f) : f.Sound := by
  unfold completeDestructor at h
  obtain ⟨o, ho, h⟩ := h.bind
  have ho := sound_destructor hp ho
  -- Being virtual costs triviality and nothing else.
  have hvirtual : ∀ f : FunctionDecl, f.Sound →
      (if f.isVirtual then { f with trivial := false } else f).Sound := by
    intro f hf
    split
    · exact FunctionDecl.sound_of_not_trivial rfl
    · exact hf
  have hinherits : ∀ f : FunctionDecl, f.Sound →
      (if inheritsVirtual then { f with isVirtual := true } else f).Sound := by
    intro f hf
    split
    · exact (hf : FunctionDecl.Sound { f with isVirtual := true })
    · exact hf
  cases Check.returns_pure.mp h
  refine hvirtual _ (hinherits _ ?_)
  split
  · exact ho.implicitly _ _
  · rename_i declared hdeclared
    split
    · exact ho.apply _
    · exact FunctionDecl.sound_of_not_trivial rfl
    all_goals
      refine FunctionDecl.sound_of_not_trivial (hwritten declared ?_).trivial
      simp [Record.allFunctions, hdeclared]

/-- Completing a record over a sound program gives a sound record. -/
theorem sound_complete (hp : s.program.Sound) {draft : Draft} {inheritsVirtual : Bool}
    {r : Record} (hwritten : ∀ f ∈ draft.record.allFunctions, f.IsUserWritten)
    (h : (s.complete draft inheritsVirtual).Returns r) : r.Sound := by
  obtain ⟨constructors, assignments, destructor, rfl, hconstructors, hassignments, hdestructor⟩ :=
    complete_returns h
  have hdeclared : ∀ f ∈ draft.record.allFunctions, f.Sound := fun f hf =>
    FunctionDecl.sound_of_not_trivial (hwritten f hf).trivial
  simp only [Record.allFunctions, List.append_assoc, List.mem_append] at hdeclared
  intro f hf
  simp only [Record.allFunctions, List.append_assoc, List.mem_append, Option.toList_some,
    List.mem_singleton] at hf
  rcases hf with hf | hf | rfl | hf
  · rcases hconstructors f hf with hf | ⟨_, _, _, hf⟩
    · exact hdeclared f (Or.inl hf)
    · exact sound_of_defines hp hf
  · rcases hassignments f hf with hf | ⟨_, _, _, hf⟩
    · exact hdeclared f (Or.inr (Or.inl hf))
    · exact sound_of_defines hp hf
  · exact sound_completeDestructor hp hwritten hdestructor
  · exact hdeclared f (Or.inr (Or.inr (Or.inr hf)))

end Synthesis

namespace Program

/-- Effects that some operation returns, alone or as part of what it returns. -/
inductive Evaluates (p : Program) : Effects → Prop
  | convert {e t mode allowUser c} : (p.convert e t mode allowUser).Returns c →
      Evaluates p c.effects
  | directInit {t args effects} : (p.directInit t args).Returns effects → Evaluates p effects
  | copyInit {t e effects} : (p.copyInit t e).Returns effects → Evaluates p effects
  | valueInit {t effects} : (p.valueInit t).Returns effects → Evaluates p effects
  | staticCast {t e effects} : (p.staticCast t e).Returns effects → Evaluates p effects
  | assign {a b effects} : (p.assign a b).Returns effects → Evaluates p effects
  | destroy {t effects} : p.destroy t = .ok effects → Evaluates p effects
  | indirection {e result effects} : (p.indirection e).Returns (result, effects) →
      Evaluates p effects
  | call {callee args result effects} : (p.call callee args).Returns (result, effects) →
      Evaluates p effects
  | memberCall {object member args result effects} :
      (p.memberCall object member args).Returns (result, effects) → Evaluates p effects
  | swap {a b effects} : (p.swap a b).Returns effects → Evaluates p effects
  /-- Overload resolution among functions that a complete record declares. -/
  | resolve {t r set mode cls object args allowUser s} : p.completeRecord? t = some r →
      (p.resolve p.checker.convert (r.candidates set mode cls) object args allowUser).Returns s →
      Evaluates p s.effects
  | invoke {s : Solver} {callable args i} : s.program = p → s.invoke callable args = .ok i →
      Evaluates p i.effects
  | swapBothWays {s : Solver} {t u effects} : s.program = p → s.swapBothWays t u = .ok effects →
      Evaluates p effects

theorem sound_receiver {s : Solver} (hp : s.program.Sound) {cls arg : Ty} {receiver : Receiver}
    {object : Expr} {e : Effects} (h : (s.receiver cls arg).Returns (receiver, object, e)) :
    e.Sound := by
  simp only [Solver.receiver] at h
  obtain ⟨found, _, h⟩ := h.bind
  split at h
  · cases Check.returns_pure.mp h
    exact Effects.sound_none
  · split at h
    · cases Check.returns_pure.mp h
      exact Effects.sound_none
    · obtain ⟨⟨target, effects⟩, heffects, h⟩ := h.bind
      cases Check.returns_pure.mp h
      exact sound_indirection hp heffects

theorem sound_invoke {s : Solver} (hp : s.program.Sound) {callable : Ty} {args : List Ty}
    {i : Invocation} (h : s.invoke callable args = .ok i) : i.effects.Sound := by
  replace h := Check.Returns.of_result h
  split at h
  · rename_i cls member _
    unfold Solver.invokeMember at h
    split at h
    · simp at h
    · obtain ⟨_, _, h⟩ := h.bind
      obtain ⟨⟨receiver, object, reached⟩, hreached, h⟩ := h.bind
      have hreached := sound_receiver hp hreached
      dsimp only at h
      split at h
      · obtain ⟨exprs, _, h⟩ := h.bind
        obtain ⟨⟨result, effects⟩, heffects, h⟩ := h.bind
        cases Check.returns_pure.mp h
        exact hreached.and (sound_memberCall hp heffects)
      · obtain ⟨accessed, _, h⟩ := h.bind
        rw [pure_bind] at h
        cases Check.returns_pure.mp h
        exact hreached.and Effects.sound_none
  · obtain ⟨f, _, h⟩ := Check.Returns.bind h
    obtain ⟨exprs, _, h⟩ := h.bind
    obtain ⟨⟨result, effects⟩, heffects, h⟩ := h.bind
    cases Check.returns_pure.mp h
    exact sound_call hp heffects

theorem sound_swapBothWays {s : Solver} (hp : s.program.Sound) {t u : Ty} {e : Effects}
    (h : s.swapBothWays t u = .ok e) : e.Sound := by
  unfold Solver.swapBothWays at h
  cases ha : Expr.declval t with
  | error _ => rw [ha] at h; cases h
  | ok a =>
    cases hb : Expr.declval u with
    | error _ => rw [ha, hb] at h; cases h
    | ok b =>
      rw [ha, hb] at h
      obtain ⟨forward, hforward, h⟩ := (Check.Returns.of_result h).bind
      obtain ⟨backward, hbackward, h⟩ := h.bind
      exact Check.returns_pure.mp h ▸ (sound_swap hp hforward).and (sound_swap hp hbackward)

theorem Sound.evaluates {p : Program} (hp : p.Sound) {e : Effects} (h : p.Evaluates e) :
    e.Sound := by
  cases h with
  | convert h => exact sound_convert hp h
  | directInit h => exact sound_directInit hp h
  | copyInit h => exact sound_copyInit hp h
  | valueInit h => exact sound_valueInit hp h
  | staticCast h => exact sound_staticCast hp h
  | assign h => exact sound_assign hp h
  | destroy h => exact sound_destroy hp h
  | indirection h => exact sound_indirection hp h
  | call h => exact sound_call hp h
  | memberCall h => exact sound_memberCall hp h
  | swap h => exact sound_swap hp h
  | resolve hr h =>
    exact sound_resolve_candidates (hp.completeRecord? hr) (sound_checker hp).convert h
  | invoke hs h => exact sound_invoke (hs ▸ hp) h
  | swapBothWays hs h => exact sound_swapBothWays (hs ▸ hp) h

end Program

namespace Development

/-- The programs of developments are sound. -/
theorem Reachable.sound {d : Development} (h : d.Reachable) : d.program.Sound := by
  refine Reachable.forall_complete (Q := fun _ r => r.Sound) (fun _ _ _ _ hr => hr) ?_ h
  intro d draft r hd hsound hc
  obtain ⟨done, layout, hdone, _, rfl⟩ := Program.completeRecord_eq_some hc.completed
  have hp : (d.program.synthesis draft.record).program.Sound := hsound
  have hr : done.Sound := Synthesis.sound_complete hp hc.written hdone
  exact hr

/-- The compiler makes special members trivial, and nothing else. -/
theorem Reachable.trivialFunctions {d : Development} (h : d.Reachable) :
    d.program.TrivialFunctions := by
  have hrecords := Reachable.forall_complete (Q := fun _ r => r.TrivialFunctions)
    (fun _ _ _ _ hr => hr) ?_ h
  · exact fun id r hr hc => ⟨h.valid.id id r hr, hrecords id r hr hc⟩
  · intro d draft r _ _ hc
    obtain ⟨done, layout, hdone, _, rfl⟩ := Program.completeRecord_eq_some hc.completed
    obtain ⟨constructors, assignments, destructor, rfl, hconstructors, _⟩ :=
      Synthesis.complete_returns hdone
    refine ⟨?_, ?_⟩
    · intro f hf ht
      rcases hconstructors f hf with hf | ⟨kind, base, hspecial, o, _, _, _, rfl⟩
      · have := (hc.written f (by simp [Record.allFunctions, hf])).trivial
        simp [ht] at this
      · exact Option.isSome_of_eq_some hspecial
    · intro f hf
      exact (hc.written f (by
        simp only [Record.allFunctions, List.mem_append]
        exact Or.inl (Or.inl (Or.inl (Or.inr hf))))).trivial

/-- In every complete record a trivial function neither throws nor is deleted, and evaluation of
any operation that is trivial does not throw. -/
theorem nothrow_of_trivial {d : Development} (h : d.Reachable) :
    (∀ id r, d.program.record? id = some r → r.complete = true →
      ∀ f ∈ r.allFunctions, f.trivial = true → f.noexcept = true ∧ f.deleted = false) ∧
    ∀ e, d.program.Evaluates e → e.trivial = true → e.nothrow = true :=
  ⟨fun id r hr hc => h.sound id r hr hc, fun _ he => h.sound.evaluates he⟩

/-- A class with a base that only its default constructor makes throwing, and an array of it. -/
def derivedWithArray : Development :=
  performAll { program := { target := .lp64 } }
    [.start "Base" .struct,
      .write ⟨1⟩ (.member "x" (.builtin .int)),
      .write ⟨1⟩ (.constructor (.declare [] .void [])),
      .finish ⟨1⟩,
      .start "Derived" .cls,
      .write ⟨2⟩ (.base (.record ⟨1⟩)),
      .write ⟨2⟩ (.member "parts" (.array (.record ⟨1⟩) (some 2))),
      .finish ⟨2⟩]

theorem reachable_derivedWithArray : derivedWithArray.Reachable := by
  refine (Reachable.fresh .lp64).performAll ?_
  intro a ha
  simp only [List.mem_cons, List.not_mem_nil, or_false] at ha
  rcases ha with rfl | rfl | rfl | rfl | rfl | rfl | rfl | rfl
  case inr.inr.inl => exact RecordStep.isWritten_of_declare rfl (by decide)
  all_goals first | trivial | exact RecordStep.isWritten_of_types rfl (by decide)

theorem nothrow_of_trivial_derivedWithArray :
    derivedWithArray.Reachable ∧
    (∃ r, derivedWithArray.program.record? ⟨2⟩ = some r ∧ r.complete = true ∧
      ∃ f ∈ r.allFunctions, f.trivial = true ∧ f.noexcept = true ∧ f.deleted = false) ∧
    ∃ e, derivedWithArray.program.Evaluates e ∧ e.trivial = true ∧ e.nothrow = true := by
  have h := nothrow_of_trivial reachable_derivedWithArray
  have copiesTrivially : derivedWithArray.program.Evaluates ⟨true, true⟩ :=
    @Program.Evaluates.directInit _ (.record ⟨2⟩) [.lvalue (.record ⟨2⟩)] _
      (Check.Returns.of_result (by decide +kernel))
  refine ⟨reachable_derivedWithArray, ?_, ⟨true, true⟩, ?_, rfl, ?_⟩
  · have hr : ((derivedWithArray.program.record? ⟨2⟩).any fun r =>
        r.complete && r.allFunctions.any (·.trivial)) = true := by decide +kernel
    obtain ⟨r, hr, hc⟩ := (Option.any_eq_true _ _).mp hr
    simp only [Bool.and_eq_true, List.any_eq_true] at hc
    obtain ⟨hc, f, hf, ht⟩ := hc
    exact ⟨r, hr, hc, f, hf, ht, h.1 _ r hr hc f hf ht⟩
  · exact copiesTrivially
  · exact h.2 ⟨true, true⟩ copiesTrivially rfl

end Development
end TypeTraits
