import TypeTraits.Proofs.Record.Effects
import TypeTraits.Trait.Construction
import TypeTraits.Trait.Destruction

/-!
# Two ways to ask for a construction

The provider answers from a direct initialization and a destruction; the fallback goes through
arrays, tests an expression for objects and a copy-initialization or a cast for references. What
either of them constructs can be destroyed, and what the provider constructs trivially the fallback
constructs as well.
-/

namespace TypeTraits

theorem Check.filterMapM_pure {α β : Type} (f : α → Option β) (l : List α) :
    (l.filterMapM fun a => (pure (f a) : Check (Option β))) = pure (l.filterMap f) := by
  induction l with
  | nil => rfl
  | cons a l ih =>
    rw [List.filterMapM_cons, pure_bind, ih, List.filterMap_cons]
    cases f a <;> simp

namespace Expr

theorem declvals_cons {a : Ty} {args : List Ty} {exprs : List Expr}
    (h : declvals (a :: args) = .ok exprs) :
    ∃ e rest, exprs = e :: rest ∧ declval a = .ok e ∧ declvals args = .ok rest := by
  rw [declvals, List.mapM_cons] at h
  cases ha : declval a with
  | error _ => simp [ha, bind, Except.bind] at h
  | ok e =>
    cases hargs : args.mapM declval with
    | error _ => simp [ha, hargs, bind, Except.bind] at h
    | ok rest =>
      rw [ha, hargs] at h
      cases h
      exact ⟨e, rest, rfl, rfl, hargs⟩

theorem isNormal_of_declval {t : Ty} {e : Expr} (ht : t.isNormal = true) (h : declval t = .ok e) :
    e.type.isNormal = true := by
  cases t with
  | lvalueRef t =>
    cases h
    exact (Ty.isNormal_of_referent? ht rfl).1
  | rvalueRef t =>
    cases h
    split <;> exact (Ty.isNormal_of_referent? ht rfl).1
  | function r ps q =>
    simp only [declval] at h
    split at h
    · cases h
    · cases h
      exact ht
  | functionNamed _ | unknown _ => cases h
  | _ =>
    cases h
    split
    · rfl
    · exact ht

theorem unqualified_of_declval {t : Ty} {e : Expr} (h : declval t = .ok e) :
    e.type.unqualified = t.removeCvref := by
  cases t with
  | lvalueRef t => cases h; rfl
  | rvalueRef t => cases h; split <;> rfl
  | function r ps q =>
    simp only [declval] at h
    split at h <;> cases h
    rfl
  | functionNamed _ | unknown _ => cases h
  | qualified t cv =>
    cases h
    cases t <;> rfl
  | _ => cases h; rfl

end Expr

namespace Program

variable {p : Program}

/-- Without arguments overload resolution runs no check. -/
theorem resolve_nil (candidates : List Candidate) (allowUser : Bool) :
    ∃ r, ∀ convert, p.resolve convert candidates none [] allowUser = Check.ofFormed r := by
  -- Which candidates are viable is known at once.
  have hviable : ∃ viable : Candidate → Option (List (Option Conversion)), ∀ convert c,
      p.viableConversions convert none [] allowUser c = pure (viable c) := by
    refine ⟨fun c => if c.id.set = .conversion then none
      else if 0 < c.function.params.length ∨ c.object.isSome then none else some [none], ?_⟩
    intro convert c
    by_cases hset : c.id.set = .conversion
    · simp [viableConversions, hset]
    · cases hparams : c.function.params <;> cases hobject : c.object <;>
        simp [viableConversions, argumentConversions, hset, hparams, hobject]
  obtain ⟨viable, hviable⟩ := hviable
  refine ⟨(p.resolve (fun _ _ _ _ => throw .recursionLimit) candidates none [] allowUser).result,
    ?_⟩
  intro convert
  simp only [resolve, hviable, pure_bind, Check.filterMapM_pure]
  split
  · rfl
  · cases Candidate.best? (candidates.filterMap fun c => (viable c).map (c, ·)) <;> rfl

/-- Without arguments only arrays run a nested check. -/
theorem constructStep_nil {t : Ty} (harray : t.isArray = false) :
    ∃ r, ∀ deeper, p.constructStep deeper t [] = Check.ofFormed r := by
  have hclass : ∃ r, ∀ deeper, p.constructClass deeper t [] = Check.ofFormed r := by
    cases hr : p.completeRecord? t.unqualified with
    | none => exact ⟨.error .incompleteType, fun _ => by simp only [constructClass, hr]; rfl⟩
    | some r =>
      obtain ⟨selected, hselected⟩ := p.resolve_nil (r.candidates .constructor .direct none) true
      by_cases habstract : r.facts.abstract = true
      · refine ⟨.error .abstractClass, fun _ => ?_⟩
        simp only [constructClass, hr, habstract, if_true]
        rfl
      · refine ⟨selected.map (·.effects), fun deeper => ?_⟩
        simp only [constructClass, hr, habstract, hselected]
        cases selected <;> rfl
  obtain ⟨r, hr⟩ := hclass
  by_cases hreference : t.isReference = true
  · exact ⟨.error .wrongArity, fun _ => by unfold constructStep; rw [if_pos hreference]; rfl⟩
  · by_cases hobject : (t.isVoid || t.isFunction) = true
    · refine ⟨.error .notAnObject, fun _ => ?_⟩
      unfold constructStep
      rw [if_neg hreference, if_pos hobject]
      rfl
    · by_cases hrecord : t.isRecord = true
      · refine ⟨r, fun deeper => ?_⟩
        rw [← hr deeper]
        unfold constructStep
        rw [if_neg hreference, if_neg hobject]
        cases t <;> simp_all [Ty.isArray, Ty.arrayParts?]
      · refine ⟨.ok .none, fun deeper => ?_⟩
        unfold constructStep
        rw [if_neg hreference, if_neg hobject]
        cases t <;> simp_all [Ty.isArray, Ty.arrayParts?] <;> rfl

/-- What any checker constructs from no arguments, the outermost one does. -/
theorem directInit_nil {t : Ty} {deeper : Checker} {e : Effects} (harray : t.isArray = false)
    (h : (p.constructStep deeper t []).Returns e) : (p.directInit t []).result = .ok e := by
  obtain ⟨r, hr⟩ := p.constructStep_nil harray
  rw [hr, Check.returns_ofFormed] at h
  subst h
  rw [Check.result, directInit, checker_eq]
  refine (congrArg Prod.fst (Check.run_guarded_of_room (by decide) (by decide) ?_)).trans ?_
  · simp [Guard.fresh]
  · rw [hr, Check.run_ofFormed]

end Program

namespace Solver

variable {s : Solver} {t : Ty} {args : List Ty}

/-- The construction that is tested depends on the program alone. -/
theorem construct_congr {s' : Solver} (h : s.program = s'.program) :
    s.construct t args = s'.construct t args := by
  obtain ⟨p, _, _⟩ := s
  obtain ⟨q, _, _⟩ := s'
  cases h
  induction t using Ty.inductionOn generalizing args with
  | array t b ih => cases b <;> simp [Solver.construct, @ih []]
  | _ => rfl

/-- The provider's construction is a direct initialization of an object that can be destroyed. -/
theorem construction_eq_some {p : Program} {e : Effects} :
    Introspection.construction p t args = some e ↔ ∃ exprs, Expr.declvals args = .ok exprs ∧
      (p.directInit t exprs).result = .ok e ∧
      (t.isReference = true ∨ (p.destroy t).isOk = true) := by
  unfold Introspection.construction
  cases hexprs : Expr.declvals args with
  | error _ => simp [Except.toOption]
  | ok exprs =>
    cases hinit : (p.directInit t exprs).result with
    | error _ => simp [Except.toOption, hinit]
    | ok effects =>
      cases t.isReference <;> cases (p.destroy t).isOk <;> simp [Except.toOption, hinit]

theorem not_isVoid_of_directInit {p : Program} {exprs : List Expr} {e : Effects}
    (hreference : t.isReference = false) (h : (p.directInit t exprs).Returns e) :
    (t.isVoid || t.isFunction) = false := by
  unfold Program.directInit at h
  rw [Program.checker_eq] at h
  obtain ⟨deeper, h⟩ := Program.construct_returns h
  unfold Program.constructStep at h
  rw [hreference, if_neg Bool.false_ne_true] at h
  split at h
  · simp at h
  · rename_i hobject
    simpa using hobject

/-- The expression that the fallback tests for an object is a direct initialization. -/
theorem constructObject_of_declvals {exprs : List Expr} (hreference : t.isReference = false)
    (hobject : (t.isVoid || t.isFunction) = false) (hexprs : Expr.declvals args = .ok exprs) :
    s.constructObject t args = do
      let effects ← (s.program.directInit t exprs).result
      let destruction ← s.program.destroy t
      return effects.and destruction := by
  have hvoid : t.isVoid = false := (Bool.or_eq_false_iff.mp hobject).1
  have hfunction : t.isFunction = false := (Bool.or_eq_false_iff.mp hobject).2
  unfold constructObject
  simp only [hobject, hexprs, Except.mapError, Bool.false_eq_true, if_false]
  cases exprs with
  | nil =>
    simp only [Program.valueInit, hreference, hvoid, Bool.false_eq_true, if_false]
    rfl
  | cons first rest =>
    cases rest with
    | nil =>
      simp only [Program.newExpression, hreference, hvoid, hfunction, Bool.or_self,
        Bool.false_eq_true, if_false]
      rfl
    | cons second rest => rfl

/-- For objects the fallback constructs what the provider does. -/
theorem constructObject_isOk_iff (hreference : t.isReference = false) :
    (s.constructObject t args).isOk = true ↔
      (Introspection.construction s.program t args).isSome = true := by
  simp only [Option.isSome_iff_exists, construction_eq_some, hreference, Bool.false_eq_true,
    false_or]
  cases hobject : t.isVoid || t.isFunction with
  | true =>
    have herror : s.constructObject t args = .error .notAnObject := by
      unfold constructObject
      rw [hobject]
      rfl
    rw [herror]
    constructor
    · intro h
      cases h
    · rintro ⟨e, exprs, _, hinit, _⟩
      rw [not_isVoid_of_directInit hreference (Check.Returns.of_result hinit)] at hobject
      cases hobject
  | false =>
    cases hexprs : Expr.declvals args with
    | error _ =>
      have herror : s.constructObject t args = .error .incompleteType := by
        unfold constructObject
        rw [hobject, hexprs]
        rfl
      rw [herror]
      constructor
      · intro h
        cases h
      · rintro ⟨e, exprs, h, _⟩
        cases h
    | ok exprs =>
      rw [constructObject_of_declvals hreference hobject hexprs]
      cases hinit : (s.program.directInit t exprs).result with
      | error _ =>
        constructor
        · intro h
          cases h
        · rintro ⟨e, _, hsame, h, _⟩
          cases hsame
          rw [hinit] at h
          cases h
      | ok effects =>
        cases hdestroy : s.program.destroy t with
        | error _ =>
          constructor
          · intro h
            cases h
          · rintro ⟨_, _, _, _, h⟩
            cases h
        | ok destruction => exact ⟨fun _ => ⟨effects, exprs, rfl, hinit, rfl⟩, fun _ => rfl⟩

theorem destroy_of_construct (h : (s.construct t args).isOk = true) :
    (s.program.destroy t).isOk = true := by
  induction t using Ty.inductionOn generalizing args with
  | array t b ih =>
    cases b with
    | none => simp [construct, Except.isOk, Except.toBool] at h
    | some n =>
      rw [construct] at h
      split at h
      · simpa [Program.destroy] using ih h
      · simp [Except.isOk, Except.toBool] at h
  | lvalueRef t _ | rvalueRef t _ => rfl
  | _ =>
    simp only [construct, Ty.referent?] at h
    rw [constructObject_isOk_iff rfl] at h
    obtain ⟨e, h⟩ := Option.isSome_iff_exists.mp h
    obtain ⟨_, _, _, h⟩ := construction_eq_some.mp h
    exact h.resolve_left (by simp [Ty.isReference, Ty.referent?])

/-- Direct initialization of a reference takes one argument. -/
theorem single_of_directInit {p : Program} {exprs : List Expr} {e : Effects}
    (hreference : t.isReference = true) (hexprs : Expr.declvals args = .ok exprs)
    (h : (p.directInit t exprs).Returns e) :
    ∃ a expr, args = [a] ∧ exprs = [expr] ∧ Expr.declval a = .ok expr := by
  rw [Program.directInit, Program.checker_eq] at h
  obtain ⟨deeper, h⟩ := Program.construct_returns h
  unfold Program.constructStep at h
  rw [if_pos hreference] at h
  split at h
  · cases args with
    | nil => simp [Expr.declvals, pure, Except.pure] at hexprs
    | cons a as =>
      obtain ⟨_, rest, heq, ha, has⟩ := Expr.declvals_cons hexprs
      cases heq
      cases as with
      | nil => exact ⟨a, _, rfl, rfl, ha⟩
      | cons b bs =>
        obtain ⟨_, _, heq, _⟩ := Expr.declvals_cons has
        cases heq
  · simp at h

/-- A reference is copy-initialized where that is possible, and cast to otherwise; the cast takes
its steps under the guard that the attempt left. -/
theorem constructReference_eq {source : Ty} {e : Expr} {toRvalue : Bool}
    (he : Expr.declval source = .ok e) :
    s.constructReference t toRvalue source =
      match (s.program.copyInit t e).result with
      | .ok effects => .ok effects
      | .error _ => do
        let effects ← ((s.program.staticCastReference t e).run
          ((s.program.copyInit t e).run (.fresh .initialization)).2).1
        if s.isCastOnly t toRvalue source then throw .invalidReceiver
        return effects := by
  have hpure : Expr.declval source = pure e := he
  unfold constructReference
  rw [hpure, pure_bind]
  rcases hcopy : (s.program.copyInit t e).run (.fresh .initialization) with ⟨_ | effects, g⟩
  · simp only [Check.result, Check.run_bind, Check.run_attempt, hcopy, Except.toOption]
    rcases (s.program.staticCastReference t e).run g with ⟨_ | _, _⟩ <;> rfl
  · simp only [Check.result, Check.run_bind, Check.run_attempt, hcopy, Except.toOption]
    rfl

/-- Element by element the fallback constructs what a checker of any depth does. -/
theorem construct_of_returns {depth : Nat} {e : Effects}
    (h : ((s.program.checkerBelow depth).construct t []).Returns e)
    (hdestroy : (s.program.destroy t).isOk = true) : (s.construct t []).isOk = true := by
  induction t using Ty.inductionOn generalizing depth with
  | array t b ih =>
    obtain ⟨deeper, h⟩ := Program.construct_returns h
    cases b with
    | none => simp [Program.destroy, Except.isOk, Except.toBool] at hdestroy
    | some n =>
      simp only [Program.destroy, Option.isSome_some, if_true] at hdestroy
      rw [construct]
      exact ih h hdestroy
  | lvalueRef t _ | rvalueRef t _ =>
    obtain ⟨deeper, h⟩ := Program.construct_returns h
    simp [Program.constructStep, Ty.isReference, Ty.referent?] at h
  | _ =>
    obtain ⟨deeper, h⟩ := Program.construct_returns h
    simp only [construct, Ty.referent?]
    rw [constructObject_isOk_iff rfl, Option.isSome_iff_exists]
    exact ⟨e, construction_eq_some.mpr
      ⟨[], rfl, Program.directInit_nil rfl h, Or.inr hdestroy⟩⟩

theorem construct_eq_constructObject (harray : t.isArray = false)
    (hreference : t.isReference = false) : s.construct t args = s.constructObject t args := by
  cases t <;> simp_all [construct, Ty.isArray, Ty.arrayParts?, Ty.isReference, Ty.referent?]

theorem construct_of_construction {e : Effects} (hreference : t.isReference = false)
    (h : Introspection.construction s.program t args = some e) :
    (s.construct t args).isOk = true := by
  by_cases harray : t.isArray = true
  · obtain ⟨exprs, hexprs, hinit, hdestroy⟩ := construction_eq_some.mp h
    have hreturns := Check.Returns.of_result hinit
    rw [Program.directInit, Program.checker_eq] at hreturns
    cases args with
    | nil =>
      cases hexprs
      exact construct_of_returns hreturns (hdestroy.resolve_left (by simp [hreference]))
    | cons a as =>
      obtain ⟨deeper, hstep⟩ := Program.construct_returns hreturns
      cases t <;> simp only [Ty.isArray, Ty.arrayParts?, Option.isSome_none, Bool.false_eq_true]
        at harray
      rename_i u b
      obtain ⟨_, _, rfl, _⟩ := Expr.declvals_cons hexprs
      cases b <;>
        simp [Program.constructStep, Ty.isReference, Ty.referent?, Ty.isVoid, Ty.core,
          Ty.isFunction] at hstep
  · rw [construct_eq_constructObject (by simpa using harray) hreference,
      constructObject_isOk_iff hreference, h]
    rfl

/-- What the provider constructs trivially, the fallback constructs. -/
theorem construct_of_trivial_construction (hp : s.program.TrivialFunctions)
    (ht : t.isNormal = true) (hargs : ∀ a ∈ args, a.isNormal = true) {e : Effects}
    (h : Introspection.construction s.program t args = some e) (htrivial : e.trivial = true) :
    (s.construct t args).isOk = true := by
  cases hreference : t.isReference with
  | false => exact construct_of_construction hreference h
  | true =>
    obtain ⟨exprs, hexprs, hinit, -⟩ := construction_eq_some.mp h
    have hreturns := Check.Returns.of_result hinit
    obtain ⟨source, e', rfl, rfl, he⟩ := single_of_directInit hreference hexprs hreturns
    have hcopy := Program.copyInit_of_trivial_directInit hp ht hreference
      (Expr.isNormal_of_declval (hargs source List.mem_cons_self) he) hreturns htrivial
    cases t <;> simp only [Ty.isReference, Ty.referent?, Option.isSome_none, Bool.false_eq_true]
      at hreference
    all_goals
      simp only [construct, Ty.referent?]
      rw [constructReference_eq he, hcopy]
      rfl

theorem destruction_of_destroy (h : (s.program.destroy t).isOk = true) :
    (s.destruction t).isOk = true := by
  have helement : (s.program.destroy t.element).isOk = true := by
    induction t using Ty.inductionOn with
    | array t b ih =>
      simp only [Program.destroy] at h
      split at h
      · exact ih h
      · simp [Except.isOk, Except.toBool] at h
    | _ => exact h
  unfold destruction
  split
  · rfl
  · split
    · rename_i hobject
      cases t with
      | array t b =>
        cases b <;> simp_all [Program.destroy, Ty.isVoid, Ty.core, Ty.isFunction,
          Ty.isUnboundedArray, Except.isOk, Except.toBool]
      | _ =>
        simp_all [Program.destroy, Ty.isVoid, Ty.core, Ty.isFunction, Ty.isUnboundedArray,
          Ty.isReference, Ty.referent?]
    · exact helement

end Solver

end TypeTraits
