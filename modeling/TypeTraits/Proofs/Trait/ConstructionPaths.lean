import TypeTraits.Proofs.Expr.ReferenceCast
import TypeTraits.Proofs.Hierarchy.BaseConversion
import TypeTraits.Proofs.Trait.Construction

/-!
# The two ways to ask for a construction

The provider initializes an object or reference directly. The fallback constructs an array element
by element, and copy-initializes a reference or casts to it. For objects the two differ on arrays
whose dimensions do not fit under the guard, which only the provider counts. For references each of
the two is reduced here to the initializations that it runs.
-/

namespace TypeTraits
namespace Program

variable {p : Program} {t : Ty} {depth : Nat} {g : Guard CheckKey}

/-- An array whose dimensions do not fit under the guard is not constructed. -/
theorem construct_of_deep (h : g.limits.depth ≤ g.depth + t.rank) :
    (((p.checkerBelow depth).construct t []).run g).1.isOk = false := by
  induction t using Ty.inductionOn generalizing depth g with
  | array t b ih =>
    cases depth with
    | zero => rfl
    | succ depth =>
      simp only [checkerBelow, checkerStep, Check.run_guarded, List.head?_nil]
      rcases henter : g.enter (.of .construct (.array t b) none) with ⟨_ | _, g'⟩ <;> dsimp only
      · obtain ⟨rfl, _⟩ := Guard.enter_eq_none henter
        cases b with
        | none => rfl
        | some n =>
          refine ih ?_
          simp only [Ty.rank] at h
          simp only [Guard.entered]
          omega
      · rfl
  | _ =>
    cases depth with
    | zero => rfl
    | succ depth =>
      simp only [checkerBelow, checkerStep, Check.run_guarded]
      split
      · rfl
      · rename_i henter
        have := (Guard.enter_eq_none henter).2
        simp only [Ty.rank] at h
        omega

theorem run_construct_of_room {args : List Expr} (hdepth : g.depth < g.limits.depth)
    (hiterations : g.iterations < g.limits.iterations)
    (hkey : CheckKey.of .construct t args.head? ∉ g.visiting) :
    (((p.checkerBelow (depth + 1)).construct t args).run g).1 =
      ((p.constructStep (p.checkerBelow depth) t args).run
        (g.entered (.of .construct t args.head?))).1 :=
  (congrArg Prod.fst (Check.run_guarded_of_room hiterations hdepth hkey)).trans rfl

theorem constructStep_of_construct {s : Solver} (harray : t.isArray = false)
    (hreference : t.isReference = false) (h : (s.construct t []).isOk = true) :
    ∃ e, ∀ deeper, s.program.constructStep deeper t [] = Check.ofFormed (.ok e) := by
  rw [Solver.construct_eq_constructObject harray hreference,
    Solver.constructObject_isOk_iff hreference, Option.isSome_iff_exists] at h
  obtain ⟨e, h⟩ := h
  obtain ⟨exprs, hexprs, hinit, _⟩ := Solver.construction_eq_some.mp h
  obtain rfl : exprs = [] := Except.ok.inj (hexprs.symm.trans rfl)
  have hreturns := Check.Returns.of_result hinit
  rw [directInit, checker_eq] at hreturns
  obtain ⟨deeper, hreturns⟩ := construct_returns hreturns
  obtain ⟨r, hr⟩ := s.program.constructStep_nil harray
  rw [hr, Check.returns_ofFormed] at hreturns
  exact ⟨e, fun deeper => hreturns ▸ hr deeper⟩

/-- What the fallback constructs from no arguments, a check with room constructs. -/
theorem construct_of_room {s : Solver} (h : (s.construct t []).isOk = true)
    (hbelow : t.rank < depth) (hdepth : g.depth + t.rank < g.limits.depth)
    (hiterations : g.iterations + t.rank < g.limits.iterations)
    (hvisiting : ∀ key ∈ g.visiting, t.rank < key.target.rank) :
    (((s.program.checkerBelow depth).construct t []).run g).1.isOk = true := by
  induction t using Ty.inductionOn generalizing depth g with
  | array t b ih =>
    obtain ⟨depth, rfl⟩ : ∃ n, depth = n + 1 := ⟨depth - 1, by omega⟩
    have hkey : CheckKey.of .construct (.array t b) none ∉ g.visiting :=
      fun hmem => Nat.lt_irrefl _ (hvisiting _ hmem)
    simp only [Ty.rank] at hbelow hdepth hiterations hvisiting
    rw [run_construct_of_room (by omega) (by omega) hkey]
    cases b with
    | none => simp [Solver.construct, Except.isOk, Except.toBool] at h
    | some n =>
      rw [Solver.construct, List.isEmpty_nil, if_pos rfl] at h
      refine ih h (by omega) (by simp only [Guard.entered]; omega)
        (by simp only [Guard.entered]; omega) fun key hmem => ?_
      rcases List.mem_cons.mp hmem with rfl | hmem
      · exact Nat.lt_succ_self _
      · have := hvisiting key hmem
        omega
  | lvalueRef t _ | rvalueRef t _ =>
    simp [Solver.construct, Ty.referent?, Except.isOk, Except.toBool] at h
  | _ =>
    obtain ⟨depth, rfl⟩ : ∃ n, depth = n + 1 := ⟨depth - 1, by omega⟩
    have hkey := fun hmem => Nat.lt_irrefl _ (hvisiting (.of .construct _ none) hmem)
    rw [run_construct_of_room (by omega) (by omega) hkey]
    obtain ⟨e, he⟩ := constructStep_of_construct rfl rfl h
    rw [he]
    rfl

end Program

namespace Solver

variable {s : Solver} {t : Ty} {args : List Ty}

/-- For objects the paths differ on arrays whose dimensions do not fit under the guard alone. -/
theorem construction_isSome_iff (hreference : t.isReference = false) :
    (Introspection.construction s.program t args).isSome = true ↔
      (s.construct t args).isOk = true ∧
        ¬(args = [] ∧ Limits.initializationDepth ≤ t.rank) := by
  constructor
  · intro h
    obtain ⟨e, h⟩ := Option.isSome_iff_exists.mp h
    refine ⟨construct_of_construction hreference h, ?_⟩
    rintro ⟨rfl, hdeep⟩
    obtain ⟨exprs, hexprs, hinit, _⟩ := construction_eq_some.mp h
    obtain rfl : exprs = [] := Except.ok.inj (hexprs.symm.trans rfl)
    have hdeep : (Guard.fresh .initialization : Guard CheckKey).limits.depth ≤ 0 + t.rank :=
      (Nat.zero_add t.rank).symm ▸ hdeep
    have herror := @Program.construct_of_deep s.program t (Limits.initializationDepth + 1)
      (.fresh .initialization) hdeep
    rw [← Program.checker_eq] at herror
    change (s.program.directInit t []).result.isOk = false at herror
    rw [hinit] at herror
    cases herror
  · rintro ⟨h, hshallow⟩
    cases harray : t.isArray with
    | false =>
      rw [construct_eq_constructObject harray hreference] at h
      exact (constructObject_isOk_iff hreference).mp h
    | true =>
      have hargs : args = [] := by
        cases t <;> simp only [Ty.isArray, Ty.arrayParts?, Option.isSome_none, Bool.false_eq_true]
          at harray
        rename_i u b
        cases b <;> cases args <;>
          simp [construct, Except.isOk, Except.toBool] at h ⊢
      subst hargs
      have hrank : 0 + t.rank < Limits.initializationDepth := by
        have := not_and.mp hshallow rfl
        omega
      have hok := @Program.construct_of_room t (Limits.initializationDepth + 1)
        (.fresh .initialization) s h (by omega) hrank (Nat.lt_of_lt_of_le hrank (by decide))
        (by simp [Guard.fresh])
      rw [← Program.checker_eq] at hok
      change (s.program.directInit t []).result.isOk = true at hok
      cases hinit : (s.program.directInit t []).result with
      | error _ => simp [hinit, Except.isOk, Except.toBool] at hok
      | ok e =>
        exact Option.isSome_iff_exists.mpr
          ⟨e, construction_eq_some.mpr ⟨[], rfl, hinit, Or.inr (destroy_of_construct h)⟩⟩

/-- What comes of an initialization: whether it cannot throw, if it is well-formed. -/
def outcome (r : Formed Effects) : Option Bool := r.toOption.map (·.nothrow)

/-- What the provider makes of a construction. -/
def providerOutcome (p : Program) (t : Ty) (args : List Ty) : Option Bool :=
  (Introspection.construction p t args).map (·.nothrow)

/-- What the fallback makes of a construction. -/
def fallbackOutcome (s : Solver) (t : Ty) (args : List Ty) : Option Bool :=
  if (s.construct t args).isOk then some (s.constructsNothrow t args) else none

theorem constructsNothrow_of_construction {e : Effects} (hreference : t.isReference = false)
    (h : Introspection.construction s.program t args = some e) :
    s.constructsNothrow t args = e.nothrow := by
  obtain ⟨exprs, hexprs, hinit, _⟩ := construction_eq_some.mp h
  have hobject := not_isVoid_of_directInit hreference (Check.Returns.of_result hinit)
  have hvoid : t.isVoid = false := (Bool.or_eq_false_iff.mp hobject).1
  unfold constructsNothrow
  rw [hexprs]
  simp only [hreference, Bool.false_eq_true, if_false]
  cases exprs with
  | nil => simp [Program.valueInit, hreference, hvoid, hinit, Except.toOption]
  | cons first rest => simp [hinit, Except.toOption]

theorem outcomes_eq_iff_of_object (hreference : t.isReference = false) :
    providerOutcome s.program t args = s.fallbackOutcome t args ↔
      ¬(args = [] ∧ Limits.initializationDepth ≤ t.rank ∧ (s.construct t []).isOk = true) := by
  have hsome := @construction_isSome_iff s t args hreference
  cases hc : Introspection.construction s.program t args with
  | some e =>
    rw [hc] at hsome
    obtain ⟨hok, hshallow⟩ := hsome.mp rfl
    rw [providerOutcome, fallbackOutcome, hc, if_pos hok,
      constructsNothrow_of_construction hreference hc]
    simp only [Option.map_some, true_iff]
    rintro ⟨hargs, hdeep, _⟩
    exact hshallow ⟨hargs, hdeep⟩
  | none =>
    rw [hc] at hsome
    cases hok : (s.construct t args).isOk with
    | false =>
      rw [providerOutcome, fallbackOutcome, hc, hok]
      simp only [Option.map_none, Bool.false_eq_true, if_false, true_iff]
      rintro ⟨rfl, _, h⟩
      rw [hok] at h
      cases h
    | true =>
      rw [hok] at hsome
      have hdeep : args = [] ∧ Limits.initializationDepth ≤ t.rank := by
        simpa using hsome
      obtain ⟨rfl, hdeep⟩ := hdeep
      rw [providerOutcome, fallbackOutcome, hc, hok]
      simp [hdeep]

/-! ## References -/

section Reference

variable {source referent : Ty} {isRvalueRef : Bool} {e : Expr}

theorem isCastOnly_iff (htarget : t.referent? = some (referent, isRvalueRef))
    (he : Expr.declval source = .ok e) :
    s.isCastOnly t isRvalueRef source = true ↔
      (e.type.unqualified ≠ referent.unqualified ∧
        s.program.isBaseOf e.type.unqualified referent.unqualified = true ∧
        (s.constructObject referent.unqualified [source]).isOk = false) ∨
      (isRvalueRef = true ∧ (∃ u, source = .lvalueRef u) ∧
        referent.unqualified.isFunction = false ∧
        (e.type.unqualified = referent.unqualified ∨
          s.program.isBaseOf referent.unqualified e.type.unqualified = true)) := by
  have ht : t.removeCvref = referent.unqualified := by
    cases t <;> simp only [Ty.referent?, Option.some.injEq, Prod.mk.injEq, reduceCtorEq] at htarget
    all_goals rw [← htarget.1]; rfl
  unfold isCastOnly
  rw [ht, ← Expr.unqualified_of_declval he]
  simp only [Bool.or_eq_true, Bool.and_eq_true, bne_iff_ne, beq_iff_eq, Bool.not_eq_true',
    and_assoc]
  cases source <;> simp

theorem lvalueRef_or_isFunction (he : Expr.declval source = .ok e) (hrvalue : e.isRvalue = false) :
    (∃ u, source = .lvalueRef u) ∨ e.type.isFunction = true := by
  cases source with
  | lvalueRef u => exact Or.inl ⟨u, rfl⟩
  | rvalueRef u =>
    cases hu : u.isFunction with
    | true =>
      simp only [Expr.declval, hu, if_true, Except.ok.injEq] at he
      exact Or.inr (he ▸ hu)
    | false =>
      simp only [Expr.declval, hu, Bool.false_eq_true, if_false, Except.ok.injEq] at he
      rw [← he] at hrvalue
      cases hrvalue
  | function r ps q =>
    simp only [Expr.declval] at he
    split at he <;> cases he
    exact Or.inr rfl
  | functionNamed _ | unknown _ => cases he
  | _ =>
    cases he
    split at hrvalue <;> cases hrvalue

/-- The source of a cast across is an lvalue of a type that is no function, or copies. -/
theorem isCastOnly_of_castsAcross (htarget : t.referent? = some (referent, isRvalueRef))
    (he : Expr.declval source = .ok e) (hsource : e.type.isNormal = true)
    (hreferent : referent.isNormal = true)
    (h : s.program.castsAcross e referent isRvalueRef = true)
    (hcopy : (s.program.copyInit t e).result.isOk = false) :
    s.isCastOnly t isRvalueRef source = true := by
  obtain ⟨hrvalue, hfunction⟩ : e.isRvalue = false ∧ referent.isFunction = false := by
    rw [← Bool.not_eq_true, ← Bool.not_eq_true, ← not_or]
    intro hor
    rw [Program.copyInit_of_castsAcross htarget hsource hreferent h hor] at hcopy
    cases hcopy
  obtain ⟨distance, hrelation⟩ := Program.related_of_castsAcross hsource hreferent h
  have hrelated : e.type.unqualified = referent.unqualified ∨
      s.program.isBaseOf referent.unqualified e.type.unqualified = true := by
    have hsome : s.program.referenceRelation referent.unqualified e.type.unqualified ≠ none := by
      simp [hrelation]
    exact Decidable.not_not.mp (mt Program.referenceRelation_eq_none.mpr hsome)
  refine (isCastOnly_iff htarget he).mpr (Or.inr ⟨?_, ?_, ?_, hrelated⟩)
  · simp only [Program.castsAcross, Bool.and_eq_true] at h
    exact h.1.1.1
  · refine (lvalueRef_or_isFunction he hrvalue).resolve_right fun hfunctionSource => ?_
    rcases hrelated with hsame | hbase
    · rw [Ty.eq_of_unqualified_function hfunctionSource hreferent hsame, hfunction]
        at hfunctionSource
      cases hfunctionSource
    · cases htype : e.type <;> rw [htype] at hfunctionSource <;> cases hfunctionSource <;>
        simp [htype, Program.isBaseOf, Ty.unqualified, Ty.splitCv, Ty.recordId?, Ty.core] at hbase
  · cases hplain : referent.unqualified.isFunction with
    | false => rfl
    | true =>
      have := Ty.eq_of_unqualified_function hplain hreferent (Ty.unqualified_unqualified hreferent)
      rw [this, hfunction] at hplain
      cases hplain

/-- A cast down is a construction when the derived class is constructed from the source. -/
theorem isCastOnly_of_castsDown {d : Development} (hd : d.Valid) (hs : s.program = d.program)
    (htarget : t.referent? = some (referent, isRvalueRef)) (he : Expr.declval source = .ok e)
    (hsource : e.type.isNormal = true) (hreferent : referent.isNormal = true)
    (h : s.program.castsDown e referent isRvalueRef = true) :
    s.isCastOnly t isRvalueRef source = true ↔
      (s.constructObject referent.unqualified [source]).isOk = false := by
  simp only [Program.castsDown, Program.isDowncast, Bool.and_eq_true, bne_iff_ne] at h
  obtain ⟨_, ⟨⟨hne, hbase⟩, _⟩, _⟩ := h
  have hderived : s.program.isBaseOf referent.unqualified e.type.unqualified = false := by
    obtain ⟨i, j, hi, hj⟩ : ∃ i j, e.type.unqualified.recordId? = some i ∧
        referent.unqualified.recordId? = some j := by
      unfold Program.isBaseOf at hbase
      split at hbase
      · exact ⟨_, _, ‹_›, ‹_›⟩
      · cases hbase
    rw [Ty.eq_record_of_recordId? hsource hi, Ty.eq_record_of_recordId? hreferent hj] at hne hbase ⊢
    rw [hs] at hbase ⊢
    exact hd.isBaseOf_asymm (fun heq => hne (congrArg Ty.record heq)) hbase
  rw [isCastOnly_iff htarget he]
  simp [hne, hbase, hderived]

/-- What the fallback makes of a reference. -/
theorem fallbackOutcome_reference (htarget : t.referent? = some (referent, isRvalueRef))
    (he : Expr.declval source = .ok e) :
    s.fallbackOutcome t [source] =
      match (s.program.copyInit t e).result with
      | .ok effects => some effects.nothrow
      | .error _ =>
        if s.isCastOnly t isRvalueRef source then none
        else outcome ((s.program.staticCastReference t e).run
          ((s.program.copyInit t e).run (.fresh .initialization)).2).1 := by
  have hconstruct : s.construct t [source] = s.constructReference t isRvalueRef source := by
    cases t <;> simp_all [Ty.referent?, construct]
  have hreference : t.isReference = true := by simp [Ty.isReference, htarget]
  have hexprs : Expr.declvals [source] = .ok [e] := by
    simp [Expr.declvals, he]
  have hnothrow : s.constructsNothrow t [source] =
      match (s.program.copyInit t e).result with
      | .ok effects => effects.nothrow
      | .error _ => ((s.program.staticCastReference t e).run
          ((s.program.copyInit t e).run (.fresh .initialization)).2).1.toOption.any
            (·.nothrow) := by
    unfold constructsNothrow
    rw [hexprs]
    simp only [hreference, if_true]
    rcases hcopy : (s.program.copyInit t e).run (.fresh .initialization) with ⟨_ | effects, g⟩
    · simp only [Check.result, Check.run_bind, Check.run_attempt, hcopy, Except.toOption]
    · simp only [Check.result, Check.run_bind, Check.run_attempt, hcopy, Except.toOption]
      rfl
  rw [fallbackOutcome, hconstruct, constructReference_eq he, hnothrow]
  cases (s.program.copyInit t e).result with
  | ok effects => rfl
  | error _ =>
    cases s.isCastOnly t isRvalueRef source <;>
      rcases (s.program.staticCastReference t e).run
        ((s.program.copyInit t e).run (.fresh .initialization)).2 with ⟨_ | _, _⟩ <;> rfl

theorem fallbackOutcome_of_copied {effects : Effects}
    (htarget : t.referent? = some (referent, isRvalueRef)) (he : Expr.declval source = .ok e)
    (h : (s.program.copyInit t e).result = .ok effects) :
    s.fallbackOutcome t [source] = some effects.nothrow := by
  rw [fallbackOutcome_reference htarget he, h]

theorem fallbackOutcome_of_cast (htarget : t.referent? = some (referent, isRvalueRef))
    (he : Expr.declval source = .ok e) (h : (s.program.copyInit t e).result.isOk = false) :
    s.fallbackOutcome t [source] =
      if s.isCastOnly t isRvalueRef source then none
      else outcome ((s.program.staticCastReference t e).run
        ((s.program.copyInit t e).run (.fresh .initialization)).2).1 := by
  rw [fallbackOutcome_reference htarget he]
  cases hresult : (s.program.copyInit t e).result with
  | ok effects =>
    rw [hresult] at h
    cases h
  | error _ => rfl

theorem providerOutcome_reference {p : Program}
    (htarget : t.referent? = some (referent, isRvalueRef)) (he : Expr.declval source = .ok e) :
    providerOutcome p t [source] = outcome (p.directInit t [e]).result := by
  have hreference : t.isReference = true := by simp [Ty.isReference, htarget]
  have hexprs : Expr.declvals [source] = .ok [e] := by
    simp [Expr.declvals, he]
  rw [providerOutcome, Introspection.construction, hexprs]
  cases hinit : (p.directInit t [e]).result <;>
    simp [hinit, Except.toOption, outcome, hreference]

/-- A reference is made from one argument on both paths. -/
theorem outcomes_eq_of_not_single (hreference : t.isReference = true)
    (hargs : ¬∃ source e, args = [source] ∧ Expr.declval source = .ok e) :
    providerOutcome s.program t args = s.fallbackOutcome t args := by
  have hprovider : Introspection.construction s.program t args = none := by
    cases hc : Introspection.construction s.program t args with
    | none => rfl
    | some effects =>
      obtain ⟨exprs, hexprs, hinit, _⟩ := construction_eq_some.mp hc
      obtain ⟨a, e, rfl, _, ha⟩ :=
        single_of_directInit hreference hexprs (Check.Returns.of_result hinit)
      exact absurd ⟨a, e, rfl, ha⟩ hargs
  have hfallback : (s.construct t args).isOk = false := by
    cases args with
    | nil => cases t <;> first | rfl | cases hreference
    | cons source rest =>
      cases rest with
      | cons _ _ => cases t <;> first | rfl | cases hreference
      | nil =>
        cases he : Expr.declval source with
        | error _ =>
          cases t <;> simp [Ty.isReference, Ty.referent?] at hreference <;>
            simp [construct, Ty.referent?, constructReference, he, bind, Except.bind, Except.isOk,
              Except.toBool]
        | ok e => exact absurd ⟨source, e, rfl, he⟩ hargs
  rw [providerOutcome, fallbackOutcome, hprovider, hfallback]
  rfl

end Reference

end Solver

end TypeTraits
