import TypeTraits.Proofs.Expr.ParameterConversions
import TypeTraits.Proofs.Trait.Swapping

/-!
# Types of which nothing is known

A name that stands for no type is passed on by no `declval`, so nothing is made from a value of it.
But the operations on objects decide what is left once references, classes and arrays are excluded
as scalars, and so an object of an unknown type is initialized from nothing, from objects of its own
type, swapped and destroyed as a scalar is.
-/

namespace TypeTraits

variable {n : Nat}

namespace Ty

/-- What is declared with this type is an object of the unknown one: the name itself is not
declared, but the name qualified, or a reference to either, is. -/
def declaresUnknown (n : Nat) (t : Ty) : Bool := t != .unknown n && t.removeCvref == .unknown n

theorem unqualified_eq_unknown {t : Ty} (h : t.unqualified = .unknown n) :
    t.isVoid = false ∧ t.isRecord = false ∧ t.asValue = .unknown n := by
  cases t with
  | qualified t cv =>
    cases h
    exact ⟨rfl, rfl, rfl⟩
  | array t b =>
    simp only [unqualified, splitCv] at h
    split at h <;> cases h
  | unknown m => exact ⟨rfl, rfl, h⟩
  | _ => cases h

theorem asValue_eq_unknown {t : Ty} : t.asValue = .unknown n ↔ t.unqualified = .unknown n := by
  refine ⟨fun h => ?_, fun h => (unqualified_eq_unknown h).2.2⟩
  cases t <;> first | exact h | cases h

theorem removeCvref_of_declval {t : Ty} {e : Expr} (h : Expr.declval t = .ok e) :
    t.removeCvref = .unknown n ↔ e.type.unqualified = .unknown n := by
  cases t with
  | lvalueRef t | void =>
    cases h
    rfl
  | rvalueRef t =>
    simp only [Expr.declval, Except.ok.injEq] at h
    split at h <;> cases h <;> rfl
  | qualified t cv =>
    simp only [Expr.declval, Except.ok.injEq] at h
    split at h
    · next hvoid =>
      cases t <;> cases hvoid
      cases h
      simp [Expr.prvalue, removeCvref, withoutReference, removeCv, unqualified, splitCv]
    · cases h
      rfl
  | function r ps q =>
    simp only [Expr.declval] at h
    split at h <;> cases h
    rfl
  | functionNamed | unknown => cases h
  | _ =>
    cases h
    rfl

theorem declval_of_removeCvref {t : Ty} (hne : t ≠ .unknown n) (h : t.removeCvref = .unknown n) :
    ∃ e, Expr.declval t = .ok e := by
  cases t with
  | unknown m => exact absurd h hne
  | function | functionNamed => cases h
  | _ => exact ⟨_, rfl⟩

theorem declaresUnknown_iff {t : Ty} :
    t.declaresUnknown n = true ↔ ∃ e, Expr.declval t = .ok e ∧ e.type.unqualified = .unknown n := by
  simp only [declaresUnknown, Bool.and_eq_true, bne_iff_ne, beq_iff_eq]
  constructor
  · rintro ⟨hne, h⟩
    obtain ⟨e, he⟩ := declval_of_removeCvref hne h
    exact ⟨e, he, (removeCvref_of_declval he).mp h⟩
  · rintro ⟨e, he, h⟩
    refine ⟨?_, (removeCvref_of_declval he).mpr h⟩
    rintro rfl
    cases he

theorem not_isVoid_of_declaresUnknown {t : Ty} (h : t.declaresUnknown n = true) :
    t.isVoid = false := by
  simp only [declaresUnknown, Bool.and_eq_true, beq_iff_eq] at h
  cases t with
  | void => cases h.2
  | qualified t cv =>
    cases t with
    | void => cases h.2
    | _ => rfl
  | _ => rfl

/-- Values of these types initialize an object of the unknown type. -/
def initializeUnknown (n : Nat) : List Ty → Bool
  | [] => true
  | [t] => t.declaresUnknown n
  | _ => false

theorem initializeUnknown_iff {args : List Ty} : initializeUnknown n args = true ↔
    ∃ exprs, Expr.declvals args = .ok exprs ∧
      (exprs = [] ∨ ∃ e, exprs = [e] ∧ e.type.unqualified = .unknown n) := by
  constructor
  · intro h
    rcases args with _ | ⟨t, _ | ⟨_, _⟩⟩
    · exact ⟨[], rfl, Or.inl rfl⟩
    · obtain ⟨e, he, htype⟩ := declaresUnknown_iff.mp h
      exact ⟨[e], by simp [Expr.declvals, he], Or.inr ⟨e, rfl, htype⟩⟩
    · cases h
  · rintro ⟨exprs, hexprs, h⟩
    rcases args with _ | ⟨t, _ | ⟨_, _⟩⟩
    · rfl
    · obtain ⟨e, rest, rfl, he, hrest⟩ := Expr.declvals_cons hexprs
      cases hrest
      exact declaresUnknown_iff.mpr ⟨e, he, by simpa using h⟩
    · obtain ⟨_, rest, rfl, _, hrest⟩ := Expr.declvals_cons hexprs
      obtain ⟨_, _, rfl, _, _⟩ := Expr.declvals_cons hrest
      simp at h

end Ty

namespace Program

variable {p : Program} {e : Expr} {mode : InitMode} {allowUser : Bool} {depth : Nat}

@[simp] theorem destroy_unknown : p.destroy (.unknown n) = .ok .none := rfl

theorem standardConversion_unknown (e : Expr) (mode : InitMode) :
    p.standardConversion e (.unknown n) mode =
      if e.type.unqualified = .unknown n then .ok .identity else .error .noConversion := by
  have htarget : (Ty.unknown n).unqualified = .unknown n := rfl
  simp only [standardConversion, htarget, Ty.asValue_eq_unknown]
  split
  · rfl
  · cases e.type.asValue.core <;> rfl

theorem convertStep_unknown (deeper : Checker) :
    p.convertStep deeper e (.unknown n) mode allowUser =
    if e.type.isVoid then throw .voidExpression
    else if e.type.isRecord then
      if allowUser then p.conversionFromClass deeper.convert e (.unknown n) mode
      else throw .noConversion
    else Check.ofFormed (p.standardConversion e (.unknown n) mode) := rfl

/-- An object of the unknown type is converted to it as it is. -/
theorem takes_convert_unknown (he : e.type.unqualified = .unknown n) {g : Guard CheckKey}
    (hroom : g.depth < g.limits.depth ∧ CheckKey.of .convert (.unknown n) e ∉ g.visiting)
    (hsteps : 1 ≤ g.limits.iterations) :
    ((p.checkerBelow (depth + 1)).convert e (.unknown n) mode allowUser).Takes g 1
      (.ok .identity) := by
  obtain ⟨hvoid, hrecord, _⟩ := Ty.unqualified_eq_unknown he
  have hstep : p.convertStep (p.checkerBelow depth) e (.unknown n) mode allowUser =
      Check.ofFormed (.ok .identity) := by
    rw [convertStep_unknown, hvoid, hrecord, standardConversion_unknown, if_pos he]
    rfl
  refine Check.Takes.guarded hroom ?_ hsteps
  rw [hstep]
  exact .ofFormed _

/-- Nothing else is converted to it. -/
theorem unqualified_of_convert_unknown (hp : p.ConvertsToNormal) {c : Conversion}
    (h : ((p.checkerBelow depth).convert e (.unknown n) mode allowUser).Returns c) :
    e.type.unqualified = .unknown n := by
  have hstandard : ∀ {e : Expr} {c : Conversion},
      p.standardConversion e (.unknown n) mode = .ok c → e.type.unqualified = .unknown n := by
    intro e c h
    rw [standardConversion_unknown] at h
    split at h
    · assumption
    · cases h
  obtain ⟨deeper, h⟩ := convert_returns h
  rw [convertStep_unknown] at h
  split at h
  · simp at h
  · split at h
    · split at h
      · obtain ⟨u, r, hr, f, hf, c', hc'⟩ := conversionFromClass_returns h
        have hnormal := Ty.isNormal_unqualified (Expr.isNormal_callResult (hp u r hr f hf))
        rw [hstandard hc'] at hnormal
        cases hnormal
      · simp at h
    · exact hstandard (Check.returns_ofFormed.mp h)

theorem settles_copyInit_unknown (he : e.type.unqualified = .unknown n) :
    (p.copyInit (.unknown n) e).Settles .none := by
  have hconvert : (p.checker.convert e (.unknown n) .copy true).Takes (.fresh .initialization) 1
      (.ok .identity) := by
    rw [checker_eq]
    exact takes_convert_unknown he ⟨by decide, List.not_mem_nil⟩ (by decide)
  exact ⟨1, hconvert.bind_pure (·.effects)⟩

theorem unqualified_of_copyInit_unknown (hp : p.ConvertsToNormal) {effects : Effects}
    (h : (p.copyInit (.unknown n) e).Returns effects) : e.type.unqualified = .unknown n := by
  obtain ⟨c, hc, _⟩ := Check.Returns.bind h
  rw [convert, checker_eq] at hc
  exact unqualified_of_convert_unknown hp hc

theorem copyInit_unknown_isOk (hp : p.ConvertsToNormal) {t : Ty} (he : Expr.declval t = .ok e) :
    (p.copyInit (.unknown n) e).result.isOk = t.declaresUnknown n := by
  rw [Bool.eq_iff_iff, Ty.declaresUnknown_iff, he]
  constructor
  · intro h
    cases hresult : (p.copyInit (.unknown n) e).result with
    | error _ => simp [hresult, Except.isOk, Except.toBool] at h
    | ok _ => exact ⟨e, rfl, unqualified_of_copyInit_unknown hp (.of_result hresult)⟩
  · rintro ⟨e', hsame, htype⟩
    cases hsame
    rw [(settles_copyInit_unknown htype).result]
    rfl

theorem constructStep_unknown (deeper : Checker) (args : List Expr) :
    p.constructStep deeper (.unknown n) args =
      match args with
      | [] => return .none
      | [arg] => return (← deeper.convert arg (.unknown n) .direct true).effects
      | _ => throw .wrongArity := rfl

theorem takes_directInit_unknown (he : e.type.unqualified = .unknown n) :
    (p.directInit (.unknown n) [e]).Takes (.fresh .initialization) 2 (.ok .none) := by
  rw [directInit, checker_eq]
  refine Check.Takes.guarded ⟨by decide, List.not_mem_nil⟩ ?_ (by decide)
  rw [constructStep_unknown]
  refine Check.Takes.bind_pure (takes_convert_unknown he
    ⟨(by decide : 1 < Limits.initializationDepth), ?_⟩
    (by decide : 1 ≤ Limits.guardIterations)) (·.effects)
  simp [Guard.entered, Guard.fresh, CheckKey.of]

/-- An object of the unknown type is initialized from nothing, or from another one. -/
theorem settles_directInit_unknown {args : List Expr}
    (h : args = [] ∨ ∃ e, args = [e] ∧ e.type.unqualified = .unknown n) :
    (p.directInit (.unknown n) args).Settles .none := by
  rcases h with rfl | ⟨e, rfl, he⟩
  · rw [directInit, checker_eq]
    exact ⟨1, Check.Takes.guarded ⟨by decide, List.not_mem_nil⟩ (.pure _ _) (by decide)⟩
  · exact ⟨2, takes_directInit_unknown he⟩

theorem directInit_unknown_returns (hp : p.ConvertsToNormal) {args : List Expr} {effects : Effects}
    (h : (p.directInit (.unknown n) args).Returns effects) :
    args = [] ∨ ∃ e, args = [e] ∧ e.type.unqualified = .unknown n := by
  rw [directInit, checker_eq] at h
  obtain ⟨deeper, h⟩ := construct_returns h
  rw [constructStep_unknown] at h
  rcases args with _ | ⟨e, _ | ⟨_, _⟩⟩
  · exact Or.inl rfl
  · obtain ⟨c, hc, _⟩ := Check.Returns.bind h
    exact Or.inr ⟨e, rfl, unqualified_of_convert_unknown hp hc⟩
  · simp at h

/-- What the provider knows of constructing objects of the unknown type. -/
theorem construction_unknown (hp : p.ConvertsToNormal) (args : List Ty) :
    Introspection.construction p (.unknown n) args =
      if Ty.initializeUnknown n args then some .none else none := by
  split
  · next h =>
    obtain ⟨exprs, hexprs, hinit⟩ := Ty.initializeUnknown_iff.mp h
    exact Solver.construction_eq_some.mpr
      ⟨exprs, hexprs, (settles_directInit_unknown hinit).result, Or.inr rfl⟩
  · next h =>
    rw [Option.eq_none_iff_forall_ne_some]
    intro effects heffects
    obtain ⟨exprs, hexprs, hinit, _⟩ := Solver.construction_eq_some.mp heffects
    exact h (Ty.initializeUnknown_iff.mpr
      ⟨exprs, hexprs, directInit_unknown_returns hp (.of_result hinit)⟩)

/-- An lvalue of the unknown type is assigned to. -/
theorem takes_assign_unknown : (p.assign (.lvalue (.unknown n)) (.xvalue (.unknown n))).Takes
    (.fresh .initialization) 1 (.ok .none) := by
  have hconvert : (p.checker.convert (.xvalue (.unknown n)) (.unknown n) .copy true).Takes
      (.fresh .initialization) 1 (.ok .identity) := by
    rw [checker_eq]
    exact takes_convert_unknown rfl ⟨by decide, List.not_mem_nil⟩ (by decide)
  exact hconvert.bind_pure (·.effects)

/-- The library has a swap for objects of the unknown type. -/
theorem takes_stdSwap_unknown : (p.stdSwap (.unknown n)).Takes (.fresh .initialization) 3
    (.ok (some (librarySwap (.unknown n) .none))) := by
  have hmoves : (p.moves (.unknown n)).Takes (.fresh .initialization) 3 (.ok .none) := by
    refine (takes_directInit_unknown rfl).bind (n := 1) ?_ (by decide)
    rw [destroy_unknown]
    refine (Check.Takes.ofFormed _).bind (n := 1) ?_ (by decide)
    exact takes_assign_unknown.bind_pure _
  exact hmoves.attempt.bind_pure (·.map (librarySwap (.unknown n)))

/-- Two lvalues of the unknown type are swapped, without throwing. -/
theorem takes_swap_unknown : (p.swap (.lvalue (.unknown n)) (.lvalue (.unknown n))).Takes
    (.fresh .initialization) 7 (.ok ⟨true, false⟩) := by
  have hdeclared : p.declaredSwaps (.unknown n) = [] := rfl
  have hlibrary : p.swap (.lvalue (.unknown n)) (.lvalue (.unknown n)) =
      p.swapWith (p.stdSwap (.unknown n)) (.lvalue (.unknown n)) (.lvalue (.unknown n)) := by
    simp [swap, Expr.lvalue, Expr.isLvalue]
  rw [hlibrary, swapWith_eq, hdeclared]
  refine takes_stdSwap_unknown.bind (n := 4) ?_ (by decide)
  exact (takes_resolve_librarySwap rfl rfl .none).bind_pure (·.effects)

end Program

namespace Solver

variable {s : Solver} {t : Ty} {args : List Ty}

theorem answer_declarations (hs : s.provider = .declarations) {i : Intrinsic} {q : Question}
    {t : Ty} {args : List Ty} {answer fallback : Bool} :
    (s.intrinsic i (s.ask q t args (some answer))).getD fallback =
      if s.capabilities.has i then answer else fallback := by
  unfold intrinsic ask
  rw [hs]
  cases s.capabilities.has i <;> rfl

/-- How a solver answers about a type of which nothing is known. -/
structure TreatsUnknown (s : Solver) (n : Nat) : Prop where
  isAssignable (t : Ty) :
    s.isAssignable (.unknown n) t = false ∧ s.isAssignable t (.unknown n) = false
  isTriviallyAssignable (t : Ty) : s.isTriviallyAssignable (.unknown n) t = false ∧
    s.isTriviallyAssignable t (.unknown n) = false
  isNothrowAssignable (t : Ty) :
    s.isNothrowAssignable (.unknown n) t = false ∧ s.isNothrowAssignable t (.unknown n) = false
  convertsFrom (t : Ty) :
    s.isConvertible (.unknown n) t = false ∧ s.isNothrowConvertible (.unknown n) t = false
  isConvertible (t : Ty) : s.isConvertible t (.unknown n) = t.declaresUnknown n
  isNothrowConvertible (t : Ty) :
    s.isNothrowConvertible t (.unknown n) = (t.declaresUnknown n && s.knowsNoexcept)
  isConstructible (args : List Ty) :
    s.isConstructible (.unknown n) args = Ty.initializeUnknown n args
  isTriviallyConstructible (args : List Ty) : s.isTriviallyConstructible (.unknown n) args =
    (Ty.initializeUnknown n args && s.capabilities.has .isTriviallyConstructible)
  isNothrowConstructible (args : List Ty) : s.isNothrowConstructible (.unknown n) args =
    (Ty.initializeUnknown n args && (s.capabilities.has .isNothrowConstructible ||
      s.knowsNoexcept || s.capabilities.has .isTriviallyConstructible))
  isDestructible : s.isDestructible (.unknown n) = true
  isTriviallyDestructible : s.isTriviallyDestructible (.unknown n) =
    (s.capabilities.has .isTriviallyDestructible || !s.capabilities.has .hasTrivialDestructor)
  isNothrowDestructible : s.isNothrowDestructible (.unknown n) =
    (s.knowsNoexcept || s.capabilities.has .isTriviallyDestructible ||
      !s.capabilities.has .hasTrivialDestructor)
  isSwappable : s.isSwappable (.unknown n) = true
  isNothrowSwappable : s.isNothrowSwappable (.unknown n) = s.knowsNoexcept

/-- Two objects of the unknown type are swapped. -/
theorem swap_unknown : s.isSwappable (.unknown n) = true ∧
    s.isNothrowSwappable (.unknown n) = s.knowsNoexcept := by
  have hswap : s.swapBothWays (.lvalueRef (.unknown n)) (.lvalueRef (.unknown n)) =
      .ok ⟨true, false⟩ := by
    have hboth := Program.takes_swap_unknown (p := s.program) (n := n)
    exact Check.Settles.result ⟨14, hboth.bind (n := 7) (hboth.bind_pure _) (by decide)⟩
  have hreference : s.program.addLvalueReference (.unknown n) = .lvalueRef (.unknown n) := rfl
  constructor
  · rw [Solver.isSwappable, holdsOfLvalues, hreference]
    dsimp only
    rw [isSwappableWith, hswap]
    rfl
  · rw [Solver.isNothrowSwappable, holdsOfLvalues, hreference]
    dsimp only
    rw [isNothrowSwappableWith, hswap]
    cases s.knowsNoexcept <;> rfl

theorem not_converts_unknown : s.isConvertible (.unknown n) t = false ∧
    s.isNothrowConvertible (.unknown n) t = false := by
  have hconvertible : s.isConvertible (.unknown n) t = false := by
    rw [isConvertible_eq_converts]
    unfold converts
    split
    · rfl
    · split <;> rfl
  refine ⟨hconvertible, ?_⟩
  rw [Solver.isNothrowConvertible, hconvertible, Bool.false_and, Bool.or_false]
  rfl

theorem converts_eq_declaresUnknown (hp : s.program.ConvertsToNormal) :
    s.converts t (.unknown n) = t.declaresUnknown n := by
  unfold converts
  cases hvoid : t.isVoid with
  | true =>
    cases hdeclares : t.declaresUnknown n with
    | false => rfl
    | true =>
      rw [Ty.not_isVoid_of_declaresUnknown hdeclares] at hvoid
      cases hvoid
  | false =>
    cases he : Expr.declval t with
    | ok e => exact Program.copyInit_unknown_isOk hp he
    | error _ =>
      cases hdeclares : t.declaresUnknown n with
      | false => rfl
      | true =>
        obtain ⟨e, he', _⟩ := Ty.declaresUnknown_iff.mp hdeclares
        cases he.symm.trans he'

/-- Only an object of the unknown type converts to it. -/
theorem converts_unknown (hp : s.program.ConvertsToNormal) :
    s.isConvertible t (.unknown n) = t.declaresUnknown n ∧
      s.isNothrowConvertible t (.unknown n) = (t.declaresUnknown n && s.knowsNoexcept) := by
  have hconvertible : s.isConvertible t (.unknown n) = t.declaresUnknown n := by
    rw [isConvertible_eq_converts, converts_eq_declaresUnknown hp]
  refine ⟨hconvertible, ?_⟩
  rw [Solver.isNothrowConvertible, hconvertible]
  cases hdeclares : t.declaresUnknown n with
  | false => simp [Ty.isVoid, Ty.core]
  | true =>
    obtain ⟨e, he, htype⟩ := Ty.declaresUnknown_iff.mp hdeclares
    have hresult := (Program.settles_copyInit_unknown (p := s.program) htype).result
    rw [Ty.not_isVoid_of_declaresUnknown hdeclares, he]
    dsimp only
    rw [hresult]
    cases s.knowsNoexcept with
    | true => rfl
    | false => exact Bool.and_false _

section Unknown

variable (hs : s.provider = .declarations)

theorem assignment_unknown_left : Introspection.assignment s.program (.unknown n) t = none ∧
    (s.assignment (.unknown n) t).toOption = none := by
  refine ⟨rfl, ?_⟩
  unfold assignment
  cases ht : t.isVoid <;> rfl

theorem assignment_unknown_right : Introspection.assignment s.program t (.unknown n) = none ∧
    (s.assignment t (.unknown n)).toOption = none := by
  unfold Introspection.assignment assignment
  cases Expr.declval t <;> cases ht : t.isVoid <;> exact ⟨rfl, rfl⟩

include hs

/-- Where neither the provider nor the expression knows an assignment, there is none. -/
theorem not_assigned {t u : Ty} (h : Introspection.assignment s.program t u = none ∧
    (s.assignment t u).toOption = none) :
    s.isAssignable t u = false ∧ s.isTriviallyAssignable t u = false ∧
      s.isNothrowAssignable t u = false := by
  have hfallback : (s.assignment t u).isOk = false := by
    cases hassign : s.assignment t u with
    | error _ => rfl
    | ok _ =>
      rw [hassign] at h
      cases h.2
  have hassignable : s.isAssignable t u = false := by
    rw [Solver.isAssignable, Introspection.isAssignable, answer_declarations hs, h.1, hfallback]
    exact ite_self false
  refine ⟨hassignable, ?_, ?_⟩
  · rw [Solver.isTriviallyAssignable, Introspection.isTriviallyAssignable, answer_declarations hs,
      h.1, hassignable]
    exact ite_self false
  · rw [Solver.isNothrowAssignable, hassignable, Bool.false_and]

theorem destruction_unknown : s.isDestructible (.unknown n) = true ∧
    s.isTriviallyDestructible (.unknown n) =
      (s.capabilities.has .isTriviallyDestructible || !s.capabilities.has .hasTrivialDestructor) ∧
    s.isNothrowDestructible (.unknown n) =
      (s.knowsNoexcept || s.capabilities.has .isTriviallyDestructible ||
        !s.capabilities.has .hasTrivialDestructor) := by
  have hprovider : Introspection.destruction s.program (.unknown n) = some .none := rfl
  have hfallback : s.destruction (.unknown n) = .ok .none := rfl
  have htrivial : Introspection.hasTrivialDestructor s.program (Ty.unknown n).element =
    some false := rfl
  have hreference : (Ty.unknown n).isReference = false := rfl
  have hdestructible : s.isDestructible (.unknown n) = true := by
    rw [Solver.isDestructible, Introspection.isDestructible, answer_declarations hs, hprovider,
      hfallback]
    exact ite_self true
  have htrivially : s.isTriviallyDestructible (.unknown n) =
      (s.capabilities.has .isTriviallyDestructible ||
        !s.capabilities.has .hasTrivialDestructor) := by
    rw [Solver.isTriviallyDestructible, Introspection.isTriviallyDestructible,
      answer_declarations hs, hprovider, hdestructible, htrivial, answer_declarations hs, hfallback]
    cases s.capabilities.has .isTriviallyDestructible <;>
      cases s.capabilities.has .hasTrivialDestructor <;> rfl
  refine ⟨hdestructible, htrivially, ?_⟩
  rw [Solver.isNothrowDestructible, Introspection.isNothrowDestructible, answer_declarations hs,
    hprovider, hdestructible, hfallback, htrivially, hreference]
  cases s.knowsNoexcept <;> simp [Effects.none, Except.toOption]

theorem construction_unknown (hp : s.program.ConvertsToNormal) (args : List Ty) :
    s.isConstructible (.unknown n) args = Ty.initializeUnknown n args ∧
    s.isTriviallyConstructible (.unknown n) args =
      (Ty.initializeUnknown n args && s.capabilities.has .isTriviallyConstructible) ∧
    s.isNothrowConstructible (.unknown n) args =
      (Ty.initializeUnknown n args && (s.capabilities.has .isNothrowConstructible ||
        s.knowsNoexcept || s.capabilities.has .isTriviallyConstructible)) := by
  have hprovider := Program.construction_unknown (n := n) hp args
  have hconstructible : s.isConstructible (.unknown n) args = Ty.initializeUnknown n args := by
    have hfallback : (s.construct (.unknown n) args).isOk = Ty.initializeUnknown n args := by
      rw [Bool.eq_iff_iff]
      refine (constructObject_isOk_iff (s := s) (t := .unknown n) rfl).trans ?_
      rw [hprovider]
      cases Ty.initializeUnknown n args <;> decide
    rw [Solver.isConstructible, Introspection.isConstructible, answer_declarations hs, hprovider,
      hfallback]
    cases Ty.initializeUnknown n args <;> exact ite_self _
  have htrivially : s.isTriviallyConstructible (.unknown n) args =
      (Ty.initializeUnknown n args && s.capabilities.has .isTriviallyConstructible) := by
    have hscalar : s.triviallyConstructs (.unknown n) args = false := by
      rcases args with _ | ⟨_, _ | ⟨_, _⟩⟩
      · exact answer_declarations hs |>.trans (ite_self false)
      · exact Bool.and_false _
      · rfl
    rw [Solver.isTriviallyConstructible, Introspection.isTriviallyConstructible,
      answer_declarations hs, hprovider, hconstructible, hscalar]
    cases Ty.initializeUnknown n args <;> simp [Effects.none]
  refine ⟨hconstructible, htrivially, ?_⟩
  rw [Solver.isNothrowConstructible, Introspection.isNothrowConstructible,
      answer_declarations hs, hprovider, hconstructible, htrivially]
  cases hinitializes : Ty.initializeUnknown n args with
  | false => rfl
  | true =>
    obtain ⟨exprs, hexprs, hinit⟩ := Ty.initializeUnknown_iff.mp hinitializes
    have hresult := (Program.settles_directInit_unknown (p := s.program) hinit).result
    have hnothrow : s.constructsNothrow (.unknown n) args = true := by
      have hreference : (Ty.unknown n).isReference = false := rfl
      have hvalue : s.program.valueInit (.unknown n) = s.program.directInit (.unknown n) [] := rfl
      unfold constructsNothrow
      rw [hexprs]
      dsimp only
      rw [hreference, if_neg Bool.false_ne_true, hvalue]
      rcases hinit with rfl | ⟨e, rfl, _⟩
      · rw [List.isEmpty_nil, if_pos rfl, hresult]
        rfl
      · rw [List.isEmpty_cons, if_neg Bool.false_ne_true, hresult]
        rfl
    rw [hnothrow]
    cases s.capabilities.has .isNothrowConstructible <;> cases s.knowsNoexcept <;>
      simp [Effects.none]

end Unknown

/-- Every solver that asks the declarations treats an unknown type as an object that is initialized,
swapped and destroyed as a scalar is. -/
theorem treatsUnknown (hs : s.provider = .declarations) (hp : s.program.ConvertsToNormal)
    (n : Nat) : s.TreatsUnknown n where
  isAssignable _ := ⟨(not_assigned hs assignment_unknown_left).1,
    (not_assigned hs assignment_unknown_right).1⟩
  isTriviallyAssignable _ := ⟨(not_assigned hs assignment_unknown_left).2.1,
    (not_assigned hs assignment_unknown_right).2.1⟩
  isNothrowAssignable _ := ⟨(not_assigned hs assignment_unknown_left).2.2,
    (not_assigned hs assignment_unknown_right).2.2⟩
  convertsFrom _ := not_converts_unknown
  isConvertible _ := (converts_unknown hp).1
  isNothrowConvertible _ := (converts_unknown hp).2
  isConstructible args := (construction_unknown hs hp args).1
  isTriviallyConstructible args := (construction_unknown hs hp args).2.1
  isNothrowConstructible args := (construction_unknown hs hp args).2.2
  isDestructible := (destruction_unknown hs).1
  isTriviallyDestructible := (destruction_unknown hs).2.1
  isNothrowDestructible := (destruction_unknown hs).2.2
  isSwappable := swap_unknown.1
  isNothrowSwappable := swap_unknown.2

end Solver

namespace Development

variable {d : Development}

/-- Whatever was declared and whatever the compiler offers, an unknown type is neither assigned nor
converted to another. But it is constructed from nothing, it is constructed and converted from what
is declared as an object of it, and it is swapped and destroyed. -/
theorem unknown_types_answered (h : d.Reachable) (capabilities : Capabilities) (n : Nat) :
    Solver.TreatsUnknown { program := d.program, capabilities } n :=
  Solver.treatsUnknown rfl h.convertsToNormal n

/-- With every intrinsic, `declval` of a name that stands for nothing cannot be formed, and yet an
object of this type is constructed, swapped and destroyed. -/
theorem unknown_types_answered_freshProgram :
    let d : Development := { program := { target := .lp64 } }
    let s : Solver := { program := d.program }
    d.Reachable ∧ Expr.declval (.unknown 4000000000) = .error .incompleteType ∧
      s.isConstructible (.unknown 4000000000) [] = true ∧
      s.isConvertible (.lvalueRef (.unknown 4000000000)) (.unknown 4000000000) = true ∧
      s.isSwappable (.unknown 4000000000) = true ∧
      s.isTriviallyDestructible (.unknown 4000000000) = true := by
  intro d s
  have hd : d.Reachable := .fresh .lp64
  have h := unknown_types_answered hd .all 4000000000
  refine ⟨hd, rfl, h.isConstructible [], ?_, h.isSwappable, ?_⟩
  · exact (h.isConvertible _).trans (by decide)
  · exact h.isTriviallyDestructible.trans (by decide)

end Development
end TypeTraits
