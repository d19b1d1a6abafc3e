import TypeTraits.Proofs.Record.DefaultConstruction
import TypeTraits.Proofs.Trait.Agreement
import TypeTraits.Proofs.Trait.Implications
import TypeTraits.Trait.Property

/-!
# Where the fallbacks for triviality and layout are conservative

Without an intrinsic, a property of representation falls back on what is known of scalars, or on
other traits that may take either path in turn. A fallback should answer yes only where the
provider does. This holds of most of them for every choice of capabilities and provider; for the
others the exact condition under which it holds is given. The provider looks at every copy and move
operation of a class, and the fallback for plain old data only at those that are selected. The fact
of a trivial default constructor loses nothing: by it a type is trivially constructible from nothing
exactly if it is for the provider.
-/

namespace TypeTraits
namespace Program

open Solver

variable {p : Program} {t u : Ty} {args : List Ty}

/-- With every intrinsic an answer decides. -/
theorem intrinsic_solver {i : Intrinsic} {answer fallback : Bool} :
    (p.solver.intrinsic i (some answer)).getD fallback = answer := by
  change (if Capabilities.all.has i then some answer else none).getD fallback = answer
  rw [Capabilities.has_all]
  rfl

/-- With every intrinsic and every answer the provider decides. -/
theorem answer_solver {i : Intrinsic} {q : Question} {answer fallback : Bool} :
    (p.solver.intrinsic i (p.solver.ask q t args (some answer))).getD fallback = answer :=
  intrinsic_solver

theorem isTriviallyConstructible_solver : p.solver.isTriviallyConstructible t args =
    (Introspection.construction p t args).any (·.trivial) := answer_solver

theorem isTriviallyAssignable_solver : p.solver.isTriviallyAssignable t u =
    (Introspection.assignment p t u).any (·.trivial) := answer_solver

/-- A fact that scalars have and complete classes decide, asked of the elements of a type. -/
def elementsHave (p : Program) (fact : Record → Bool) (t : Ty) : Bool :=
  t.element.isScalar || (p.completeRecord? t.element).any fact

theorem isTriviallyCopyable_solver :
    p.solver.isTriviallyCopyable t = p.elementsHave (·.facts.triviallyCopyable) t := answer_solver

theorem isStandardLayout_solver :
    p.solver.isStandardLayout t = p.elementsHave (·.facts.standardLayout) t := answer_solver

theorem isTrivial_solver :
    p.solver.isTrivial t = p.elementsHave (·.facts.trivial) t := answer_solver

theorem isLiteralType_solver : p.solver.isLiteralType t =
    (t.isReference || t.isVoid || p.elementsHave (·.facts.literal) t) := by
  have hanswer : Introspection.isLiteralType p t =
      some (t.isReference || t.isVoid || p.elementsHave (·.facts.literal) t) := by
    unfold Introspection.isLiteralType
    cases hplain : t.isReference || t.isVoid <;> simp [Introspection.objectFact, elementsHave]
  rw [Solver.isLiteralType, program_solver, hanswer]
  exact answer_solver

theorem isPod_solver : p.solver.isPod t = (p.solver.isTrivial t && p.solver.isStandardLayout t) := by
  rw [isTrivial_solver, isStandardLayout_solver]
  have hpod : p.solver.podAnswer t = some (p.elementsHave (·.facts.trivial) t &&
      p.elementsHave (·.facts.standardLayout) t) := by
    change (if p.elementsHave (·.facts.trivial) t then
      some (p.elementsHave (·.facts.standardLayout) t) else some false) = _
    cases p.elementsHave (·.facts.trivial) t <;> rfl
  rw [Solver.isPod, hpod]
  exact intrinsic_solver

theorem elementsHave_of_isScalar {fact : Record → Bool} (h : t.element.isScalar = true) :
    p.elementsHave fact t = true := by
  rw [elementsHave, h, Bool.true_or]

theorem element_element : t.element.element = t.element := by
  induction t using Ty.inductionOn with
  | array t b ih => exact ih
  | _ => rfl

theorem isNormal_element (h : t.isNormal = true) : t.element.isNormal = true := by
  induction t using Ty.inductionOn with
  | array t b ih => exact ih h
  | _ => exact h

/-- References have no such fact. -/
theorem not_isReference_of_elementsHave {fact : Record → Bool}
    (h : p.elementsHave fact t = true) : t.element.isReference = false := by
  unfold elementsHave at h
  cases helement : t.element <;> try rfl
  all_goals
    rw [helement] at h
    simp [Ty.isScalar, Ty.core, completeRecord?, recordOf?, Ty.recordId?] at h

theorem elementsHave_element {fact : Record → Bool} :
    p.elementsHave fact t.element = p.elementsHave fact t := by
  rw [elementsHave, element_element, elementsHave]

end Program

namespace Solver

open Program

variable {s : Solver} {p : Program} {t u : Ty} {args : List Ty}

theorem intrinsic_cases {i : Intrinsic} {answer : Option Bool} {fallback : Bool}
    (h : (s.intrinsic i answer).getD fallback = true) : answer = some true ∨ fallback = true := by
  unfold intrinsic at h
  split at h
  · cases answer with
    | none => exact Or.inr h
    | some x => exact Or.inl (congrArg some h)
  · exact Or.inr h

/-- A fact that falls back on what is known of scalars. -/
theorem elementsHave_of_answer {i : Intrinsic} {q : Question} {fact : Record → Bool}
    (h : (s.intrinsic i (s.ask q t args (Introspection.objectFact p t fact))).getD
      t.element.isScalar = true) : p.elementsHave fact t = true := by
  rcases answer_cases h with h | h
  · exact h
  · exact elementsHave_of_isScalar h

theorem isConstructible_cases (hreference : t.isReference = false)
    (h : s.isConstructible t args = true) : (s.construct t args).isOk = true := by
  rcases answer_cases h with h | h
  · obtain ⟨e, h⟩ := Option.isSome_iff_exists.mp h
    exact construct_of_construction hreference h
  · exact h

/-- The provider initializes a scalar from its own type trivially. -/
theorem trivial_of_scalar_construction {a : Ty} {e : Effects} (hscalar : t.isScalar = true)
    (hsame : a.removeCvref = t.removeCv)
    (h : Introspection.construction p t [a] = some e) : e.trivial = true := by
  obtain ⟨exprs, hexprs, hinit, _⟩ := construction_eq_some.mp h
  obtain ⟨x, rest, rfl, hx, hrest⟩ := Expr.declvals_cons hexprs
  cases hrest
  have hreturns := Check.Returns.of_result hinit
  rw [Program.directInit, checker_eq] at hreturns
  obtain ⟨deeper, hstep⟩ := construct_returns hreturns
  have hsource : x.type.isRecord = false := by
    refine not_isRecord_of_unqualified ?_
    rw [Expr.unqualified_of_declval hx, hsame]
    exact isScalar_unqualified hscalar
  obtain ⟨c, hc, rfl⟩ := convert_of_constructStep hscalar hstep
  rw [effects_of_convert hscalar hsource hc]
  rfl

/-- The provider's assignment is one of the values that the types declare. -/
theorem assignment_eq_some {e : Effects} : Introspection.assignment p t u = some e ↔
    ∃ a b, Expr.declval t = .ok a ∧ Expr.declval u = .ok b ∧ (p.assign a b).result = .ok e := by
  unfold Introspection.assignment
  cases Expr.declval t with
  | error _ => simp [Except.toOption]
  | ok a =>
    cases Expr.declval u with
    | error _ => simp [Except.toOption]
    | ok b => cases hassign : (p.assign a b).result <;> simp [Except.toOption, hassign]

/-- What the fallback assigns, the provider assigns. -/
theorem introspection_of_assignment (h : (s.assignment t u).isOk = true) :
    ∃ e, Introspection.assignment s.program t u = some e := by
  unfold assignment at h
  split at h
  · cases h
  · cases ha : Expr.declval t with
    | error _ =>
      rw [ha] at h
      cases h
    | ok a =>
      cases hb : Expr.declval u with
      | error _ =>
        rw [ha, hb] at h
        cases h
      | ok b =>
        rw [ha, hb] at h
        change (s.program.assign a b).result.isOk = true at h
        cases hassign : (s.program.assign a b).result with
        | error _ =>
          rw [hassign] at h
          cases h
        | ok e => exact ⟨e, assignment_eq_some.mpr ⟨a, b, ha, hb, hassign⟩⟩

/-- The provider assigns to a scalar from its own type trivially. -/
theorem trivial_of_scalar_assignment {e : Effects} (hscalar : assignsScalar t u = true)
    (h : Introspection.assignment p t u = some e) : e.trivial = true := by
  cases t with
  | lvalueRef t =>
    simp only [assignsScalar, Bool.and_eq_true, beq_iff_eq] at hscalar
    obtain ⟨⟨_, hsame⟩, hscalar⟩ := hscalar
    obtain ⟨a, b, ha, hb, hassign⟩ := assignment_eq_some.mp h
    cases ha
    have hreturns := Check.Returns.of_result hassign
    have htarget : (Expr.lvalue t).type.isRecord = false := not_isRecord_of_unqualified hscalar
    have hsource : b.type.isRecord = false := by
      refine not_isRecord_of_unqualified ?_
      rw [Expr.unqualified_of_declval hb, hsame]
      exact hscalar
    unfold Program.assign at hreturns
    dsimp only at hreturns
    split at hreturns
    · simp at hreturns
    · rw [htarget, if_neg Bool.false_ne_true] at hreturns
      split at hreturns
      · simp at hreturns
      · obtain ⟨c, hc, heffects⟩ := hreturns.bind
        rw [Program.convert, checker_eq] at hc
        rw [← Check.returns_pure.mp heffects, effects_of_convert hscalar hsource hc]
        rfl
  | _ => cases hscalar

theorem isTriviallyAssignable_conservative (h : s.isTriviallyAssignable t u = true) :
    s.program.solver.isTriviallyAssignable t u = true := by
  rw [isTriviallyAssignable_solver]
  rcases answer_cases h with h | h
  · exact h
  · obtain ⟨hassignable, hscalar⟩ := Bool.and_eq_true_iff.mp h
    obtain ⟨e, he⟩ : ∃ e, Introspection.assignment s.program t u = some e := by
      rcases answer_cases hassignable with h | h
      · exact Option.isSome_iff_exists.mp h
      · exact introspection_of_assignment h
    exact (Option.any_eq_true _ _).mpr ⟨e, he, trivial_of_scalar_assignment hscalar he⟩

variable (hp : ∀ {t : Ty} {r : Record}, s.program.completeRecord? t = some r → r.DefaultFacts)

include hp

theorem hasTrivialDefault_of_construction {e : Effects} (ht : t.isNormal = true)
    (h : Introspection.construction s.program t [] = some e) :
    e.trivial = s.program.hasTrivialDefault t.element := by
  obtain ⟨exprs, hexprs, hinit, _⟩ := construction_eq_some.mp h
  cases hexprs
  have hreturns := Check.Returns.of_result hinit
  rw [Program.directInit, checker_eq] at hreturns
  exact trivial_of_construct_nil hp ht hreturns

omit hp in
theorem hasTrivialDefault_of_triviallyConstructs (h : s.triviallyConstructs t [] = true) :
    s.program.hasTrivialDefault t.element = true := by
  have hanswer := @elementsHave_of_answer s s.program t.element [] .hasTrivialConstructor
    .hasTrivialConstructor (·.facts.trivialDefaultConstructor)
  rw [element_element, elementsHave_element] at hanswer
  exact hanswer h

theorem hasTrivialDefault_of_isTriviallyConstructible (ht : t.isNormal = true)
    (h : s.isTriviallyConstructible t [] = true) :
    s.program.hasTrivialDefault t.element = true := by
  rcases answer_cases h with h | h
  · obtain ⟨e, he, htrivial⟩ := (Option.any_eq_true _ _).mp h
    rw [← hasTrivialDefault_of_construction hp ht he]
    exact htrivial
  · exact hasTrivialDefault_of_triviallyConstructs (Bool.and_eq_true_iff.mp h).2

omit hp in
/-- The provider constructs from nothing only arrays whose dimensions fit under the guard. -/
theorem shallow_of_construction {e : Effects}
    (h : Introspection.construction s.program t args = some e) :
    ¬(args = [] ∧ Limits.initializationDepth ≤ t.rank) := by
  cases hreference : t.isReference with
  | false => exact ((construction_isSome_iff hreference).mp (by rw [h]; rfl)).2
  | true =>
    have hrank : t.rank = 0 := by
      cases t <;> first | rfl | cases hreference
    simp [hrank, Limits.initializationDepth]

omit hp in
theorem isReference_of_isConstructible_nil (h : s.isConstructible t [] = true) :
    t.isReference = false := by
  rw [← Bool.not_eq_true]
  intro hreference
  rcases answer_cases h with h | h
  · obtain ⟨e, h⟩ := Option.isSome_iff_exists.mp h
    obtain ⟨exprs, hexprs, hinit, _⟩ := construction_eq_some.mp h
    obtain ⟨_, _, hnil, _⟩ := single_of_directInit hreference hexprs (.of_result hinit)
    cases hnil
  · cases t with
    | lvalueRef _ | rvalueRef _ => simp [construct, Ty.referent?, Except.isOk, Except.toBool] at h
    | _ => cases hreference

/-- What the fallback takes for trivial, the provider constructs trivially if at all. -/
theorem trivial_of_triviallyConstructs {e : Effects} (ht : t.isNormal = true)
    (h : s.triviallyConstructs t args = true)
    (he : Introspection.construction s.program t args = some e) : e.trivial = true := by
  match args with
  | [] =>
    rw [hasTrivialDefault_of_construction hp ht he]
    exact hasTrivialDefault_of_triviallyConstructs h
  | [a] =>
    simp only [triviallyConstructs, Bool.and_eq_true, beq_iff_eq] at h
    exact trivial_of_scalar_construction h.2 h.1.2 he
  | _ :: _ :: _ => cases h

theorem isTriviallyConstructible_conservative (ht : t.isNormal = true)
    (h : s.isTriviallyConstructible t args = true) :
    s.program.solver.isTriviallyConstructible t args = true ↔
      ¬(args = [] ∧ Limits.initializationDepth ≤ t.rank) := by
  rw [isTriviallyConstructible_solver]
  rcases answer_cases h with h | h
  · obtain ⟨e, he, _⟩ := (Option.any_eq_true _ _).mp h
    exact iff_of_true h (shallow_of_construction he)
  · obtain ⟨hconstructible, htrivially⟩ := Bool.and_eq_true_iff.mp h
    have hreference : t.isReference = false := by
      match args with
      | [] => exact isReference_of_isConstructible_nil hconstructible
      | [a] =>
        simp only [triviallyConstructs, Bool.and_eq_true, Bool.not_eq_true'] at htrivially
        exact htrivially.1.1
      | _ :: _ :: _ => cases htrivially
    constructor
    · intro hprovider
      obtain ⟨e, he, _⟩ := (Option.any_eq_true _ _).mp hprovider
      exact shallow_of_construction he
    · intro hshallow
      have hconstructs := isConstructible_cases hreference hconstructible
      obtain ⟨e, he⟩ := Option.isSome_iff_exists.mp
        ((construction_isSome_iff hreference).mpr ⟨hconstructs, hshallow⟩)
      exact (Option.any_eq_true _ _).mpr
        ⟨e, he, trivial_of_triviallyConstructs hp ht htrivially he⟩

omit hp in
/-- What an intrinsic tells where the solver has it and its provider leaves no question open. -/
theorem answer_of_has {i : Intrinsic} {q : Question} {answer fallback : Bool}
    (hprovider : s.provider = .declarations) (h : s.capabilities.has i = true) :
    (s.intrinsic i (s.ask q t args (some answer))).getD fallback = answer := by
  have hask : s.ask q t args (some answer) = some answer := by
    rw [ask, hprovider]
    exact if_pos rfl
  rw [intrinsic, if_pos h, hask, Option.getD_some]

/-- Construction from nothing is trivial as the facts of the elements tell, if they are asked. -/
theorem isTriviallyConstructible_of_facts (hprovider : s.provider = .declarations)
    (hconstructible : s.capabilities.has .isConstructible = true)
    (htrivial : s.capabilities.has .hasTrivialConstructor = true) (ht : t.isNormal = true) :
    s.isTriviallyConstructible t [] = s.program.solver.isTriviallyConstructible t [] := by
  rw [isTriviallyConstructible_solver]
  by_cases hintrinsic : s.capabilities.has .isTriviallyConstructible = true
  · exact answer_of_has hprovider hintrinsic
  · have hconstructs : s.isConstructible t [] =
        (Introspection.construction s.program t []).isSome :=
      answer_of_has hprovider hconstructible
    have hdefault : s.triviallyConstructs t [] = s.program.hasTrivialDefault t.element := by
      change _ = s.program.elementsHave (·.facts.trivialDefaultConstructor) t
      rw [← elementsHave_element]
      exact answer_of_has hprovider htrivial
    rw [isTriviallyConstructible, intrinsic, if_neg hintrinsic, Option.getD_none, hconstructs,
      hdefault]
    cases he : Introspection.construction s.program t [] with
    | none => rfl
    | some e =>
      rw [Option.isSome_some, Bool.true_and, Option.any_some]
      exact (hasTrivialDefault_of_construction hp ht he).symm

/-- With a trivial default constructor, an object is trivial if it is trivially copyable. -/
theorem isTrivial_iff_of_hasTrivialDefault
    (h : s.program.hasTrivialDefault t.element = true) :
    s.program.solver.isTrivial t = s.program.solver.isTriviallyCopyable t := by
  rw [isTrivial_solver, isTriviallyCopyable_solver]
  unfold hasTrivialDefault at h
  unfold elementsHave
  cases hr : s.program.completeRecord? t.element with
  | none => rfl
  | some r =>
    rw [hr] at h
    cases hscalar : t.element.isScalar with
    | true => rfl
    | false =>
      rw [hscalar] at h
      have hdefault : r.facts.trivialDefaultConstructor = true := h
      simp [(hp hr).trivial, hdefault]

theorem isTrivial_conservative (ht : t.isNormal = true) (h : s.isTrivial t = true) :
    s.program.solver.isTrivial t = true := by
  rcases answer_cases h with h | h
  · rw [isTrivial_solver]
    exact h
  · obtain ⟨hcopyable, hconstructible⟩ := Bool.and_eq_true_iff.mp h
    rw [isTrivial_iff_of_hasTrivialDefault hp
      (hasTrivialDefault_of_isTriviallyConstructible hp ht hconstructible),
      isTriviallyCopyable_solver]
    exact elementsHave_of_answer hcopyable

omit hp in
theorem isStandardLayout_conservative (h : s.isStandardLayout t = true) :
    s.program.solver.isStandardLayout t = true := by
  rw [isStandardLayout_solver]
  exact elementsHave_of_answer h

omit hp in
theorem of_podAnswer (h : s.podAnswer t = some true) :
    s.program.solver.isTrivial t = true ∧ s.program.solver.isStandardLayout t = true := by
  rw [isTrivial_solver, isStandardLayout_solver]
  change (s.ask .isTrivial t [] (some (s.program.elementsHave (·.facts.trivial) t))).bind
    (fun trivial => if trivial then s.ask .isStandardLayout t []
      (some (s.program.elementsHave (·.facts.standardLayout) t)) else some false) = some true at h
  unfold ask at h
  cases hfirst : s.provider.answers .isTrivial t [] <;>
    cases hsecond : s.provider.answers .isStandardLayout t [] <;>
    cases htrivial : s.program.elementsHave (·.facts.trivial) t <;> simp_all

theorem isTriviallyCopyable_of_isTrivial (h : s.program.solver.isTrivial t = true) :
    s.program.solver.isTriviallyCopyable t = true := by
  rw [isTrivial_solver] at h
  rw [isTriviallyCopyable_solver]
  rcases Bool.or_eq_true_iff.mp h with h | h
  · exact elementsHave_of_isScalar h
  · obtain ⟨r, hr, htrivial⟩ := (Option.any_eq_true _ _).mp h
    rw [(hp hr).trivial] at htrivial
    rw [elementsHave, hr, Option.any_some, (Bool.and_eq_true_iff.mp htrivial).1, Bool.or_true]

/-- The fallback for plain old data looks only at the copy operations that are selected. -/
theorem isPod_conservative (ht : t.isNormal = true) (h : s.isPod t = true) :
    s.program.solver.isPod t = true ↔ s.program.solver.isTriviallyCopyable t = true := by
  rw [isPod_solver]
  rcases intrinsic_cases h with h | h
  · obtain ⟨htrivial, hlayout⟩ := of_podAnswer h
    rw [htrivial, hlayout]
    exact iff_of_true rfl (isTriviallyCopyable_of_isTrivial hp htrivial)
  · simp only [Bool.and_eq_true] at h
    obtain ⟨⟨⟨⟨hconstructible, _⟩, _⟩, _⟩, hlayout⟩ := h
    have hdefault := hasTrivialDefault_of_isTriviallyConstructible hp (isNormal_element ht) hconstructible
    rw [element_element] at hdefault
    have hlayout := isStandardLayout_conservative hlayout
    rw [isStandardLayout_solver, elementsHave_element, ← isStandardLayout_solver] at hlayout
    rw [isTrivial_iff_of_hasTrivialDefault hp hdefault, hlayout, Bool.and_true]

omit hp in
/-- The fallback takes an array of references for literal. -/
theorem isLiteralType_conservative (h : s.isLiteralType t = true) :
    s.program.solver.isLiteralType t = true ↔
      ¬(t.isArray = true ∧ t.element.isReference = true) := by
  have hliteral : s.program.solver.isLiteralType t = true ∨ t.element.isReference = true := by
    rw [isLiteralType_solver]
    rcases intrinsic_cases h with h | h
    · unfold ask at h
      split at h
      · unfold Introspection.isLiteralType at h
        split at h
        · simp_all
        · have hfact : s.program.elementsHave (·.facts.literal) t = true := Option.some.inj h
          exact Or.inl (by rw [hfact, Bool.or_true])
      · cases h
    · rcases Bool.or_eq_true_iff.mp h with h | h
      · exact Or.inl (by rw [elementsHave_of_isScalar h, Bool.or_true])
      · exact Or.inr h
  rw [isLiteralType_solver] at hliteral ⊢
  cases harray : t.isArray with
  | true =>
    have hplain : (t.isReference || t.isVoid) = false := by
      cases t <;> first | rfl | cases harray
    rw [hplain, Bool.false_or] at hliteral ⊢
    constructor
    · rintro h ⟨_, hreference⟩
      rw [not_isReference_of_elementsHave h] at hreference
      cases hreference
    · exact fun h => hliteral.resolve_right fun hreference => h ⟨rfl, hreference⟩
  | false =>
    refine iff_of_true (hliteral.elim id fun hreference => ?_) (by simp)
    cases t <;> simp_all [Ty.element, Ty.isReference, Ty.referent?, Ty.isArray, Ty.arrayParts?]

end Solver

namespace Development

open Solver Program

variable {d : Development} {s : Solver} {t u : Ty} {args : List Ty}

/-- What is answered with yes about triviality or layout, on whichever path, the provider answers with
yes, but for three exceptions: only the fallback constructs an array of too many dimensions, takes
a class for plain old data that has copy or move operations which are not trivial but not selected
either, and takes an array of references for literal. -/
theorem fallbacks_conservative (h : d.Reachable) (hs : s.program = d.program) (ht : t.IsFormed) :
    (s.isTriviallyConstructible t args = true →
      (d.program.solver.isTriviallyConstructible t args = true ↔
        ¬(args = [] ∧ Limits.initializationDepth ≤ t.rank))) ∧
    (s.isTriviallyAssignable t u = true →
      d.program.solver.isTriviallyAssignable t u = true) ∧
    (s.isTriviallyCopyable t = true → d.program.solver.isTriviallyCopyable t = true) ∧
    (s.isTrivial t = true → d.program.solver.isTrivial t = true) ∧
    (s.isStandardLayout t = true → d.program.solver.isStandardLayout t = true) ∧
    (s.isPod t = true →
      (d.program.solver.isPod t = true ↔ d.program.solver.isTriviallyCopyable t = true)) ∧
    (s.isLiteralType t = true →
      (d.program.solver.isLiteralType t = true ↔
        ¬(t.isArray = true ∧ t.element.isReference = true))) := by
  have ht : t.isNormal = true := Ty.isFormed_iff_isNormal.mp ht
  have hp : ∀ {t : Ty} {r : Record}, s.program.completeRecord? t = some r → r.DefaultFacts :=
    fun hr => h.defaultFacts (hs ▸ hr)
  rw [← hs]
  exact ⟨isTriviallyConstructible_conservative hp ht, isTriviallyAssignable_conservative,
    fun h => isTriviallyCopyable_solver.trans (elementsHave_of_answer h),
    isTrivial_conservative hp ht, isStandardLayout_conservative, isPod_conservative hp ht,
    isLiteralType_conservative⟩

/-- With the intrinsics for construction and for the fact of a trivial default constructor, a type is
trivially constructible from nothing exactly if it is with all intrinsics: the fact speaks of all
default constructors, and an object is constructed by the one that is selected. -/
theorem trivial_construction_by_facts (h : d.Reachable) (hs : s.program = d.program)
    (hprovider : s.provider = .declarations)
    (hconstructible : s.capabilities.has .isConstructible = true)
    (htrivial : s.capabilities.has .hasTrivialConstructor = true) (ht : t.IsFormed) :
    s.isTriviallyConstructible t [] = d.program.solver.isTriviallyConstructible t [] := by
  rw [← hs]
  exact isTriviallyConstructible_of_facts (fun hr => h.defaultFacts (hs ▸ hr)) hprovider
    hconstructible htrivial (Ty.isFormed_iff_isNormal.mp ht)

/-- A class that is copied trivially but has a move constructor of its own. -/
def movedByHand : Development :=
  performAll { program := { target := .lp64 } }
    [.start "Moved" .struct,
      .write ⟨1⟩ (.constructor (.declare [] .void [.defaulted])),
      .write ⟨1⟩ (.constructor
        (.declare [.lvalueRef (.qualified (.record ⟨1⟩) .const)] .void [.defaulted])),
      .write ⟨1⟩ (.constructor (.declare [.rvalueRef (.record ⟨1⟩)] .void [])),
      .write ⟨1⟩ (.assignment
        (.declare [.lvalueRef (.qualified (.record ⟨1⟩) .const)] .void [.defaulted])),
      .finish ⟨1⟩]

theorem reachable_movedByHand : movedByHand.Reachable := by
  refine (Reachable.fresh .lp64).performAll ?_
  intro a ha
  simp only [List.mem_cons, List.not_mem_nil, or_false] at ha
  rcases ha with rfl | rfl | rfl | rfl | rfl | rfl
  case inl => trivial
  case inr.inr.inr.inr.inr => trivial
  all_goals exact RecordStep.isWritten_of_declare rfl (by decide)

/-- The solver that has every intrinsic but the one for plain old data. -/
def withoutPod : Solver :=
  movedByHand.program.solverWith (Capabilities.all.intrinsics ^^^ 1#32 <<< Intrinsic.isPod.index)

/-- Without its intrinsic the fallback takes the class for plain old data, for which the provider
has it not, since it is not trivially copyable. -/
theorem fallbacks_conservative_movedByHand :
    movedByHand.Reachable ∧ withoutPod.program = movedByHand.program ∧ (Ty.record ⟨1⟩).IsFormed ∧
      withoutPod.isPod (.record ⟨1⟩) = true ∧
      ¬movedByHand.program.solver.isPod (.record ⟨1⟩) = true := by
  have hpod : withoutPod.isPod (.record ⟨1⟩) = true := by decide +kernel
  have hcopyable : movedByHand.program.solver.isTriviallyCopyable (.record ⟨1⟩) = false := by
    decide +kernel
  have hconservative := @fallbacks_conservative movedByHand withoutPod (.record ⟨1⟩) .void []
    reachable_movedByHand rfl (.record _)
  refine ⟨reachable_movedByHand, rfl, .record _, hpod, ?_⟩
  rw [hconservative.2.2.2.2.2.1 hpod, hcopyable]
  exact Bool.false_ne_true

/-- The solver for this class that has only the intrinsic for construction and the one for the fact
of a trivial default constructor. -/
def onlyFacts : Solver :=
  movedByHand.program.solverWith (1#32 <<< Intrinsic.isConstructible.index |||
    1#32 <<< Intrinsic.hasTrivialConstructor.index)

/-- An array of the class is trivially constructible by its fact as well. -/
theorem trivial_construction_by_facts_movedByHand :
    movedByHand.Reachable ∧ onlyFacts.program = movedByHand.program ∧
      onlyFacts.provider = .declarations ∧
      onlyFacts.capabilities.has .isConstructible = true ∧
      onlyFacts.capabilities.has .hasTrivialConstructor = true ∧
      onlyFacts.capabilities.has .isTriviallyConstructible = false ∧
      (Ty.array (.record ⟨1⟩) (some 3)).IsFormed ∧
      onlyFacts.isTriviallyConstructible (.array (.record ⟨1⟩) (some 3)) [] =
        movedByHand.program.solver.isTriviallyConstructible (.array (.record ⟨1⟩) (some 3)) [] ∧
      onlyFacts.isTriviallyConstructible (.array (.record ⟨1⟩) (some 3)) [] = true := by
  have hformed : (Ty.array (.record ⟨1⟩) (some 3)).IsFormed := by
    rw [Ty.isFormed_iff_isNormal]
    decide
  refine ⟨reachable_movedByHand, rfl, rfl, by decide, by decide, by decide, hformed,
    trivial_construction_by_facts reachable_movedByHand rfl rfl (by decide) (by decide) hformed,
    by decide +kernel⟩

end Development
end TypeTraits
