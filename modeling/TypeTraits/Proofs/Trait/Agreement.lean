import TypeTraits.Proofs.Expr.InitializationForms
import TypeTraits.Proofs.Trait.ConstructionPaths

/-!
# Where the two ways to ask for a construction agree

Without the intrinsics for them, the traits about construction fall back on what the language would
do. Two paths lead to an answer then, and they part in a few ways only: on arrays of too many
dimensions, on casts down to a class that is constructed from its base, where an explicit conversion
function is considered by one path alone, and where an initialization takes too many steps. Wherever
none of these ways is taken, no choice of intrinsics changes an answer.
-/

namespace TypeTraits
namespace Program

open Solver

/-- The solver that has every intrinsic, feature and answer. -/
def solver (p : Program) : Solver := { program := p }

@[simp] theorem program_solver {p : Program} : p.solver.program = p := rfl

/-- The solver that has some intrinsics, and every feature and answer. -/
def solverWith (p : Program) (intrinsics : BitVec 32) : Solver :=
  { program := p, capabilities := { Capabilities.all with intrinsics } }

theorem construct_solverWith {p : Program} {intrinsics : BitVec 32} {t : Ty} {args : List Ty} :
    (p.solverWith intrinsics).construct t args = p.solver.construct t args := construct_congr rfl

/-- An answer of the provider counts where the intrinsic for it is available. -/
theorem answer_solverWith {p : Program} {intrinsics : BitVec 32} {i : Intrinsic} {q : Question}
    {t : Ty} {args : List Ty} {answer fallback : Bool} :
    ((p.solverWith intrinsics).intrinsic i
      ((p.solverWith intrinsics).ask q t args (some answer))).getD fallback =
      if intrinsics.getLsbD i.index then answer else fallback := by
  change (if intrinsics.getLsbD i.index then some answer else none).getD fallback = _
  cases intrinsics.getLsbD i.index <;> rfl

theorem isConstructible_solverWith {p : Program} {intrinsics : BitVec 32} {t : Ty}
    {args : List Ty} :
    (p.solverWith intrinsics).isConstructible t args =
      if intrinsics.getLsbD Intrinsic.isConstructible.index then (providerOutcome p t args).isSome
      else (p.solver.fallbackOutcome t args).isSome := by
  have hfallback : (p.solver.fallbackOutcome t args).isSome = (p.solver.construct t args).isOk := by
    unfold fallbackOutcome
    cases (p.solver.construct t args).isOk <;> rfl
  rw [hfallback, ← @construct_solverWith p intrinsics, providerOutcome, Option.isSome_map]
  exact answer_solverWith

theorem isNothrowConstructible_solverWith {p : Program} {intrinsics : BitVec 32} {t : Ty}
    {args : List Ty} :
    (p.solverWith intrinsics).isNothrowConstructible t args =
      ((p.solverWith intrinsics).isConstructible t args &&
        if intrinsics.getLsbD Intrinsic.isNothrowConstructible.index then
          (providerOutcome p t args).any id
        else p.solver.constructsNothrow t args) := by
  unfold Solver.isNothrowConstructible
  have hnoexcept : (p.solverWith intrinsics).knowsNoexcept = true :=
    Capabilities.supports_all .noexcept
  rw [hnoexcept, providerOutcome, Option.any_map]
  exact congrArg _ answer_solverWith

/-- The intrinsics do not change an answer exactly where the two paths come to the same. -/
theorem forall_intrinsics_iff {p : Program} {t : Ty} {args : List Ty} :
    (∀ intrinsics : BitVec 32,
      (p.solverWith intrinsics).isConstructible t args = p.solver.isConstructible t args ∧
      (p.solverWith intrinsics).isNothrowConstructible t args =
        p.solver.isNothrowConstructible t args) ↔
      providerOutcome p t args = p.solver.fallbackOutcome t args := by
  have hconstructible : p.solver.isConstructible t args = (providerOutcome p t args).isSome :=
    @isConstructible_solverWith p Capabilities.all.intrinsics t args
  have hnothrow : p.solver.isNothrowConstructible t args =
      (p.solver.isConstructible t args && (providerOutcome p t args).any id) :=
    @isNothrowConstructible_solverWith p Capabilities.all.intrinsics t args
  constructor
  · intro h
    have hzero := h 0
    rw [isNothrowConstructible_solverWith, hnothrow, isConstructible_solverWith, hconstructible]
      at hzero
    simp only [BitVec.ofNat_eq_ofNat, BitVec.getLsbD_zero, Bool.false_eq_true, if_false,
      fallbackOutcome] at hzero ⊢
    cases hp : providerOutcome p t args <;>
      cases hok : (p.solver.construct t args).isOk <;> simp_all
  · intro h intrinsics
    rw [isNothrowConstructible_solverWith, hnothrow, isConstructible_solverWith, hconstructible, h]
    simp only [fallbackOutcome]
    cases hok : (p.solver.construct t args).isOk <;> simp

/-- Whether one of the two forms of an initialization takes more steps than the guard is deep. -/
def IsLong (p : Program) (t : Ty) (e : Expr) : Prop :=
  Limits.initializationDepth < (p.copyInit t e).steps ∨
    Limits.initializationDepth < (p.directInit t [e]).steps

/-- The ways in which the two paths part on a construction. -/
inductive Diverges (p : Program) : Ty → List Ty → Prop
  /-- The fallback does not count the dimensions of an array. -/
  | deepArray {t : Ty} : t.isReference = false → Limits.initializationDepth ≤ t.rank →
      (p.solver.construct t []).isOk = true → Diverges p t []
  /-- The fallback copy-initializes a reference, which considers no explicit conversion functions,
  and direct initialization comes to something else. -/
  | copied {t source : Ty} {e : Expr} {effects : Effects} : t.isReference = true →
      Expr.declval source = .ok e → p.hasExplicitConversion e = true ∨ p.IsLong t e →
      (p.copyInit t e).result = .ok effects →
      outcome (p.directInit t [e]).result ≠ some effects.nothrow → Diverges p t [source]
  /-- The fallback takes a cast down for a construction when the derived class has a constructor
  for the source. -/
  | downcast {t source referent : Ty} {isRvalueRef : Bool} {e : Expr} :
      t.referent? = some (referent, isRvalueRef) → Expr.declval source = .ok e →
      (p.copyInit t e).result.isOk = false → p.castsDown e referent isRvalueRef = true →
      (p.solver.constructObject referent.unqualified [source]).isOk = true →
      outcome (p.directInit t [e]).result ≠ some true → Diverges p t [source]
  /-- The fallback takes the binding of a reference to a derived class for a cast down, where an
  explicit conversion function allows the binding. -/
  | rejected {t source referent : Ty} {isRvalueRef : Bool} {e : Expr} :
      t.referent? = some (referent, isRvalueRef) → Expr.declval source = .ok e →
      p.hasExplicitConversion e = true ∨ p.IsLong t e →
      (p.copyInit t e).result.isOk = false → (p.directInit t [e]).result.isOk = true →
      e.type.unqualified ≠ referent.unqualified →
      p.isBaseOf e.type.unqualified referent.unqualified = true →
      (p.solver.constructObject referent.unqualified [source]).isOk = false → Diverges p t [source]
  /-- The steps of the failed copy-initialization count against the binding that is tried again. -/
  | boundAgain {t source referent : Ty} {isRvalueRef : Bool} {e : Expr} :
      t.referent? = some (referent, isRvalueRef) → Expr.declval source = .ok e → p.IsLong t e →
      (p.copyInit t e).result.isOk = false → p.castsDown e referent isRvalueRef = false →
      p.solver.isCastOnly t isRvalueRef source = false →
      outcome (p.bindAgain t e) ≠ outcome (p.directInit t [e]).result → Diverges p t [source]

end Program

namespace Development

open Solver Program

variable {d : Development} {t source referent : Ty} {args : List Ty} {isRvalueRef : Bool} {e : Expr}

/-- What a cast that may be a construction comes to. -/
theorem outcome_cast {p : Program} (htarget : t.referent? = some (referent, isRvalueRef))
    (he : Expr.declval source = .ok e) (hsource : e.type.isNormal = true)
    (hreferent : referent.isNormal = true) (hcopy : (p.copyInit t e).result.isOk = false)
    (hcast : p.solver.isCastOnly t isRvalueRef source = false) :
    outcome ((p.staticCastReference t e).run
        ((p.copyInit t e).run (.fresh .initialization)).2).1 =
      if p.castsDown e referent isRvalueRef then some true else outcome (p.bindAgain t e) := by
  have hacross : p.castsAcross e referent isRvalueRef = false := by
    cases hacross : p.castsAcross e referent isRvalueRef with
    | false => rfl
    | true =>
      have hcastOnly := @isCastOnly_of_castsAcross p.solver _ _ _ _ _ htarget he hsource hreferent
        hacross hcopy
      rw [hcast] at hcastOnly
      cases hcastOnly
  rw [staticCastReference_eq htarget, hacross]
  cases p.castsDown e referent isRvalueRef <;> rfl

/-- What the fallback makes of a reference that is not copy-initialized. -/
theorem fallbackOutcome_of_not_copied {p : Program}
    (htarget : t.referent? = some (referent, isRvalueRef)) (he : Expr.declval source = .ok e)
    (hsource : e.type.isNormal = true) (hreferent : referent.isNormal = true)
    (hcopy : (p.copyInit t e).result.isOk = false) :
    p.solver.fallbackOutcome t [source] =
      if p.solver.isCastOnly t isRvalueRef source then none
      else if p.castsDown e referent isRvalueRef then some true
      else outcome (p.bindAgain t e) := by
  rw [@fallbackOutcome_of_cast p.solver _ _ _ _ _ htarget he hcopy]
  cases hcast : p.solver.isCastOnly t isRvalueRef source with
  | true => rfl
  | false => exact outcome_cast htarget he hsource hreferent hcopy hcast

/-- Where the paths agree on a reference, none of the ways to part is taken. -/
theorem not_diverges_of_reference (hd : d.Valid)
    (htarget : t.referent? = some (referent, isRvalueRef)) (he : Expr.declval source = .ok e)
    (hsource : e.type.isNormal = true) (hreferent : referent.isNormal = true)
    (heq : providerOutcome d.program t [source] = d.program.solver.fallbackOutcome t [source]) :
    ¬d.program.Diverges t [source] := by
  have hdown := @isCastOnly_of_castsDown d.program.solver _ _ _ _ _ d hd rfl htarget he hsource
    hreferent
  have hcast := @isCastOnly_iff d.program.solver _ _ _ _ _ htarget he
  have hfallback := @fallbackOutcome_of_not_copied _ _ _ _ _ d.program htarget he hsource hreferent
  rw [providerOutcome_reference htarget he] at heq
  intro hdiverges
  cases hdiverges with
  | copied _ he' _ hcopy hne =>
    cases he.symm.trans he'
    exact hne
      (heq.trans (@fallbackOutcome_of_copied d.program.solver _ _ _ _ _ _ htarget he hcopy))
  | downcast htarget' he' hcopy hcasts hconstruct hne =>
    cases he.symm.trans he'
    cases htarget.symm.trans htarget'
    have hcastOnly : d.program.solver.isCastOnly t isRvalueRef source = false := by
      rw [← Bool.not_eq_true, hdown hcasts, hconstruct]
      exact Bool.noConfusion
    rw [hfallback hcopy, hcastOnly, hcasts] at heq
    exact hne heq
  | rejected htarget' he' _ hcopy hdirect hneq hbase hconstruct =>
    cases he.symm.trans he'
    cases htarget.symm.trans htarget'
    rw [hfallback hcopy, hcast.mpr (Or.inl ⟨hneq, hbase, hconstruct⟩)] at heq
    cases hresult : (d.program.directInit t [e]).result with
    | error _ => simp [hresult, Except.isOk, Except.toBool] at hdirect
    | ok effects => simp [hresult, outcome, Except.toOption] at heq
  | boundAgain htarget' he' _ hcopy hcasts hcastOnly hne =>
    cases he.symm.trans he'
    cases htarget.symm.trans htarget'
    rw [hfallback hcopy, hcastOnly, hcasts] at heq
    exact hne heq.symm

/-- Only explicit conversions and length set the two initializations of a reference apart. -/
theorem copyInit_result_eq {p : Program} (htarget : t.referent? = some (referent, isRvalueRef))
    (hcommon : ¬(p.hasExplicitConversion e = true ∨ p.IsLong t e)) :
    (p.copyInit t e).result = (p.directInit t [e]).result := by
  obtain ⟨hexplicit, hlong⟩ := not_or.mp hcommon
  exact copyInit_eq_directInit htarget (Bool.eq_false_iff.mpr hexplicit)
    (Nat.le_of_not_lt (not_or.mp hlong).2)

/-- What the fallback takes for a cast only is no construction, where none of the ways to part is
taken. -/
theorem directInit_isOk_of_isCastOnly {p : Program}
    (htarget : t.referent? = some (referent, isRvalueRef)) (he : Expr.declval source = .ok e)
    (hcopy : (p.copyInit t e).result.isOk = false)
    (hcastOnly : p.solver.isCastOnly t isRvalueRef source = true) (h : ¬p.Diverges t [source]) :
    (p.directInit t [e]).result.isOk = false := by
  by_contra hdirect
  rw [Bool.not_eq_false] at hdirect
  rcases (isCastOnly_iff htarget he).mp hcastOnly with
    ⟨hne, hbase, hconstruct⟩ | ⟨_, _, _, hrelated⟩
  · by_cases hcommon : p.hasExplicitConversion e = true ∨ p.IsLong t e
    · exact h (.rejected htarget he hcommon hcopy hdirect hne hbase hconstruct)
    · rw [copyInit_result_eq htarget hcommon, hdirect] at hcopy
      cases hcopy
  · cases hbound : p.bindAtOnce? e referent isRvalueRef with
    | some bound =>
      rw [directInit_of_atOnce htarget hbound, hcopy] at hdirect
      cases hdirect
    | none => exact referenceRelation_eq_none.mp (bindAtOnce?_eq_none.mp hbound).2 hrelated

/-- Where none of the ways to part is taken, the paths agree on a reference. -/
theorem outcomes_eq_of_not_diverges (hd : d.Valid)
    (htarget : t.referent? = some (referent, isRvalueRef)) (he : Expr.declval source = .ok e)
    (hsource : e.type.isNormal = true) (hreferent : referent.isNormal = true)
    (h : ¬d.program.Diverges t [source]) :
    providerOutcome d.program t [source] = d.program.solver.fallbackOutcome t [source] := by
  rw [providerOutcome_reference htarget he]
  cases hresult : (d.program.copyInit t e).result with
  | ok effects =>
    rw [@fallbackOutcome_of_copied d.program.solver _ _ _ _ _ _ htarget he hresult]
    by_cases hcommon : d.program.hasExplicitConversion e = true ∨ d.program.IsLong t e
    · exact Decidable.byContradiction fun hne =>
        h (.copied (by simp [Ty.isReference, htarget]) he hcommon hresult hne)
    · rw [← copyInit_result_eq htarget hcommon, hresult]
      rfl
  | error reason =>
    have hcopy : (d.program.copyInit t e).result.isOk = false := by rw [hresult]; rfl
    rw [fallbackOutcome_of_not_copied htarget he hsource hreferent hcopy]
    cases hcastOnly : d.program.solver.isCastOnly t isRvalueRef source with
    | true =>
      have hdirect := directInit_isOk_of_isCastOnly htarget he hcopy hcastOnly h
      cases hfailed : (d.program.directInit t [e]).result with
      | error _ => rfl
      | ok effects =>
        rw [hfailed] at hdirect
        cases hdirect
    | false =>
      cases hcasts : d.program.castsDown e referent isRvalueRef with
      | true =>
        have hconstruct :
            (d.program.solver.constructObject referent.unqualified [source]).isOk = true := by
          have hnot := mt (isCastOnly_of_castsDown (s := d.program.solver) hd rfl htarget he hsource
            hreferent hcasts).mpr (Bool.eq_false_iff.mp hcastOnly)
          exact Bool.not_eq_false _ ▸ hnot
        exact Decidable.byContradiction fun hne =>
          h (.downcast htarget he hcopy hcasts hconstruct hne)
      | false =>
        by_cases hlong : d.program.IsLong t e
        · exact Decidable.byContradiction fun hne =>
            h (.boundAgain htarget he hlong hcopy hcasts hcastOnly (Ne.symm hne))
        · obtain ⟨hshort, hdirect⟩ := not_or.mp hlong
          rw [← bindAgain_eq_directInit htarget (Nat.le_of_not_lt hshort)
            (Nat.le_of_not_lt hdirect)]
          rfl

/-- The paths agree on a construction exactly where none of the ways to part is taken. -/
theorem outcomes_eq_iff (hd : d.Valid) (ht : t.isNormal = true)
    (hargs : ∀ a ∈ args, a.isNormal = true) :
    providerOutcome d.program t args = d.program.solver.fallbackOutcome t args ↔
      ¬d.program.Diverges t args := by
  cases htarget : t.referent? with
  | none =>
    have hreference : t.isReference = false := by simp [Ty.isReference, htarget]
    have hobject := @outcomes_eq_iff_of_object d.program.solver t args hreference
    rw [program_solver] at hobject
    refine hobject.trans (not_congr ⟨?_, ?_⟩)
    · rintro ⟨rfl, hdeep, hok⟩
      exact .deepArray hreference hdeep hok
    · intro hdiverges
      cases hdiverges with
      | deepArray _ hdeep hok => exact ⟨rfl, hdeep, hok⟩
      | copied hreference' => simp [hreference] at hreference'
      | downcast htarget' => simp [htarget] at htarget'
      | rejected htarget' => simp [htarget] at htarget'
      | boundAgain htarget' => simp [htarget] at htarget'
  | some parts =>
    obtain ⟨referent, isRvalueRef⟩ := parts
    have hreference : t.isReference = true := by simp [Ty.isReference, htarget]
    have hreferent := (Ty.isNormal_of_referent? ht htarget).1
    by_cases hsingle : ∃ source e, args = [source] ∧ Expr.declval source = .ok e
    · obtain ⟨source, e, rfl, he⟩ := hsingle
      have hsource := Expr.isNormal_of_declval (hargs source List.mem_cons_self) he
      exact ⟨not_diverges_of_reference hd htarget he hsource hreferent,
        outcomes_eq_of_not_diverges hd htarget he hsource hreferent⟩
    · have hequal := @outcomes_eq_of_not_single d.program.solver _ _ hreference hsingle
      rw [program_solver] at hequal
      refine iff_of_true hequal fun hdiverges => ?_
      cases hdiverges with
      | deepArray hobject => simp [hreference] at hobject
      | copied _ he => exact hsingle ⟨_, _, rfl, he⟩
      | downcast _ he => exact hsingle ⟨_, _, rfl, he⟩
      | rejected _ he => exact hsingle ⟨_, _, rfl, he⟩
      | boundAgain _ he => exact hsingle ⟨_, _, rfl, he⟩

/-- No intrinsic changes what is answered about a construction exactly where none of the ways to
part is taken. -/
theorem intrinsics_agree_iff (h : d.Reachable) (ht : t.IsFormed) (hargs : ∀ a ∈ args, a.IsFormed) :
    (∀ intrinsics : BitVec 32,
      (d.program.solverWith intrinsics).isConstructible t args =
        d.program.solver.isConstructible t args ∧
      (d.program.solverWith intrinsics).isNothrowConstructible t args =
        d.program.solver.isNothrowConstructible t args) ↔
      ¬d.program.Diverges t args :=
  forall_intrinsics_iff.trans
    (outcomes_eq_iff h.valid (Ty.isFormed_iff_isNormal.mp ht) fun a ha =>
      Ty.isFormed_iff_isNormal.mp (hargs a ha))

/-- A class that is derived from another one and constructed from it. -/
def constructedFromBase : Development :=
  performAll { program := { target := .lp64 } }
    [.start "B" .struct, .finish ⟨1⟩,
      .start "D" .struct, .write ⟨2⟩ (.base (.record ⟨1⟩)),
      .write ⟨2⟩ (.constructor (.declare [.lvalueRef (.record ⟨1⟩)] .void [])), .finish ⟨2⟩]

theorem reachable_constructedFromBase : constructedFromBase.Reachable := by
  refine (Reachable.fresh .lp64).performAll ?_
  intro a ha
  simp only [List.mem_cons, List.not_mem_nil, or_false] at ha
  rcases ha with rfl | rfl | rfl | rfl | rfl | rfl
  case inr.inr.inr.inr.inl => exact RecordStep.isWritten_of_declare rfl (by decide)
  all_goals first | trivial | exact RecordStep.isWritten_of_types rfl (by decide)

/-- The fallback constructs a reference to the derived class from the base, and the provider does
not. -/
theorem intrinsics_agree_iff_constructedFromBase :
    constructedFromBase.Reachable ∧ (Ty.lvalueRef (.record ⟨2⟩)).IsFormed ∧
      (∀ a ∈ [Ty.lvalueRef (.record ⟨1⟩)], a.IsFormed) ∧
      constructedFromBase.program.Diverges (.lvalueRef (.record ⟨2⟩)) [.lvalueRef (.record ⟨1⟩)] ∧
      ¬∀ intrinsics : BitVec 32,
        (constructedFromBase.program.solverWith intrinsics).isConstructible
            (.lvalueRef (.record ⟨2⟩)) [.lvalueRef (.record ⟨1⟩)] =
          constructedFromBase.program.solver.isConstructible
            (.lvalueRef (.record ⟨2⟩)) [.lvalueRef (.record ⟨1⟩)] ∧
        (constructedFromBase.program.solverWith intrinsics).isNothrowConstructible
            (.lvalueRef (.record ⟨2⟩)) [.lvalueRef (.record ⟨1⟩)] =
          constructedFromBase.program.solver.isNothrowConstructible
            (.lvalueRef (.record ⟨2⟩)) [.lvalueRef (.record ⟨1⟩)] := by
  have htarget : (Ty.lvalueRef (.record ⟨2⟩)).IsFormed := Ty.isFormed_iff_isNormal.mpr rfl
  have hsource : ∀ a ∈ [Ty.lvalueRef (.record ⟨1⟩)], a.IsFormed := by
    simpa using Ty.isFormed_iff_isNormal.mpr rfl
  have hdiverges : constructedFromBase.program.Diverges (.lvalueRef (.record ⟨2⟩))
      [.lvalueRef (.record ⟨1⟩)] :=
    @Diverges.downcast _ (.lvalueRef (.record ⟨2⟩)) (.lvalueRef (.record ⟨1⟩)) (.record ⟨2⟩) false
      (.lvalue (.record ⟨1⟩)) rfl rfl (by decide +kernel) (by decide +kernel) (by decide +kernel)
      (by decide +kernel)
  exact ⟨reachable_constructedFromBase, htarget, hsource, hdiverges, fun hagree =>
    (intrinsics_agree_iff reachable_constructedFromBase htarget hsource).mp hagree hdiverges⟩

end Development
end TypeTraits
