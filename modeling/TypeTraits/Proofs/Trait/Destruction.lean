import TypeTraits.Proofs.Trait.Strength

/-!
# Where the two ways to ask for a destruction agree

The provider destroys an array bound by bound. Without the intrinsics, the outermost bound is looked
at and then the elements of the innermost dimension are destroyed. Both come to the same unless an
unbounded dimension hides inside a bounded one; such an array has elements to destroy for the
fallback and none for the provider.
-/

namespace TypeTraits
namespace Ty

/-- Whether every dimension of an array is bounded. -/
def isBoundedThroughout : Ty → Bool
  | array t b => b.isSome && t.isBoundedThroughout
  | _ => true

/-- Whether an unbounded dimension hides inside a bounded one. -/
def hidesUnbounded (t : Ty) : Bool := !t.isUnboundedArray && !t.isBoundedThroughout

theorem not_isUnboundedArray_of_isBoundedThroughout {t : Ty} (h : t.isBoundedThroughout = true) :
    t.isUnboundedArray = false := by
  cases t with
  | array t b => cases b <;> first | rfl | cases h
  | _ => rfl

end Ty

namespace Program

variable {p : Program} {t : Ty} {e : Effects}

/-- Destroying an array takes all of its bounds, and then destroys its elements. -/
theorem destroy_eq_element :
    p.destroy t = if t.isBoundedThroughout then p.destroy t.element else .error .notAnObject := by
  induction t using Ty.inductionOn with
  | array t b ih =>
    cases b with
    | none => rfl
    | some n => exact ih
  | _ => rfl

/-- Whether a destructor that can be called is trivial is known as well without calling it. -/
theorem trivialDestructor_of_destruction {r : Record} (h : r.destruction = .ok e) :
    (r.destructor.any fun d => d.trivial && !d.deleted) = e.trivial := by
  unfold Record.destruction at h
  cases hd : r.destructor with
  | none => simp [hd] at h
  | some d =>
    simp only [hd] at h
    split at h
    · cases h
    · rename_i hdeleted
      split at h
      · cases h
      · cases h
        simp [hdeleted]

/-- What the provider knows of elements that can be destroyed. -/
theorem hasTrivialDestructor_of_destroy (ht : t.isNormal = true)
    (h : p.destroy t.element = .ok e) :
    Introspection.hasTrivialDestructor p t.element = some e.trivial := by
  have hclass : ∀ t : Ty, t.isReference = false → t.isScalar = false → t.element = t →
      p.destroyClass t = .ok e →
      Introspection.hasTrivialDestructor p t = some e.trivial := by
    intro t hreference hscalar helement hdestroy
    simp only [Introspection.hasTrivialDestructor, Introspection.objectFact, hreference, helement,
      hscalar, Bool.false_eq_true, if_false, Bool.false_or]
    unfold destroyClass at hdestroy
    cases hr : p.completeRecord? t with
    | none => simp [hr] at hdestroy
    | some r =>
      rw [hr] at hdestroy
      exact congrArg some (trivialDestructor_of_destruction hdestroy)
  induction t using Ty.inductionOn with
  | array t b ih => exact ih ht h
  | record id => exact hclass _ rfl rfl rfl h
  | qualified t cv =>
    simp only [Ty.isNormal, Bool.and_eq_true] at ht
    obtain ⟨⟨_, hqualifier⟩, hknown⟩ := ht
    cases t with
    | record id => exact hclass _ rfl rfl rfl h
    | void => cases h
    | nullptr | builtin | enum | pointer | memberPointer =>
      cases h
      rfl
    | unknown => cases hknown
    | _ => cases hqualifier
  | void | function | functionNamed => cases h
  | unknown => cases ht
  | _ =>
    cases h
    rfl

end Program

namespace Solver

variable {s : Solver} {t : Ty} {strength : Strength}

/-- The fallback looks at the outermost bound only. -/
theorem toOption_destruction : (s.destruction t).toOption =
    if t.isUnboundedArray then none else (s.program.destroy t.element).toOption := by
  cases t with
  | array t b => cases b <;> rfl
  | qualified t cv => cases t <;> rfl
  | _ => rfl

theorem destroy_element_of_destruction {e : Effects} (h : (s.destruction t).toOption = some e) :
    s.program.destroy t.element = .ok e := by
  rw [toOption_destruction] at h
  split at h
  · cases h
  · cases hdestroy : s.program.destroy t.element with
    | error _ => simp [hdestroy, Except.toOption] at h
    | ok e' =>
      rw [hdestroy] at h
      exact congrArg Except.ok (Option.some.inj h)

/-- The provider looks at every bound. -/
theorem introspection_destruction {p : Program} : Introspection.destruction p t =
    if t.isBoundedThroughout then (p.destroy t.element).toOption else none := by
  rw [Introspection.destruction, Program.destroy_eq_element]
  split <;> rfl

/-- What the provider destroys, the fallback does, and with the same effects. -/
theorem destruction_of_introspection {e : Effects}
    (h : Introspection.destruction s.program t = some e) :
    (s.destruction t).toOption = some e := by
  rw [introspection_destruction] at h
  split at h
  · rename_i hbounded
    rw [toOption_destruction, Ty.not_isUnboundedArray_of_isBoundedThroughout hbounded]
    exact h
  · cases h

theorem any_destruction_of_introspection {f : Effects → Bool}
    (h : (Introspection.destruction s.program t).any f = true) :
    (s.destruction t).toOption.any f = true := by
  obtain ⟨e, he, hf⟩ := (Option.any_eq_true _ _).mp h
  rw [destruction_of_introspection he]
  exact hf

/-- The paths come to the same for the elements of no type that hides an unbounded dimension. -/
theorem any_destruction_iff {f : Effects → Bool} :
    (s.destruction t).toOption.any f = (Introspection.destruction s.program t).any f ↔
      ¬(t.hidesUnbounded = true ∧ ∃ e, s.program.destroy t.element = .ok e ∧ f e = true) := by
  have hany : (∃ e, s.program.destroy t.element = .ok e ∧ f e = true) ↔
      (s.program.destroy t.element).toOption.any f = true := by
    cases s.program.destroy t.element <;> simp [Except.toOption]
  rw [hany, toOption_destruction, introspection_destruction, Ty.hidesUnbounded]
  cases hbounded : t.isBoundedThroughout with
  | true => simp [Ty.not_isUnboundedArray_of_isBoundedThroughout hbounded]
  | false => cases t.isUnboundedArray <;> simp

/-- Whatever paths an answer takes, the provider's destruction is enough for it. -/
theorem destroys_of_introspection (hnoexcept : s.knowsNoexcept = true) (ht : t.isNormal = true)
    (h : (Introspection.destruction s.program t).any strength.meets = true) :
    s.destroys t strength = true := by
  obtain ⟨e, he, hmeets⟩ := (Option.any_eq_true _ _).mp h
  have hfallback := destruction_of_introspection he
  have hok : (s.destruction t).isOk = true := by
    cases hd : s.destruction t with
    | error _ => simp [hd, Except.toOption] at hfallback
    | ok _ => rfl
  have hpossible : s.isDestructible t = true :=
    answer_of_both (Option.isSome_of_eq_some he) hok
  cases strength with
  | possible => exact hpossible
  | trivial =>
    refine answer_of_both h ?_
    have helement := destroy_element_of_destruction hfallback
    rw [hpossible, Bool.true_and, Bool.or_eq_true,
      Program.hasTrivialDestructor_of_destroy ht helement]
    exact Or.inr (answer_of_both hmeets (by rw [hfallback]; exact hmeets))
  | nothrow =>
    rw [destroys, isNothrowDestructible, hpossible, hnoexcept, Bool.true_and, Bool.or_eq_true]
    exact Or.inr (answer_of_both h (by rw [hfallback]; exact hmeets))

/-- What any path destroys, the fallback does. -/
theorem exists_destruction_of_isDestructible (h : s.isDestructible t = true) :
    ∃ e, (s.destruction t).toOption = some e := by
  rcases answer_cases h with hsome | hok
  · obtain ⟨e, he⟩ := Option.isSome_iff_exists.mp hsome
    exact ⟨e, destruction_of_introspection he⟩
  · cases hd : s.destruction t with
    | error _ => simp [hd, Except.isOk, Except.toBool] at hok
    | ok e => exact ⟨e, rfl⟩

/-- Whatever paths an answer takes, it is right of the fallback's destruction. -/
theorem destruction_of_destroys (hnoexcept : strength = .nothrow → s.knowsNoexcept = true)
    (ht : t.isNormal = true)
    (h : s.destroys t strength = true) :
    (s.destruction t).toOption.any strength.meets = true := by
  have hreference (href : t.isReference = true) :
      (s.destruction t).toOption.any strength.meets = true := by
    rw [destruction, if_pos href]
    cases strength <;> rfl
  cases strength with
  | possible =>
    obtain ⟨e, he⟩ := exists_destruction_of_isDestructible h
    rw [he]
    rfl
  | trivial =>
    rcases answer_cases h with h | h
    · exact any_destruction_of_introspection h
    · obtain ⟨hdestructible, h⟩ := Bool.and_eq_true_iff.mp h
      obtain ⟨e, he⟩ := exists_destruction_of_isDestructible hdestructible
      rw [Program.hasTrivialDestructor_of_destroy ht (destroy_element_of_destruction he)] at h
      rcases Bool.or_eq_true_iff.mp h with href | h
      · exact hreference href
      · rcases answer_cases h with htrivial | htrivial
        · rw [he]
          exact htrivial
        · exact htrivial
  | nothrow =>
    rw [destroys, isNothrowDestructible, hnoexcept rfl] at h
    rcases Bool.or_eq_true_iff.mp (Bool.and_eq_true_iff.mp h).2 with href | h
    · exact hreference href
    · exact (answer_cases h).elim any_destruction_of_introspection id

end Solver

namespace Program

open Solver

variable {p : Program} {t : Ty} {strength : Strength}

theorem intrinsic_solverWith_zero {i : Intrinsic} {answer : Option Bool} {fallback : Bool} :
    ((p.solverWith 0).intrinsic i answer).getD fallback = fallback := by
  change (if (0#32).getLsbD i.index then answer else none).getD fallback = fallback
  rw [BitVec.getLsbD_zero]
  rfl

/-- Without intrinsics the fallback decides. -/
theorem destroys_of_destruction
    (h : (p.solver.destruction t).toOption.any strength.meets = true) :
    (p.solverWith 0).destroys t strength = true := by
  have hpossible : (p.solverWith 0).isDestructible t = true := by
    refine intrinsic_solverWith_zero.trans ?_
    change (p.solver.destruction t).isOk = true
    cases hd : p.solver.destruction t with
    | error _ => simp [hd, Except.toOption] at h
    | ok _ => rfl
  cases strength with
  | possible => exact hpossible
  | trivial =>
    refine intrinsic_solverWith_zero.trans ?_
    rw [hpossible, intrinsic_solverWith_zero, Bool.true_and, Bool.or_eq_true]
    exact Or.inr h
  | nothrow =>
    have hnoexcept : (p.solverWith 0).knowsNoexcept = true := Capabilities.supports_all .noexcept
    rw [destroys, isNothrowDestructible, hpossible, hnoexcept, Bool.true_and, Bool.or_eq_true]
    exact Or.inr (intrinsic_solverWith_zero.trans h)

/-- The intrinsics do not change an answer exactly where the two paths come to the same. -/
theorem forall_destroys_iff (ht : t.isNormal = true) :
    (∀ intrinsics : BitVec 32,
      (p.solverWith intrinsics).destroys t strength = p.solver.destroys t strength) ↔
      (p.solver.destruction t).toOption.any strength.meets =
        (Introspection.destruction p t).any strength.meets := by
  have hnoexcept : ∀ intrinsics, (p.solverWith intrinsics).knowsNoexcept = true :=
    fun _ => Capabilities.supports_all .noexcept
  have hsolver : p.solver.destroys t strength = true ↔
      (Introspection.destruction p t).any strength.meets = true := by
    cases hreference : t.isReference with
    | false => rw [destroys_solver hreference]
    | true =>
      have hmeets : (Introspection.destruction p t).any strength.meets = true := by
        cases t <;> simp only [Ty.isReference, Ty.referent?, Option.isSome_none, Bool.false_eq_true]
          at hreference
        all_goals cases strength <;> rfl
      exact iff_of_true (destroys_of_introspection (hnoexcept _) ht hmeets) hmeets
  constructor
  · intro h
    rw [Bool.eq_iff_iff, ← hsolver, ← h 0]
    exact ⟨destroys_of_destruction, destruction_of_destroys (fun _ => hnoexcept 0) ht⟩
  · intro h intrinsics
    rw [Bool.eq_iff_iff, hsolver]
    constructor
    · intro hdestroys
      rw [← h]
      exact (@destruction_of_destroys (p.solverWith intrinsics) t strength) (fun _ => hnoexcept intrinsics)
        ht hdestroys
    · exact destroys_of_introspection (hnoexcept intrinsics) ht

/-- No intrinsic changes what is answered about a destruction exactly where no unbounded dimension
hides inside a bounded one, unless the elements of the innermost dimension are not destroyed as
asked for either. -/
theorem destruction_agrees_iff (ht : t.IsFormed) (strength : Strength) :
    (∀ intrinsics : BitVec 32,
      (p.solverWith intrinsics).destroys t strength = p.solver.destroys t strength) ↔
      ¬(t.hidesUnbounded = true ∧ ∃ e, p.destroy t.element = .ok e ∧ strength.meets e = true) :=
  (forall_destroys_iff (Ty.isFormed_iff_isNormal.mp ht)).trans
    (@any_destruction_iff p.solver t strength.meets)

/-- Three rows of unknown length are destroyed where the fallback is asked. -/
theorem destruction_agrees_iff_rows :
    let empty : Program := { target := .lp64 }
    let rows : Ty := .array (.array (.builtin .int) none) (some 3)
    rows.IsFormed ∧ rows.hidesUnbounded = true ∧ empty.destroy rows.element = .ok .none ∧
      (∀ strength : Strength, ¬∀ intrinsics : BitVec 32,
        (empty.solverWith intrinsics).destroys rows strength = empty.solver.destroys rows strength) ∧
      (empty.solverWith 0).isDestructible rows = true ∧ empty.solver.isDestructible rows = false := by
  intro empty rows
  have hrows : rows.IsFormed := Ty.isFormed_iff_isNormal.mpr rfl
  refine ⟨hrows, rfl, rfl, fun strength hagree => ?_, by decide +kernel, by decide +kernel⟩
  refine (destruction_agrees_iff hrows strength).mp hagree ⟨rfl, .none, rfl, ?_⟩
  cases strength <;> rfl

end Program
end TypeTraits
