import TypeTraits.Proofs.Trait.Construction
import TypeTraits.Trait.Assignment
import TypeTraits.Trait.Invocation
import TypeTraits.Trait.Swap

/-!
# Stronger traits imply weaker ones

A trait and the weaker trait that it implies may be answered on different paths, each by the
provider or by its fallback. A stronger answer is carried over to both paths of the weaker trait, so
no choice of capabilities and provider tears them apart.
-/

namespace TypeTraits
namespace Solver

variable {s : Solver} {t u : Ty} {args : List Ty}

section Answers

variable {i : Intrinsic} {q : Question} {x fallback : Bool}

theorem answer_cases (h : (s.intrinsic i (s.ask q t args (some x))).getD fallback = true) :
    x = true ∨ fallback = true := by
  unfold intrinsic ask at h
  split at h
  · split at h
    · exact Or.inl h
    · exact Or.inr h
  · exact Or.inr h

/-- A trait holds when it holds on both paths. -/
theorem answer_of_both (hx : x = true) (hfallback : fallback = true) :
    (s.intrinsic i (s.ask q t args (some x))).getD fallback = true := by
  unfold intrinsic ask
  split
  · split
    · exact hx
    · exact hfallback
  · exact hfallback

end Answers

theorem isDestructible_of_destroy (h : (s.program.destroy t).isOk = true) :
    s.isDestructible t = true := by
  refine answer_of_both ?_ (destruction_of_destroy h)
  unfold Introspection.destruction
  cases hdestroy : s.program.destroy t with
  | error _ => simp [hdestroy, Except.isOk, Except.toBool] at h
  | ok e => rfl

theorem isDestructible_of_isConstructible (h : s.isConstructible t args = true) :
    s.isDestructible t = true := by
  rcases answer_cases h with h | h
  · obtain ⟨e, h⟩ := Option.isSome_iff_exists.mp h
    obtain ⟨_, _, _, hreference | hdestroy⟩ := construction_eq_some.mp h
    · cases t <;> simp only [Ty.isReference, Ty.referent?, Option.isSome_none, Bool.false_eq_true]
        at hreference
      all_goals exact isDestructible_of_destroy rfl
    · exact isDestructible_of_destroy hdestroy
  · exact isDestructible_of_destroy (destroy_of_construct h)

theorem isDestructible_of_isTriviallyDestructible (h : s.isTriviallyDestructible t = true) :
    s.isDestructible t = true := by
  rcases answer_cases h with h | h
  · obtain ⟨e, h, _⟩ := (Option.any_eq_true _ _).mp h
    refine isDestructible_of_destroy ?_
    cases hdestroy : s.program.destroy t with
    | error _ => simp [Introspection.destruction, hdestroy, Except.toOption] at h
    | ok e => rfl
  · exact (Bool.and_eq_true_iff.mp h).1

theorem isConstructible_of_isTriviallyConstructible (hp : s.program.TrivialFunctions)
    (ht : t.isNormal = true) (hargs : ∀ a ∈ args, a.isNormal = true)
    (h : s.isTriviallyConstructible t args = true) : s.isConstructible t args = true := by
  rcases answer_cases h with h | h
  · obtain ⟨e, h, htrivial⟩ := (Option.any_eq_true _ _).mp h
    exact answer_of_both (Option.isSome_iff_exists.mpr ⟨e, h⟩)
      (construct_of_trivial_construction hp ht hargs h htrivial)
  · exact (Bool.and_eq_true_iff.mp h).1

theorem isVoid_of_declval {e : Expr} (hvoid : t.isVoid = true) (h : Expr.declval t = .ok e) :
    e.type.isVoid = true := by
  cases t <;> simp_all [Expr.declval, Ty.isVoid, Ty.core]
  all_goals
    cases h
    rfl

/-- What the provider assigns, the fallback assigns. -/
theorem assignment_of_introspection {e : Effects}
    (h : Introspection.assignment s.program t u = some e) : s.assignment t u = .ok e := by
  unfold Introspection.assignment at h
  cases ha : Expr.declval t with
  | error _ => simp [ha, Except.toOption] at h
  | ok a =>
    cases hb : Expr.declval u with
    | error _ => simp [ha, hb, Except.toOption] at h
    | ok b =>
      have hresult : (s.program.assign a b).result = .ok e := by
        cases hassign : (s.program.assign a b).result <;>
          simp_all [Except.toOption]
      have hvoid : (t.isVoid || u.isVoid) = false := by
        cases hvoid : t.isVoid || u.isVoid with
        | false => rfl
        | true =>
          have hab : (a.type.isVoid || b.type.isVoid) = true := by
            rcases Bool.or_eq_true_iff.mp hvoid with h | h
            · rw [isVoid_of_declval h ha, Bool.true_or]
            · rw [isVoid_of_declval h hb, Bool.or_true]
          rw [Program.assign, if_pos hab] at hresult
          cases hresult
      unfold assignment
      rw [hvoid, ha, hb]
      exact hresult

theorem isAssignable_of_isTriviallyAssignable (h : s.isTriviallyAssignable t u = true) :
    s.isAssignable t u = true := by
  rcases answer_cases h with h | h
  · obtain ⟨e, h, _⟩ := (Option.any_eq_true _ _).mp h
    exact answer_of_both (Option.isSome_iff_exists.mpr ⟨e, h⟩)
      (by rw [assignment_of_introspection h]; rfl)
  · exact (Bool.and_eq_true_iff.mp h).1

theorem isConvertible_of_isNothrowConvertible (h : s.isNothrowConvertible t u = true) :
    s.isConvertible t u = true := by
  rcases Bool.or_eq_true_iff.mp h with hvoid | h
  · have hboth := Bool.and_eq_true_iff.mp hvoid
    have hprovider : Introspection.isConvertible s.program t u = some true := by
      simp [Introspection.isConvertible, hboth]
    unfold isConvertible
    rw [hprovider]
    exact answer_of_both rfl (by simp [converts, hboth])
  · exact (Bool.and_eq_true_iff.mp h).1

theorem isSwappableWith_of_isNothrowSwappableWith (h : s.isNothrowSwappableWith t u = true) :
    s.isSwappableWith t u = true := by
  unfold isSwappableWith
  cases hswap : s.swapBothWays t u with
  | error _ => simp [isNothrowSwappableWith, hswap, Except.toOption] at h
  | ok e => rfl

theorem isInvocable_of_isNothrowInvocable (h : s.isNothrowInvocable t args = true) :
    s.isInvocable t args = true := by
  unfold isInvocable
  cases hinvoke : s.invoke t args with
  | error _ => simp [isNothrowInvocable, hinvoke, Except.toOption] at h
  | ok i => rfl

theorem isInvocableR_of_isNothrowInvocableR (h : s.isNothrowInvocableR u t args = true) :
    s.isInvocableR u t args = true ∧ s.isNothrowInvocable t args = true := by
  obtain ⟨i, hi, h⟩ := (Option.any_eq_true _ _).mp h
  obtain ⟨hnothrow, h⟩ := Bool.and_eq_true_iff.mp h
  have hresult : (u.isVoid || s.isConvertible i.result u) = true := by
    rcases Bool.or_eq_true_iff.mp h with hvoid | hconvertible
    · rw [hvoid, Bool.true_or]
    · rw [isConvertible_of_isNothrowConvertible hconvertible, Bool.or_true]
  exact ⟨(Option.any_eq_true _ _).mpr ⟨i, hi, hresult⟩,
    (Option.any_eq_true _ _).mpr ⟨i, hi, hnothrow⟩⟩

end Solver

namespace Development

/-- Whatever paths answer them, a stronger trait implies the weaker one. -/
theorem weaker_of_stronger {d : Development} (h : d.Reachable) {s : Solver}
    (hs : s.program = d.program) {t u : Ty} {args : List Ty} (ht : t.IsFormed)
    (hargs : ∀ a ∈ args, a.IsFormed) :
    (s.isTriviallyConstructible t args = true → s.isConstructible t args = true) ∧
    (s.isNothrowConstructible t args = true → s.isConstructible t args = true) ∧
    (s.isConstructible t args = true → s.isDestructible t = true) ∧
    (s.isTriviallyAssignable t u = true → s.isAssignable t u = true) ∧
    (s.isNothrowAssignable t u = true → s.isAssignable t u = true) ∧
    (s.isTriviallyDestructible t = true → s.isDestructible t = true) ∧
    (s.isNothrowDestructible t = true → s.isDestructible t = true) ∧
    (s.isNothrowConvertible t u = true → s.isConvertible t u = true) ∧
    (s.isNothrowSwappableWith t u = true → s.isSwappableWith t u = true) ∧
    (s.isNothrowInvocable t args = true → s.isInvocable t args = true) ∧
    (s.isNothrowInvocableR u t args = true →
      s.isInvocableR u t args = true ∧ s.isNothrowInvocable t args = true) := by
  have hp : s.program.TrivialFunctions := hs ▸ h.trivialFunctions
  have hargs : ∀ a ∈ args, a.isNormal = true := fun a ha => Ty.isFormed_iff_isNormal.mp (hargs a ha)
  have ht : t.isNormal = true := Ty.isFormed_iff_isNormal.mp ht
  refine ⟨Solver.isConstructible_of_isTriviallyConstructible hp ht hargs,
    fun h => (Bool.and_eq_true_iff.mp h).1, Solver.isDestructible_of_isConstructible,
    Solver.isAssignable_of_isTriviallyAssignable, fun h => (Bool.and_eq_true_iff.mp h).1,
    Solver.isDestructible_of_isTriviallyDestructible, fun h => (Bool.and_eq_true_iff.mp h).1,
    Solver.isConvertible_of_isNothrowConvertible, Solver.isSwappableWith_of_isNothrowSwappableWith,
    Solver.isInvocable_of_isNothrowInvocable, Solver.isInvocableR_of_isNothrowInvocableR⟩

/-- A provider that tells which constructions are trivial and leaves the rest to the fallback. -/
def triviallyInformed : Solver :=
  { program := derivedWithArray.program, provider := .only [.isTriviallyConstructible] }

theorem weaker_of_stronger_triviallyInformed :
    derivedWithArray.Reachable ∧ triviallyInformed.program = derivedWithArray.program ∧
      (Ty.record ⟨2⟩).IsFormed ∧ (Ty.lvalueRef (.qualified (.record ⟨2⟩) .const)).IsFormed ∧
      triviallyInformed.isTriviallyConstructible (.record ⟨2⟩)
        [.lvalueRef (.qualified (.record ⟨2⟩) .const)] = true ∧
      triviallyInformed.isConstructible (.record ⟨2⟩)
        [.lvalueRef (.qualified (.record ⟨2⟩) .const)] = true := by
  have hcopied : (Ty.lvalueRef (.qualified (.record ⟨2⟩) .const)).IsFormed :=
    Ty.isFormed_iff_isNormal.mpr rfl
  have htrivially : triviallyInformed.isTriviallyConstructible (.record ⟨2⟩)
      [.lvalueRef (.qualified (.record ⟨2⟩) .const)] = true := by decide +kernel
  have hprogram : triviallyInformed.program = derivedWithArray.program := by
    simp only [triviallyInformed]
  obtain ⟨hconstructible, _⟩ := @weaker_of_stronger _ reachable_derivedWithArray triviallyInformed
    hprogram (.record ⟨2⟩) .void [.lvalueRef (.qualified (.record ⟨2⟩) .const)] (.record _)
    (by simpa using hcopied)
  exact ⟨reachable_derivedWithArray, hprogram, .record _, hcopied, htrivially,
    hconstructible htrivially⟩

end Development
end TypeTraits
