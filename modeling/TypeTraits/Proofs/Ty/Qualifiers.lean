import TypeTraits.Transform
import TypeTraits.Proofs.Ty.Levels

/-!
# Top-level qualifiers

A type in normal form is its unqualified version and a set of qualifiers, and adding or removing
qualifiers is set algebra on the second part. An array takes part with the qualifiers of its
innermost elements. References and functions, and arrays of them, take none.
-/

namespace TypeTraits

namespace Cv

variable {a b : Cv}

theorem sdiff_of_not_meets (h : a.meets b = false) : a \ b = a := by
  rcases a with ⟨_ | _, _ | _⟩ <;> rcases b with ⟨_ | _, _ | _⟩ <;> first | rfl | cases h

theorem union_sdiff_self (a b : Cv) : (a ∪ b) \ b = a \ b := by
  rcases a with ⟨_ | _, _ | _⟩ <;> rcases b with ⟨_ | _, _ | _⟩ <;> rfl

theorem empty_sdiff (b : Cv) : ∅ \ b = ∅ := rfl

theorem sdiff_constVolatile (a : Cv) : a \ .constVolatile = ∅ := by
  rcases a with ⟨_ | _, _ | _⟩ <;> rfl

end Cv

namespace Ty

variable {t : Ty}

/-- Qualifiers stay on everything but references, functions and arrays of them. -/
theorem keepsCv_eq (t : Ty) : t.keepsCv = !(t.element.isReference || t.element.isFunction) := by
  induction t using Ty.inductionOn with
  | array t b ih => exact ih
  | _ => rfl

theorem unqualified_of_keepsCv (ht : t.isNormal = true) (h : t.keepsCv = false) :
    t.unqualified = t := by
  have hwhole := qualify_unqualified t ht
  rwa [cv_eq_empty_of_keepsCv h, qualify_empty] at hwhole

theorem qualify_of_keepsCv (h : t.keepsCv = false) (c : Cv) : t.qualify c = t := by
  cases hc : c.isEmpty with
  | true => rw [Cv.isEmpty_iff.mp hc, qualify_empty]
  | false =>
    rw [qualify_of_not_isEmpty hc]
    induction t using Ty.inductionOn with
    | array t b ih => exact congrArg (array · b) (ih h)
    | _ => first | rfl | cases h

/-- What a type is split into after qualifiers were put on its unqualified version. -/
theorem splitCv_qualify_unqualified (ht : t.isNormal = true) {c : Cv}
    (h : t.keepsCv = false → c = ∅) : (t.unqualified.qualify c).splitCv = (t.unqualified, c) := by
  rw [splitCv_eq, unqualified_qualify (isNormal_unqualified ht), unqualified_unqualified ht]
  refine congrArg _ ?_
  cases hkeeps : t.keepsCv with
  | true =>
    rw [cv_qualify ((keepsCv_unqualified ht).trans hkeeps), cv_unqualified ht, Cv.empty_union]
  | false => rw [h hkeeps, qualify_empty, cv_unqualified ht]

/-- Removing qualifiers replaces the set, also where there is nothing to remove. -/
theorem removeQualifiers_eq (ht : t.isNormal = true) (drop : Cv) :
    t.removeQualifiers drop = t.unqualified.qualify (t.cv \ drop) := by
  unfold removeQualifiers
  split
  · rfl
  · next hmeets =>
    rw [Cv.sdiff_of_not_meets (Bool.eq_false_iff.mpr hmeets), qualify_unqualified t ht]

theorem splitCv_removeQualifiers (ht : t.isNormal = true) (drop : Cv) :
    (t.removeQualifiers drop).splitCv = (t.unqualified, t.cv \ drop) := by
  rw [removeQualifiers_eq ht]
  refine splitCv_qualify_unqualified ht fun hkeeps => ?_
  rw [cv_eq_empty_of_keepsCv hkeeps, Cv.empty_sdiff]

theorem removeCv_eq (ht : t.isNormal = true) : t.removeCv = t.removeQualifiers .constVolatile := by
  rw [removeQualifiers_eq ht, Cv.sdiff_constVolatile, qualify_empty, removeCv]

/-- Qualifiers that are added and removed again leave what removing them at once does. -/
theorem removeQualifiers_qualify (ht : t.isNormal = true) (c : Cv) :
    (t.qualify c).removeQualifiers c = t.removeQualifiers c := by
  cases hkeeps : t.keepsCv with
  | false => rw [qualify_of_keepsCv hkeeps]
  | true =>
    rw [removeQualifiers_eq (isNormal_qualify ht), removeQualifiers_eq ht, unqualified_qualify ht,
      cv_qualify hkeeps, Cv.union_sdiff_self]

/-- Adding qualifiers to a type adds them to the second part of its split, unless the type, without
its array bounds, is a reference or a function. The two parts give the type back, and removing
qualifiers removes them from the second part, whether or not they were added before. -/
theorem qualification_laws (h : t.IsFormed) (c : Cv) :
    ((t.element.isReference || t.element.isFunction) = true →
      (t.qualify c).splitCv = (t, ∅)) ∧
    ((t.element.isReference || t.element.isFunction) = false →
      (t.qualify c).splitCv = (t.splitCv.1, t.splitCv.2 ∪ c)) ∧
    t.splitCv.1.qualify t.splitCv.2 = t ∧
    t.removeConst.splitCv = (t.splitCv.1, t.splitCv.2 \ .const) ∧
    t.removeVolatile.splitCv = (t.splitCv.1, t.splitCv.2 \ .volatile) ∧
    t.removeCv.splitCv = (t.splitCv.1, t.splitCv.2 \ .constVolatile) ∧
    (t.qualify .const).removeConst = t.removeConst ∧
    (t.qualify .volatile).removeVolatile = t.removeVolatile ∧
    (t.qualify .constVolatile).removeCv = t.removeCv := by
  have ht := isFormed_iff_isNormal.mp h
  have hkeeps := keepsCv_eq t
  refine ⟨?_, ?_, qualify_unqualified t ht, splitCv_removeQualifiers ht _,
    splitCv_removeQualifiers ht _, ?_, removeQualifiers_qualify ht _,
    removeQualifiers_qualify ht _, unqualified_qualify ht⟩
  · intro hbare
    rw [hbare] at hkeeps
    rw [qualify_of_keepsCv hkeeps, splitCv_eq, unqualified_of_keepsCv ht hkeeps,
      cv_eq_empty_of_keepsCv hkeeps]
  · intro hobject
    rw [hobject] at hkeeps
    rw [splitCv_eq, unqualified_qualify ht, cv_qualify hkeeps]
    rfl
  · rw [removeCv_eq ht]
    exact splitCv_removeQualifiers ht _

/-- Arrays of arrays of `const` elements. -/
theorem qualification_laws_constRows :
    let t := array (array (qualified (builtin .int) .const) (some 2)) none
    t.IsFormed ∧ (t.element.isReference || t.element.isFunction) = false ∧
      (t.qualify .volatile).splitCv = (array (array (builtin .int) (some 2)) none, .constVolatile) ∧
      (t.qualify .volatile).removeVolatile = t := by
  intro t
  have ht : t.IsFormed := isFormed_iff_isNormal.mpr rfl
  have hlaws := qualification_laws ht .volatile
  exact ⟨ht, rfl, hlaws.2.1 rfl, hlaws.2.2.2.2.2.2.2.1⟩

end Ty
end TypeTraits
