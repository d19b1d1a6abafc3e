import TypeTraits.Proofs.Expr.Operations
import TypeTraits.Proofs.Expr.Surroundings

/-!
# Executions of checks

A run follows a check through what it is composed of and counts the guarded bodies that it executes
and how deep these are nested. Every run is finite, and the limits of the guard bound what it
counts: a body is executed only where the guard lets it in, and then the guard has counted a step
and is one level deeper.
-/

namespace TypeTraits

variable {α β : Type}

/-- A run of a check from a guard: it executes so many guarded bodies, nests them so deep, comes to
some result and leaves another guard behind. -/
inductive Check.Runs : {α : Type} → Check α → Guard CheckKey → (bodies nesting : Nat) →
    Formed α → Guard CheckKey → Prop
  | ofFormed {α : Type} (r : Formed α) (g : Guard CheckKey) : Runs (.ofFormed r) g 0 0 r g
  | bind {α β : Type} {c : Check α} {f : α → Check β} {g g' g'' : Guard CheckKey} {m n i j : Nat}
      {a : α} {r : Formed β} (hc : Runs c g m i (.ok a) g') (hf : Runs (f a) g' n j r g'') :
      Runs (c >>= f) g (m + n) (max i j) r g''
  | bindError {α β : Type} {c : Check α} (f : α → Check β) {g g' : Guard CheckKey} {m i : Nat}
      {e : Inapplicable} (hc : Runs c g m i (.error e) g') : Runs (c >>= f) g m i (.error e) g'
  | attempt {α : Type} {c : Check α} {g g' : Guard CheckKey} {m i : Nat} {r : Formed α}
      (hc : Runs c g m i r g') : Runs (Check.attempt c) g m i (.ok r.toOption) g'
  | denied {α : Type} {key : CheckKey} (body : Check α) {g g' : Guard CheckKey} {denial : Denial}
      (henter : g.enter key = (some denial, g')) :
      Runs (.guarded key body) g 0 0 (.error .recursionLimit) g'
  | guarded {α : Type} {key : CheckKey} {body : Check α} {g g' g'' : Guard CheckKey} {m i : Nat}
      {r : Formed α} (henter : g.enter key = (none, g')) (hbody : Runs body g' m i r g'') :
      Runs (.guarded key body) g (m + 1) (i + 1) r (g''.leave key)

namespace Check

namespace Runs

variable {c : Check α} {g g' : Guard CheckKey} {m i : Nat} {r : Formed α}

/-- A run comes to what the check does. -/
theorem run_eq (h : c.Runs g m i r g') : c.run g = (r, g') := by
  induction h with
  | ofFormed r g => rfl
  | bind _ _ ihc ihf => rw [run_bind, ihc, ← ihf]
  | bindError f _ ih => rw [run_bind, ih]
  | attempt _ ih => rw [run_attempt, ih]
  | denied body henter => rw [run_guarded, henter]
  | guarded henter _ ih => simp only [run_guarded, henter, ih]

/-- A run leaves the guard visiting what it was visiting, as deep as it was. -/
theorem keeps (h : c.Runs g m i r g') : g.Keeps g' := by
  induction h with
  | ofFormed r g => exact .refl g
  | bind _ _ ihc ihf => exact ihc.trans ihf
  | bindError f _ ih => exact ih
  | attempt _ ih => exact ih
  | @denied _ _ _ g _ _ henter =>
    rw [Guard.enter_eq_some henter]
    exact g.keeps_counted
  | @guarded _ _ _ g _ _ _ _ _ henter _ ih =>
    rw [(Guard.enter_eq_none henter).1] at ih
    exact g.keeps_counted.trans ih.leave

/-- Each body is a step that the guard counts. -/
theorem iterations_add_le (h : c.Runs g m i r g') : g.iterations + m ≤ g'.iterations := by
  induction h with
  | ofFormed r g => exact Nat.le_refl _
  | bind _ _ ihc ihf => omega
  | bindError f _ ih => exact ih
  | attempt _ ih => exact ih
  | @denied _ _ _ g _ _ henter =>
    rw [Guard.enter_eq_some henter]
    exact Nat.le_succ g.iterations
  | @guarded _ _ _ g _ _ m _ _ henter _ ih =>
    rw [(Guard.enter_eq_none henter).1] at ih
    simp only [Guard.entered, Guard.leave] at ih ⊢
    omega

/-- A run executes no more bodies than the guard has steps left, if the count of the steps comes
beyond their limit. -/
theorem bodies_le (hlimit : g.limits.iterations < Limits.countedSteps) (h : c.Runs g m i r g') :
    g.iterations + m ≤ max g.iterations g.limits.iterations := by
  induction h with
  | ofFormed r g => exact Nat.le_max_left _ _
  | bind hc _ ihc ihf =>
    -- Either the second part executes nothing, or its first body was still within the limit, which
    -- the guard has come closer to by every body of the first part.
    have := hc.iterations_add_le
    have ihc := ihc hlimit
    have ihf := ihf (hc.keeps.limits ▸ hlimit)
    rw [hc.keeps.limits] at ihf
    omega
  | bindError f _ ih => exact ih hlimit
  | attempt _ ih => exact ih hlimit
  | denied body henter => exact Nat.le_max_left _ _
  | @guarded _ _ _ g _ _ m _ _ henter _ ih =>
    have hroom := Guard.iterations_lt_of_enter hlimit henter
    rw [(Guard.enter_eq_none henter).1] at ih
    have ih := ih hlimit
    simp only [Guard.entered] at ih
    omega

/-- A run nests bodies no deeper than the guard may still go. -/
theorem nesting_le (h : c.Runs g m i r g') : g.depth + i ≤ max g.depth g.limits.depth := by
  induction h with
  | ofFormed r g => exact Nat.le_max_left _ _
  | bind hc _ ihc ihf =>
    rw [hc.keeps.limits, hc.keeps.depth] at ihf
    omega
  | bindError f _ ih => exact ih
  | attempt _ ih => exact ih
  | denied body henter => exact Nat.le_max_left _ _
  | @guarded _ _ _ g _ _ _ i _ henter _ ih =>
    obtain ⟨rfl, hroom⟩ := Guard.enter_eq_none henter
    simp only [Guard.entered] at ih
    omega

end Runs

/-- From every guard the check has a run. -/
def Halts (c : Check α) : Prop := ∀ g, ∃ bodies nesting r g', c.Runs g bodies nesting r g'

namespace Halts

variable {c : Check α}

theorem ofFormed (r : Formed α) : (ofFormed r).Halts := fun g => ⟨0, 0, r, g, .ofFormed r g⟩

theorem bind {f : α → Check β} (hc : c.Halts) (hf : ∀ a, (f a).Halts) : (c >>= f).Halts := by
  intro g
  obtain ⟨m, i, r, g', hrun⟩ := hc g
  cases r with
  | error e => exact ⟨m, i, _, g', hrun.bindError f⟩
  | ok a =>
    obtain ⟨n, j, s, g'', hrun'⟩ := hf a g'
    exact ⟨m + n, max i j, s, g'', hrun.bind hrun'⟩

theorem attempt (hc : c.Halts) : (Check.attempt c).Halts := by
  intro g
  obtain ⟨m, i, r, g', hrun⟩ := hc g
  exact ⟨m, i, _, g', hrun.attempt⟩

theorem guarded (key : CheckKey) {body : Check α} (hbody : body.Halts) :
    (Check.guarded key body).Halts := by
  intro g
  rcases henter : g.enter key with ⟨_ | denial, g'⟩
  · obtain ⟨m, i, r, g'', hrun⟩ := hbody g'
    exact ⟨m + 1, i + 1, r, _, hrun.guarded henter⟩
  · exact ⟨0, 0, _, g', .denied body henter⟩

theorem isInherited : IsInherited fun _ c => c.Halts := ⟨ofFormed, bind, attempt, guarded⟩

end Halts
end Check
end TypeTraits
