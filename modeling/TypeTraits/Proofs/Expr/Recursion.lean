import TypeTraits.Proofs.Expr.Execution

/-!
# The checker that leaves nested checks to itself

A checker of some depth leaves nested checks to a shallower one. What the guard denies keeps that
from showing: a guard that lets at most `n` further bodies in does not tell a checker of depth `n`
from a deeper one. So there is exactly one checker that leaves its nested checks to itself, its
checks have runs from every guard, and the checker for whole expressions does the same from every
guard that lets no more bodies in than it nests.
-/

namespace TypeTraits

variable {α β : Type}

namespace Check

/-- From every guard that lets at most `n` nested bodies in, the first check has a run, and what
it comes to is what the second check does. -/
def ComesTo (n : Nat) (c₁ c₂ : Check α) : Prop :=
  ∀ g : Guard CheckKey, g.limits.depth ≤ g.depth + n →
    ∃ bodies nesting, c₁.Runs g bodies nesting (c₂.run g).1 (c₂.run g).2

namespace ComesTo

variable {n : Nat}

theorem ofFormed (r : Formed α) : ComesTo n (.ofFormed r) (.ofFormed r) :=
  fun g _ => ⟨0, 0, .ofFormed r g⟩

theorem bind {c₁ c₂ : Check α} {f₁ f₂ : α → Check β} (hc : ComesTo n c₁ c₂)
    (hf : ∀ a, ComesTo n (f₁ a) (f₂ a)) : ComesTo n (c₁ >>= f₁) (c₂ >>= f₂) := by
  intro g hg
  obtain ⟨m, i, hrun⟩ := hc g hg
  rw [run_bind]
  rcases hrun₂ : c₂.run g with ⟨e | a, g'⟩ <;> rw [hrun₂] at hrun
  · exact ⟨m, i, hrun.bindError f₁⟩
  · have hkeeps := hrun.keeps
    obtain ⟨k, j, hrest⟩ := hf a g' (by rwa [hkeeps.limits, hkeeps.depth])
    exact ⟨m + k, max i j, hrun.bind hrest⟩

theorem attempt {c₁ c₂ : Check α} (hc : ComesTo n c₁ c₂) :
    ComesTo n (Check.attempt c₁) (Check.attempt c₂) := by
  intro g hg
  obtain ⟨m, i, hrun⟩ := hc g hg
  rw [run_attempt]
  exact ⟨m, i, hrun.attempt⟩

variable (n) in
theorem isCompositional : IsCompositional fun _ c₁ c₂ => ComesTo n c₁ c₂ where
  ofFormed := ofFormed
  bind := bind
  attempt := attempt

/-- A guard that lets no body in does not tell guarded checks apart. -/
theorem guarded_zero (key : CheckKey) (body₁ body₂ : Check α) :
    ComesTo 0 (.guarded key body₁) (.guarded key body₂) := by
  intro g hg
  rw [run_guarded]
  rcases henter : g.enter key with ⟨_ | denial, g'⟩
  · have hroom := (Guard.enter_eq_none henter).2
    omega
  · exact ⟨0, 0, .denied body₁ henter⟩

theorem guarded (key : CheckKey) {body₁ body₂ : Check α} (hbody : ComesTo n body₁ body₂) :
    ComesTo (n + 1) (.guarded key body₁) (.guarded key body₂) := by
  intro g hg
  rw [run_guarded]
  rcases henter : g.enter key with ⟨_ | denial, g'⟩
  · obtain ⟨rfl, -⟩ := Guard.enter_eq_none henter
    have hinner : (g.entered key).limits.depth ≤ (g.entered key).depth + n := by
      simp only [Guard.entered]
      omega
    obtain ⟨m, i, hrun⟩ := hbody _ hinner
    exact ⟨m + 1, i + 1, hrun.guarded henter⟩
  · exact ⟨0, 0, .denied body₁ henter⟩

/-- From every guard that lets at most `n` bodies in, the two checks do the same. -/
theorem run_eq {c₁ c₂ : Check α} (h : ComesTo n c₁ c₂) {g : Guard CheckKey}
    (hg : g.limits.depth ≤ g.depth + n) : c₁.run g = c₂.run g := by
  obtain ⟨_, _, hrun⟩ := h g hg
  exact hrun.run_eq

/-- Checks that a third one comes to, however many bodies are let in, are the same. -/
theorem unique {c₁ c₂ : Check α} (h : ∀ n, ∃ c, ComesTo n c c₁ ∧ ComesTo n c c₂) : c₁ = c₂ := by
  funext g
  obtain ⟨c, h₁, h₂⟩ := h g.limits.depth
  have hg : g.limits.depth ≤ g.depth + g.limits.depth := Nat.le_add_left _ _
  exact (h₁.run_eq hg).symm.trans (h₂.run_eq hg)

end ComesTo

theorem Halts.of_comesTo {c₁ c₂ : Check α} (h : ∀ n, ComesTo n c₁ c₂) : c₁.Halts := by
  intro g
  obtain ⟨m, i, hrun⟩ := h g.limits.depth g (Nat.le_add_left _ _)
  exact ⟨m, i, _, _, hrun⟩

/-- Of a family of checks, the one whose number is more than the guard lets bodies in. -/
def beyondLimit (checks : Nat → Check α) : Check α :=
  ExceptT.mk fun g => (checks (g.limits.depth + 1)).run g

theorem ComesTo.beyondLimit {n : Nat} {c : Check α} {checks : Nat → Check α}
    (h : ∀ m k, m ≤ n → m ≤ k → ComesTo m c (checks (k + 1))) :
    ComesTo n c (beyondLimit checks) := by
  intro g hg
  -- What the guard itself still lets in is no more than `n`, and fewer than the number taken.
  have hlevel : g.limits.depth - g.depth ≤ n := by omega
  exact h _ g.limits.depth hlevel (Nat.sub_le _ _) g (by omega)

end Check

namespace Checker

/-- From every guard, each check of the checker has a run. -/
structure Halts (c : Checker) : Prop where
  convert (source : Expr) (target : Ty) (mode : InitMode) (allowUser : Bool) :
    (c.convert source target mode allowUser).Halts
  bindReference (source : Expr) (target : Ty) (mode : InitMode) (allowUser : Bool) :
    (c.bindReference source target mode allowUser).Halts
  construct (target : Ty) (args : List Expr) : (c.construct target args).Halts

/-- Each check of the first checker comes to what the same check of the second one does, from
every guard that lets at most `n` nested bodies in. -/
abbrev ComesTo (n : Nat) (c₁ c₂ : Checker) : Prop :=
  c₁.Related (fun _ check₁ check₂ => check₁.ComesTo n check₂) c₂

theorem Halts.of_comesTo {c₁ c₂ : Checker} (h : ∀ n, c₁.ComesTo n c₂) : c₁.Halts where
  convert _ _ _ _ := .of_comesTo fun n => (h n).convert _ _ _ _
  bindReference _ _ _ _ := .of_comesTo fun n => (h n).bindReference _ _ _ _
  construct _ _ := .of_comesTo fun n => (h n).construct _ _

theorem ComesTo.unique {c₁ c₂ : Checker}
    (h : ∀ n, ∃ c : Checker, c.ComesTo n c₁ ∧ c.ComesTo n c₂) : c₁ = c₂ := by
  have hconvert : c₁.convert = c₂.convert := by
    funext source target mode allowUser
    refine Check.ComesTo.unique fun n => ?_
    obtain ⟨c, h₁, h₂⟩ := h n
    exact ⟨_, h₁.convert _ _ _ _, h₂.convert _ _ _ _⟩
  have hbind : c₁.bindReference = c₂.bindReference := by
    funext source target mode allowUser
    refine Check.ComesTo.unique fun n => ?_
    obtain ⟨c, h₁, h₂⟩ := h n
    exact ⟨_, h₁.bindReference _ _ _ _, h₂.bindReference _ _ _ _⟩
  have hconstruct : c₁.construct = c₂.construct := by
    funext target args
    refine Check.ComesTo.unique fun n => ?_
    obtain ⟨c, h₁, h₂⟩ := h n
    exact ⟨_, h₁.construct _ _, h₂.construct _ _⟩
  cases c₁
  cases c₂
  cases hconvert
  cases hbind
  cases hconstruct
  rfl

end Checker

namespace Program

variable {p : Program} {n : Nat} {c c₁ c₂ : Checker}

/-- A guard that lets no body in does not tell checkers apart. -/
theorem comesTo_checkerStep_zero : (p.checkerStep c₁).ComesTo 0 (p.checkerStep c₂) := by
  -- Nothing is asked of the nested checks: the guard denies the bodies that would run them.
  have hany : c₁.Related (fun _ _ _ => True) c₂ :=
    ⟨fun _ _ _ _ => trivial, fun _ _ _ _ => trivial, fun _ _ => trivial⟩
  refine hany.checkerStep p ⟨fun _ => trivial, fun _ _ => trivial, fun _ => trivial⟩ ?_ ?_
  · exact fun _ _ => .ofFormed _
  · exact fun _ key body₁ body₂ _ => .guarded_zero key body₁ body₂

theorem comesTo_checkerStep (h : c₁.ComesTo n c₂) :
    (p.checkerStep c₁).ComesTo (n + 1) (p.checkerStep c₂) :=
  h.checkerStep p (Check.ComesTo.isCompositional n) (fun _ _ => .ofFormed _)
    fun _ key _ _ => .guarded key

/-- The checks of the checker are steps of the program, and so are the nested ones `n` levels
down. -/
inductive Unrolls (p : Program) : Nat → Checker → Prop
  | once (c : Checker) : Unrolls p 0 (p.checkerStep c)
  | step {n : Nat} {c : Checker} (h : Unrolls p n c) : Unrolls p (n + 1) (p.checkerStep c)

namespace Unrolls

theorem comesTo (h₁ : p.Unrolls n c₁) (h₂ : p.Unrolls n c₂) : c₁.ComesTo n c₂ := by
  induction h₁ generalizing c₂ with
  | once c =>
    cases h₂ with
    | once c' => exact comesTo_checkerStep_zero
  | step _ ih =>
    cases h₂ with
    | step h₂ => exact comesTo_checkerStep (ih h₂)

theorem of_le {m : Nat} (h : p.Unrolls n c) (hle : m ≤ n) : p.Unrolls m c := by
  induction h generalizing m with
  | once c =>
    obtain rfl := Nat.le_zero.mp hle
    exact .once c
  | step _ ih =>
    cases m with
    | zero => exact .once _
    | succ m => exact .step (ih (Nat.le_of_succ_le_succ hle))

theorem checkerBelow (p : Program) (n : Nat) : p.Unrolls n (p.checkerBelow (n + 1)) := by
  induction n with
  | zero => exact .once _
  | succ n ih => exact .step ih

theorem of_eq (hc : c = p.checkerStep c) (n : Nat) : p.Unrolls n c := by
  induction n with
  | zero =>
    rw [hc]
    exact .once c
  | succ n ih =>
    rw [hc]
    exact .step ih

end Unrolls

/-- The checker that leaves its nested checks to itself. -/
def selfChecker (p : Program) : Checker where
  convert source target mode allowUser :=
    .beyondLimit fun depth => (p.checkerBelow depth).convert source target mode allowUser
  bindReference source target mode allowUser :=
    .beyondLimit fun depth => (p.checkerBelow depth).bindReference source target mode allowUser
  construct target args := .beyondLimit fun depth => (p.checkerBelow depth).construct target args

theorem Unrolls.comesTo_selfChecker (h : p.Unrolls n c) : c.ComesTo n p.selfChecker := by
  have hbelow : ∀ m k, m ≤ n → m ≤ k → c.ComesTo m (p.checkerBelow (k + 1)) :=
    fun m k hn hk => (h.of_le hn).comesTo ((Unrolls.checkerBelow p k).of_le hk)
  constructor
  · intro source target mode allowUser
    exact .beyondLimit fun m k hn hk => (hbelow m k hn hk).convert _ _ _ _
  · intro source target mode allowUser
    exact .beyondLimit fun m k hn hk => (hbelow m k hn hk).bindReference _ _ _ _
  · intro target args
    exact .beyondLimit fun m k hn hk => (hbelow m k hn hk).construct _ _

theorem Unrolls.comesTo_step_selfChecker (h : p.Unrolls n c) :
    c.ComesTo n (p.checkerStep p.selfChecker) := by
  cases h with
  | once c => exact comesTo_checkerStep_zero
  | step h => exact comesTo_checkerStep h.comesTo_selfChecker

/-- The checks that leave nested ones to themselves are those of one checker alone. -/
theorem eq_checkerStep_iff : c = p.checkerStep c ↔ c = p.selfChecker := by
  constructor
  · intro hc
    have hunrolls := Unrolls.of_eq hc
    exact Checker.ComesTo.unique fun n =>
      ⟨c, (hunrolls n).comesTo (hunrolls n), (hunrolls n).comesTo_selfChecker⟩
  · rintro rfl
    have hunrolls := Unrolls.checkerBelow p
    exact Checker.ComesTo.unique fun n =>
      ⟨_, (hunrolls n).comesTo_selfChecker, (hunrolls n).comesTo_step_selfChecker⟩

theorem selfChecker_unrolls (p : Program) : ∀ n, p.Unrolls n p.selfChecker :=
  .of_eq (eq_checkerStep_iff.mpr rfl)

theorem selfChecker_halts (p : Program) : p.selfChecker.Halts :=
  .of_comesTo fun n => (p.selfChecker_unrolls n).comesTo (p.selfChecker_unrolls n)

/-- From a guard that lets no more bodies in than the checker for whole expressions nests, that
checker does not show that its nested checks are left to shallower ones. -/
theorem selfChecker_comesTo (p : Program) :
    p.selfChecker.ComesTo Limits.initializationDepth p.checker := by
  rw [checker_eq]
  exact (p.selfChecker_unrolls _).comesTo (.checkerBelow p _)

end Program
end TypeTraits
