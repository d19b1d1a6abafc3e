import TypeTraits.Proofs.Expr.Operations
import TypeTraits.Proofs.Expr.Surroundings

/-!
# Checks that do not depend on the steps counted before them

The checks that define one special member after the other run under one guard, which goes on
counting, and so do the conversions of one candidate after the other. It makes no difference how
many steps a guard has counted before, as long as the check does not come to the limit: the check
takes as many steps again and comes to the same.
-/

namespace TypeTraits

namespace Guard

variable {κ : Type}

/-- Guards that differ only in the steps they have counted. -/
structure Level (g₁ g₂ : Guard κ) : Prop where
  limits : g₂.limits = g₁.limits
  visiting : g₂.visiting = g₁.visiting
  depth : g₂.depth = g₁.depth

namespace Level

variable {g g₁ g₂ g₃ : Guard κ}

theorem refl (g : Guard κ) : g.Level g := ⟨rfl, rfl, rfl⟩

theorem symm (h : g₁.Level g₂) : g₂.Level g₁ := ⟨h.limits.symm, h.visiting.symm, h.depth.symm⟩

theorem trans (h : g₁.Level g₂) (h' : g₂.Level g₃) : g₁.Level g₃ where
  limits := h'.limits.trans h.limits
  visiting := h'.visiting.trans h.visiting
  depth := h'.depth.trans h.depth

theorem entered (h : g₁.Level g₂) (key : κ) : (g₁.entered key).Level (g₂.entered key) where
  limits := h.limits
  visiting := congrArg (key :: ·) h.visiting
  depth := congrArg (· + 1) h.depth

end Level

/-- The guard allows so many more steps. -/
def Allows (g : Guard κ) (steps : Nat) : Prop :=
  g.iterations + steps ≤ max g.iterations g.limits.iterations

theorem Allows.steps_le {g : Guard κ} {n : Nat} (h : g.Allows n) : n ≤ g.limits.iterations := by
  unfold Allows at h
  omega

/-- The guard after so many more steps. -/
def after (g : Guard κ) (steps : Nat) : Guard κ := { g with iterations := g.iterations + steps }

theorem level_after (g : Guard κ) (steps : Nat) : g.Level (g.after steps) := ⟨rfl, rfl, rfl⟩

/-- The guard before it counted any step. -/
def uncounted (g : Guard κ) : Guard κ := { g with iterations := 0 }

theorem level_uncounted (g : Guard κ) : g.Level g.uncounted := ⟨rfl, rfl, rfl⟩

theorem allows_uncounted {g : Guard κ} {n : Nat} (h : n ≤ g.limits.iterations) :
    g.uncounted.Allows n := by
  simpa [Allows, uncounted] using h

@[simp] theorem after_after (g : Guard κ) (m n : Nat) : (g.after m).after n = g.after (m + n) := by
  simp [after, Nat.add_assoc]

@[simp] theorem iterations_after (g : Guard κ) (n : Nat) :
    (g.after n).iterations = g.iterations + n := rfl

@[simp] theorem limits_after (g : Guard κ) (n : Nat) : (g.after n).limits = g.limits := rfl

variable [DecidableEq κ] {g : Guard κ} {key : κ}

theorem leave_after_entered (n : Nat) :
    ((g.entered key).after n).leave key = g.after (n + 1) := by
  simp [entered, leave, after, Nat.add_comm, Nat.add_left_comm]

/-- A key is denied where the guard is too deep or is visiting it. -/
theorem enter_of_not_room (h : ¬(g.depth < g.limits.depth ∧ key ∉ g.visiting)) :
    ∃ denial, g.enter key = (some denial, g.counted) := by
  obtain ⟨_, henter⟩ | ⟨_, henter⟩ | ⟨_, henter⟩ | ⟨_, hdepth, hnew, _⟩ := g.enter_cases key
  · exact ⟨_, henter⟩
  · exact ⟨_, henter⟩
  · exact ⟨_, henter⟩
  · exact absurd ⟨hdepth, hnew⟩ h

end Guard

namespace Check

variable {α β : Type}

/-- The check takes no step beyond those that the guard allows. An entry that is denied for the
number of steps is such a step, so this holds where no entry is denied. -/
def InLimits (c : Check α) (g : Guard CheckKey) : Prop :=
  (c.run g).2.iterations ≤ max g.iterations g.limits.iterations

instance (c : Check α) (g : Guard CheckKey) : Decidable (c.InLimits g) :=
  inferInstanceAs (Decidable (_ ≤ _))

/-- From each guard on a level with `g` that allows so many steps, the check takes them and comes
to `r`. -/
structure Takes (c : Check α) (g : Guard CheckKey) (steps : Nat) (r : Formed α) : Prop where
  steps_le : steps ≤ g.limits.iterations
  run : ∀ g', g.Level g' → g'.Allows steps → c.run g' = (r, g'.after steps)

namespace Takes

variable {c : Check α} {f : α → Check β} {g g' : Guard CheckKey} {m n : Nat} {r s : Formed α}

theorem level (h : c.Takes g n r) (hlevel : g.Level g') : c.Takes g' n r where
  steps_le := hlevel.limits ▸ h.steps_le
  run g'' hlevel' := h.run g'' (hlevel.trans hlevel')

theorem run_uncounted (h : c.Takes g n r) : c.run g.uncounted = (r, g.uncounted.after n) :=
  h.run _ g.level_uncounted (Guard.allows_uncounted h.steps_le)

theorem unique (h : c.Takes g m r) (h' : c.Takes g n s) : m = n ∧ r = s := by
  obtain ⟨hresult, hguard⟩ := Prod.mk.inj (h.run_uncounted.symm.trans h'.run_uncounted)
  have hsteps := congrArg Guard.iterations hguard
  exact ⟨by simpa using hsteps, hresult⟩

theorem returns {a : α} (h : c.Takes g n (.ok a)) : c.Returns a :=
  ⟨g.uncounted, by rw [h.run_uncounted]⟩

theorem inLimits (h : c.Takes g n r) (hallows : g.Allows n) : c.InLimits g := by
  rw [InLimits, h.run g (.refl g) hallows]
  exact hallows

theorem ofFormed (r : Formed α) : (Check.ofFormed r).Takes g 0 r :=
  ⟨Nat.zero_le _, fun _ _ _ => rfl⟩

theorem pure (g : Guard CheckKey) (a : α) : (Pure.pure a : Check α).Takes g 0 (.ok a) :=
  ofFormed (.ok a)

theorem bind_error {e : Inapplicable} (h : c.Takes g n (.error e)) :
    (c >>= f).Takes g n (.error e) where
  steps_le := h.steps_le
  run g' hlevel hallows := by rw [run_bind, h.run g' hlevel hallows]

theorem bind {a : α} {t : Formed β} (h : c.Takes g m (.ok a)) (hf : (f a).Takes g n t)
    (hsteps : m + n ≤ g.limits.iterations) : (c >>= f).Takes g (m + n) t where
  steps_le := hsteps
  run g' hlevel hallows := by
    unfold Guard.Allows at hallows
    have hrest : (g'.after m).Allows n := by
      simp only [Guard.Allows, Guard.iterations_after, Guard.limits_after]
      omega
    rw [run_bind, h.run g' hlevel (by unfold Guard.Allows; omega)]
    dsimp only
    rw [hf.run _ (hlevel.trans (g'.level_after m)) hrest, Guard.after_after]

theorem bind_pure {a : α} (h : c.Takes g n (.ok a)) (k : α → β) :
    (c >>= fun a => Pure.pure (k a)).Takes g n (.ok (k a)) := by
  exact h.bind (f := fun a => Pure.pure (k a)) (.pure g (k a)) h.steps_le

theorem attempt (h : c.Takes g n r) : (Check.attempt c).Takes g n (.ok r.toOption) where
  steps_le := h.steps_le
  run g' hlevel hallows := by rw [run_attempt, h.run g' hlevel hallows]

/-- A check whose key the guard has room for takes one step more than its body. -/
theorem guarded {key : CheckKey} (hroom : g.depth < g.limits.depth ∧ key ∉ g.visiting)
    (h : c.Takes (g.entered key) n r) (hsteps : n + 1 ≤ g.limits.iterations) :
    (Check.guarded key c).Takes g (n + 1) r where
  steps_le := hsteps
  run g' hlevel hallows := by
    have hlimits := hlevel.limits
    have hentered : (g'.entered key).Allows n := by
      simp only [Guard.Allows, Guard.entered, hlimits] at hallows ⊢
      omega
    have hcount : g'.iterations < g'.limits.iterations := by
      unfold Guard.Allows at hallows
      omega
    rw [run_guarded_of_room hcount (by rw [hlimits, hlevel.depth]; exact hroom.1)
      (by rw [hlevel.visiting]; exact hroom.2), h.run _ (hlevel.entered key) hentered,
      Guard.leave_after_entered]

/-- A check whose key the guard has no room for takes one step to be denied. -/
theorem denied {key : CheckKey} (hroom : ¬(g.depth < g.limits.depth ∧ key ∉ g.visiting))
    (hsteps : 1 ≤ g.limits.iterations) :
    (Check.guarded key c).Takes g 1 (.error .recursionLimit) where
  steps_le := hsteps
  run g' hlevel _ := by
    rw [← hlevel.depth, ← hlevel.limits, ← hlevel.visiting] at hroom
    obtain ⟨_, henter⟩ := Guard.enter_of_not_room hroom
    rw [run_guarded, henter]
    rfl

end Takes

/-- What the check comes to within the limits, and in how many steps, does not depend on the steps
counted before it. -/
structure Steady (c : Check α) : Prop where
  keeps : ∀ g : Guard CheckKey, g.Keeps (c.run g).2
  takes : ∀ g, c.InLimits g → ∃ n r, g.Allows n ∧ c.Takes g n r

namespace Steady

variable {c : Check α} {f : α → Check β}

theorem ofFormed (r : Formed α) : (Check.ofFormed r).Steady where
  keeps := .refl
  takes _ _ := ⟨0, r, Nat.le_max_left .., .ofFormed r⟩

theorem pure (a : α) : (pure a : Check α).Steady := ofFormed (.ok a)

theorem throw (error : Inapplicable) : (throw error : Check α).Steady := ofFormed (.error error)

/-- Where a sequence stays within the limits, so does each part of it. -/
theorem takes_of_bind (hc : c.Steady) (hf : ∀ a, (f a).Steady) {g : Guard CheckKey}
    (h : (c >>= f).InLimits g) : ∃ m r, g.Allows m ∧ c.Takes g m r ∧
      ∀ a, r = .ok a → ∃ n s, g.Allows (m + n) ∧ (f a).Takes g n s := by
  have hfirst : c.InLimits g := by
    unfold InLimits at h ⊢
    rw [run_bind] at h
    rcases hrun : c.run g with ⟨_ | a, g'⟩ <;> rw [hrun] at h
    · exact h
    · exact Nat.le_trans ((hf a).keeps g').iterations_le h
  obtain ⟨m, r, hallows, htakes⟩ := hc.takes g hfirst
  refine ⟨m, r, hallows, htakes, fun a ha => ?_⟩
  have hrun := htakes.run g (.refl g) hallows
  unfold Guard.Allows at hallows
  have hsecond : (f a).InLimits (g.after m) := by
    unfold InLimits at h ⊢
    rw [run_bind, hrun, ha] at h
    simp only [Guard.iterations_after, Guard.limits_after] at h ⊢
    omega
  obtain ⟨n, s, hallows', htakes'⟩ := (hf a).takes (g.after m) hsecond
  simp only [Guard.Allows, Guard.iterations_after, Guard.limits_after] at hallows'
  exact ⟨n, s, by unfold Guard.Allows; omega, htakes'.level (g.level_after m).symm⟩

theorem bind (hc : c.Steady) (hf : ∀ a, (f a).Steady) : (c >>= f).Steady where
  keeps g := by
    rw [run_bind]
    have hkeeps := hc.keeps g
    rcases hrun : c.run g with ⟨_ | a, g'⟩ <;> rw [hrun] at hkeeps
    · exact hkeeps
    · exact hkeeps.trans ((hf a).keeps g')
  takes g h := by
    obtain ⟨m, r, hallows, htakes, hrest⟩ := takes_of_bind hc hf h
    cases r with
    | error e => exact ⟨m, _, hallows, htakes.bind_error⟩
    | ok a =>
      obtain ⟨n, s, hallows', htakes'⟩ := hrest a rfl
      exact ⟨m + n, s, hallows', htakes.bind htakes' hallows'.steps_le⟩

theorem attempt (hc : c.Steady) : (Check.attempt c).Steady where
  keeps g := by
    rw [run_attempt]
    exact hc.keeps g
  takes g h := by
    have hc' : c.InLimits g := by
      unfold InLimits at h
      rwa [run_attempt] at h
    obtain ⟨n, r, hallows, htakes⟩ := hc.takes g hc'
    exact ⟨n, _, hallows, htakes.attempt⟩

/-- Where a guarded check stays within the limits, so does its body if there is room for it. -/
theorem takes_of_guarded {key : CheckKey} {body : Check α} (hbody : body.Steady)
    {g : Guard CheckKey} (h : (Check.guarded key body).InLimits g)
    (hroom : g.depth < g.limits.depth ∧ key ∉ g.visiting) :
    ∃ n r, g.Allows (n + 1) ∧ body.Takes (g.entered key) n r := by
  have hcount : g.iterations < g.limits.iterations := by
    have hstep : g.iterations + 1 ≤ max g.iterations g.limits.iterations :=
      Nat.le_trans (keeps_guarded hbody.keeps g).iterations_le h
    omega
  have hinner : body.InLimits (g.entered key) := by
    unfold InLimits at h ⊢
    rw [run_guarded_of_room hcount hroom.1 hroom.2] at h
    simp only [Guard.leave, Guard.entered] at h ⊢
    omega
  obtain ⟨n, r, hallows, htakes⟩ := hbody.takes _ hinner
  refine ⟨n, r, ?_, htakes⟩
  simp only [Guard.Allows, Guard.entered] at hallows ⊢
  omega

theorem guarded (key : CheckKey) {body : Check α} (hbody : body.Steady) :
    (Check.guarded key body).Steady where
  keeps g := g.keeps_counted.trans (keeps_guarded hbody.keeps g)
  takes g h := by
    by_cases hroom : g.depth < g.limits.depth ∧ key ∉ g.visiting
    · obtain ⟨n, r, hallows, htakes⟩ := takes_of_guarded hbody h hroom
      exact ⟨n + 1, r, hallows, htakes.guarded hroom hallows.steps_le⟩
    · have hstep : g.Allows 1 := Nat.le_trans (keeps_guarded hbody.keeps g).iterations_le h
      exact ⟨1, _, hstep, .denied hroom hstep.steps_le⟩

end Steady

/-! ### What the parts of a check take -/

namespace Takes

variable {c : Check α} {f : α → Check β} {g : Guard CheckKey} {n : Nat}

theorem inLimits_uncounted {r : Formed α} (h : c.Takes g n r) : c.InLimits g.uncounted :=
  (h.level g.level_uncounted).inLimits (Guard.allows_uncounted h.steps_le)

theorem of_bind {r : Formed β} (hc : c.Steady) (hf : ∀ a, (f a).Steady)
    (h : (c >>= f).Takes g n r) :
    (∃ m e, c.Takes g m (.error e) ∧ r = .error e) ∨
      ∃ m a k, c.Takes g m (.ok a) ∧ (f a).Takes g k r := by
  obtain ⟨m, s, _, hm, hrest⟩ := Steady.takes_of_bind hc hf h.inLimits_uncounted
  replace hm := hm.level g.level_uncounted.symm
  cases s with
  | error e => exact Or.inl ⟨m, e, hm, (h.unique hm.bind_error).2⟩
  | ok a =>
    obtain ⟨k, s, hallows, hk⟩ := hrest a rfl
    replace hk := hk.level g.level_uncounted.symm
    obtain ⟨_, rfl⟩ := h.unique (hm.bind hk hallows.steps_le)
    exact Or.inr ⟨m, a, k, hm, hk⟩

theorem of_attempt {r : Formed (Option α)} (hc : c.Steady) (h : (Check.attempt c).Takes g n r) :
    ∃ m s, c.Takes g m s ∧ r = .ok s.toOption := by
  have hlimits := h.inLimits_uncounted
  unfold InLimits at hlimits
  rw [run_attempt] at hlimits
  obtain ⟨m, s, _, hm⟩ := hc.takes _ hlimits
  replace hm := hm.level g.level_uncounted.symm
  exact ⟨m, s, hm, (h.unique hm.attempt).2⟩

theorem of_guarded {key : CheckKey} {r : Formed α} (hc : c.Steady)
    (h : (Check.guarded key c).Takes g n r) :
    (∃ m, c.Takes (g.entered key) m r) ∧ (g.depth < g.limits.depth ∧ key ∉ g.visiting) ∨
      r = .error .recursionLimit ∧ ¬(g.depth < g.limits.depth ∧ key ∉ g.visiting) := by
  by_cases hroom : g.depth < g.limits.depth ∧ key ∉ g.visiting
  · obtain ⟨m, s, hallows, hm⟩ := Steady.takes_of_guarded hc h.inLimits_uncounted hroom
    replace hm := hm.level (g.level_uncounted.symm.entered key)
    obtain ⟨_, rfl⟩ := h.unique (hm.guarded hroom hallows.steps_le)
    exact Or.inl ⟨⟨m, hm⟩, hroom⟩
  · have hstep : g.uncounted.Allows 1 :=
      Nat.le_trans (keeps_guarded hc.keeps g.uncounted).iterations_le h.inLimits_uncounted
    exact Or.inr ⟨(h.unique (.denied hroom hstep.steps_le)).2, hroom⟩

end Takes

/-- On its own or as part of a longer check, the check comes to `a` within the limits. -/
def Settles (c : Check α) (a : α) : Prop := ∃ n, c.Takes (.fresh .initialization) n (.ok a)

namespace Settles

variable {c : Check α} {f : α → Check β} {a : α} {b : β}

theorem returns (h : c.Settles a) : c.Returns a := by
  obtain ⟨_, h⟩ := h
  exact h.returns

theorem result (h : c.Settles a) : c.result = .ok a := by
  obtain ⟨_, h⟩ := h
  rw [Check.result, h.run _ (.refl _) (Guard.allows_uncounted h.steps_le)]

theorem of_result (hc : c.Steady) (hlimits : c.InLimits (.fresh .initialization))
    (h : c.result = .ok a) : c.Settles a := by
  obtain ⟨n, r, hallows, htakes⟩ := hc.takes _ hlimits
  rw [Check.result, htakes.run _ (.refl _) hallows] at h
  exact ⟨n, h ▸ htakes⟩

theorem bind (hc : c.Steady) (hf : ∀ a, (f a).Steady) (h : (c >>= f).Settles b) :
    ∃ a, c.Settles a ∧ (f a).Settles b := by
  obtain ⟨_, h⟩ := h
  rcases h.of_bind hc hf with ⟨_, _, _, herror⟩ | ⟨m, a, k, hm, hk⟩
  · cases herror
  · exact ⟨a, ⟨m, hm⟩, ⟨k, hk⟩⟩

theorem attempt (hc : c.Steady) (h : (Check.attempt c).Settles (some a)) : c.Settles a := by
  obtain ⟨_, h⟩ := h
  obtain ⟨m, r, hm, hr⟩ := h.of_attempt hc
  cases r with
  | error _ => cases hr
  | ok _ =>
    cases hr
    exact ⟨m, hm⟩

end Settles

theorem result_attempt (c : Check α) : (Check.attempt c).result = .ok c.result.toOption := by
  rw [Check.result, run_attempt]
  rfl

theorem inLimits_attempt {c : Check α} {g : Guard CheckKey} :
    (Check.attempt c).InLimits g ↔ c.InLimits g := by
  rw [InLimits, run_attempt, InLimits]

namespace Steady

variable {c : Check α} {f : α → Check β}

/-- Within the limits a sequence is answered part by part, each part on its own. -/
theorem result_bind (hc : c.Steady) (hf : ∀ a, (f a).Steady)
    (h : (c >>= f).InLimits (.fresh .initialization)) :
    c.InLimits (.fresh .initialization) ∧
      (∀ a, c.result = .ok a → (f a).InLimits (.fresh .initialization)) ∧
      (c >>= f).result = c.result.bind fun a => (f a).result := by
  have hanswer : ∀ {γ : Type} {check : Check γ} {m : Nat} {r : Formed γ},
      check.Takes (.fresh .initialization) m r → check.result = r := by
    intro γ check m r hm
    rw [Check.result, hm.run _ (.refl _) (Guard.allows_uncounted hm.steps_le)]
  obtain ⟨m, r, hallows, hm, hrest⟩ := takes_of_bind hc hf h
  have hr := hanswer hm
  refine ⟨hm.inLimits hallows, ?_, ?_⟩
  · intro a ha
    obtain ⟨n, s, hallows', hn⟩ := hrest a (hr.symm.trans ha)
    exact hn.inLimits (Guard.allows_uncounted hn.steps_le)
  · cases r with
    | error e =>
      rw [hr, hanswer hm.bind_error]
      rfl
    | ok a =>
      obtain ⟨n, s, hallows', hn⟩ := hrest a rfl
      rw [hr, hanswer (hm.bind hn hallows'.steps_le), Except.bind, hanswer hn]

theorem isInherited : IsInherited fun _ c => c.Steady := ⟨ofFormed, bind, attempt, guarded⟩

end Steady
end Check

namespace Program

variable (p : Program)

theorem steady_convert (depth : Nat) (source : Expr) (target : Ty) (mode : InitMode)
    (allowUser : Bool) : ((p.checkerBelow depth).convert source target mode allowUser).Steady ∧
      ((p.checkerBelow depth).bindReference source target mode allowUser).Steady :=
  have h := Check.Steady.isInherited.checkerBelow p depth
  ⟨(h.convert ..).2, (h.bindReference ..).2⟩

theorem steady_directInit (target : Ty) (args : List Expr) : (p.directInit target args).Steady :=
  Check.Steady.isInherited.directInit p ..

theorem steady_assign (a b : Expr) : (p.assign a b).Steady :=
  Check.Steady.isInherited.assign p ..

end Program
end TypeTraits
