import TypeTraits.Proofs.Expr.Compositional

/-!
# Checks in different surroundings

A check that is nested in the binding of a reference runs under a guard that is also visiting what
surrounds the binding. Two such runs come to the same, although their surroundings differ, as long
as one of them takes too few steps to meet a limit: a construction is never nested in them, and
converting to the reference once more is denied at once or as soon as it binds.
-/

namespace TypeTraits

namespace Guard

variable {κ : Type} {g : Guard κ} {key : κ}

/-- The guard after a key was denied. -/
def counted (g : Guard κ) : Guard κ := { g with iterations := g.iterations + 1 }

/-- A later guard that is visiting the same and has counted more steps. -/
structure Keeps (g g' : Guard κ) : Prop where
  limits : g'.limits = g.limits
  visiting : g'.visiting = g.visiting
  depth : g'.depth = g.depth
  iterations_le : g.iterations ≤ g'.iterations

theorem Keeps.refl (g : Guard κ) : g.Keeps g := ⟨rfl, rfl, rfl, Nat.le_refl _⟩

theorem Keeps.trans {g' g'' : Guard κ} (h : g.Keeps g') (h' : g'.Keeps g'') : g.Keeps g'' where
  limits := h'.limits.trans h.limits
  visiting := h'.visiting.trans h.visiting
  depth := h'.depth.trans h.depth
  iterations_le := Nat.le_trans h.iterations_le h'.iterations_le

theorem keeps_counted (g : Guard κ) : g.Keeps g.counted := ⟨rfl, rfl, rfl, Nat.le_succ _⟩

variable [DecidableEq κ]

/-- An entry is denied for one of three reasons, or it succeeds. -/
theorem enter_cases (g : Guard κ) (key : κ) :
    (g.limits.iterations < min (g.iterations + 1) Limits.countedSteps ∧
      g.enter key = (some .iterationExceeded, g.counted)) ∨
    (g.limits.depth ≤ g.depth ∧ g.enter key = (some .depthExceeded, g.counted)) ∨
    (key ∈ g.visiting ∧ g.enter key = (some .cycle, g.counted)) ∨
    (min (g.iterations + 1) Limits.countedSteps ≤ g.limits.iterations ∧
      g.depth < g.limits.depth ∧ key ∉ g.visiting ∧ g.enter key = (none, g.entered key)) := by
  unfold enter counted entered
  dsimp only
  split
  · exact .inl ⟨‹_›, rfl⟩
  · split
    · exact .inr (.inl ⟨‹_›, rfl⟩)
    · split
      · exact .inr (.inr (.inl ⟨‹_›, rfl⟩))
      · exact .inr (.inr (.inr ⟨Nat.le_of_not_lt ‹_›, Nat.lt_of_not_le ‹_›, ‹_›, rfl⟩))

theorem enter_of_mem (hkey : key ∈ g.visiting) :
    ∃ denial, g.enter key = (some denial, g.counted) := by
  obtain ⟨_, henter⟩ | ⟨_, henter⟩ | ⟨_, henter⟩ | ⟨_, _, hnew, _⟩ := g.enter_cases key
  · exact ⟨_, henter⟩
  · exact ⟨_, henter⟩
  · exact ⟨_, henter⟩
  · exact absurd hkey hnew

theorem enter_eq_some {denial : Denial} {g' : Guard κ} (h : g.enter key = (some denial, g')) :
    g' = g.counted := by
  obtain ⟨_, henter⟩ | ⟨_, henter⟩ | ⟨_, henter⟩ | ⟨_, _, _, henter⟩ := g.enter_cases key
  all_goals cases henter.symm.trans h
  all_goals rfl

theorem iterations_lt_of_enter {g' : Guard κ}
    (hlimit : g.limits.iterations < Limits.countedSteps) (h : g.enter key = (none, g')) :
    g.iterations < g.limits.iterations := by
  obtain ⟨_, henter⟩ | ⟨_, henter⟩ | ⟨_, henter⟩ | ⟨hcount, _, _, henter⟩ := g.enter_cases key
  all_goals cases henter.symm.trans h
  omega

@[simp] theorem leave_entered : (g.entered key).leave key = g.counted := by
  simp [entered, leave, counted]

theorem leave_counted : g.counted.leave key = (g.leave key).counted := rfl

theorem Keeps.leave {g' : Guard κ} (h : (g.entered key).Keeps g') :
    g.counted.Keeps (g'.leave key) where
  limits := h.limits
  visiting := by simp [Guard.leave, h.visiting, entered, counted]
  depth := by simp [Guard.leave, h.depth, entered, counted]
  iterations_le := h.iterations_le

end Guard

/-- A guarded check counts a step. -/
theorem Check.keeps_guarded {α : Type} {key : CheckKey} {body : Check α}
    (hbody : ∀ g : Guard CheckKey, g.Keeps (body.run g).2) (g : Guard CheckKey) :
    g.counted.Keeps ((guarded key body).run g).2 := by
  rw [run_guarded]
  rcases henter : g.enter key with ⟨_ | denial, g'⟩ <;> dsimp only
  · obtain ⟨rfl, _⟩ := Guard.enter_eq_none henter
    exact (hbody (g.entered key)).leave
  · rw [Guard.enter_eq_some henter]
    exact .refl _

/-- What two guards are visiting around the binding of a reference of type `t` to `e`, and how many
steps more than the second guard the first one may have counted. -/
structure Surroundings (t : Ty) (e : Expr) where
  first : List CheckKey
  second : List CheckKey
  lead : Nat
  /-- They differ in constructions and in the conversion to the reference alone. -/
  mem_iff : ∀ key, key.operation ≠ .construct → key ≠ .of .convert t e →
    (key ∈ first ↔ key ∈ second)
  mem_first : .of .convert t e ∈ second → .of .convert t e ∈ first
  binds : .of .bindReference t e ∈ second
  lead_le : Limits.initializationDepth + lead ≤ Limits.guardIterations

namespace Surroundings

variable {t : Ty} {e : Expr} (s : Surroundings t e) {α β : Type}

/-- Two guards between which the surroundings are the only difference that can matter, for checks
that nest `fuel` times and are nested in `inner`. -/
structure Alongside (fuel : Nat) (inner : List CheckKey) (g₁ g₂ : Guard CheckKey) : Prop where
  limits₁ : g₁.limits = .initialization
  limits₂ : g₂.limits = .initialization
  visiting₁ : g₁.visiting = inner ++ s.first
  visiting₂ : g₂.visiting = inner ++ s.second
  depth_le : g₁.depth ≤ g₂.depth
  depth_le_iterations : g₂.depth ≤ g₂.iterations
  iterations_le : g₁.iterations ≤ g₂.iterations + s.lead
  fuel_gt : Limits.initializationDepth < fuel + g₂.depth

/-- Two checks that come to the same where the second one takes few steps. -/
structure Alike (fuel : Nat) (c₁ c₂ : Check α) : Prop where
  keeps : ∀ g : Guard CheckKey, g.Keeps (c₂.run g).2
  agrees : ∀ {inner g₁ g₂}, s.Alongside fuel inner g₁ g₂ →
    (c₂.run g₂).2.iterations ≤ Limits.initializationDepth →
      (c₁.run g₁).1 = (c₂.run g₂).1 ∧ s.Alongside fuel inner (c₁.run g₁).2 (c₂.run g₂).2

variable {s} {fuel : Nat} {inner : List CheckKey} {g₁ g₂ : Guard CheckKey}

namespace Alike

theorem ofFormed (r : Formed α) : s.Alike fuel (.ofFormed r) (.ofFormed r) where
  keeps g := .refl g
  agrees h _ := ⟨rfl, h⟩

theorem throw (error : Inapplicable) : s.Alike fuel (throw error : Check α) (throw error) :=
  ofFormed (.error error)

theorem bind {c₁ c₂ : Check α} {f₁ f₂ : α → Check β} (hc : s.Alike fuel c₁ c₂)
    (hf : ∀ a, s.Alike fuel (f₁ a) (f₂ a)) : s.Alike fuel (c₁ >>= f₁) (c₂ >>= f₂) where
  keeps g := by
    rw [Check.run_bind]
    have hkeeps := hc.keeps g
    rcases hrun : c₂.run g with ⟨_ | a, g'⟩ <;> rw [hrun] at hkeeps
    · exact hkeeps
    · exact hkeeps.trans ((hf a).keeps g')
  agrees {inner g₁ g₂} h hfew := by
    rw [Check.run_bind] at hfew
    rw [Check.run_bind, Check.run_bind]
    have hagrees := hc.agrees h
    rcases hrun₂ : c₂.run g₂ with ⟨_ | a, g₂'⟩ <;> rw [hrun₂] at hfew hagrees <;>
      rcases hrun₁ : c₁.run g₁ with ⟨_ | b, g₁'⟩ <;> rw [hrun₁] at hagrees
    · obtain ⟨hresult, halong⟩ := hagrees hfew
      cases hresult
      exact ⟨rfl, halong⟩
    · cases (hagrees hfew).1
    · cases (hagrees (Nat.le_trans ((hf a).keeps g₂').iterations_le hfew)).1
    · obtain ⟨hresult, halong⟩ := hagrees (Nat.le_trans ((hf a).keeps g₂').iterations_le hfew)
      cases hresult
      exact (hf a).agrees halong hfew

theorem attempt {c₁ c₂ : Check α} (hc : s.Alike fuel c₁ c₂) :
    s.Alike fuel (Check.attempt c₁) (Check.attempt c₂) where
  keeps g := by
    rw [Check.run_attempt]
    exact hc.keeps g
  agrees h hfew := by
    rw [Check.run_attempt] at hfew
    rw [Check.run_attempt, Check.run_attempt]
    obtain ⟨hresult, halong⟩ := hc.agrees h hfew
    exact ⟨by rw [hresult], halong⟩

end Alike

variable (s fuel) in
theorem isCompositional : Check.IsCompositional fun _ c₁ c₂ => s.Alike fuel c₁ c₂ where
  ofFormed := .ofFormed
  bind := .bind
  attempt := .attempt

/-- Where the second guard has counted few steps, no limit is met on either side. -/
theorem Alongside.room (h : s.Alongside fuel inner g₁ g₂)
    (hfew : g₂.iterations < Limits.initializationDepth) :
    (g₁.iterations < g₁.limits.iterations ∧ g₁.depth < g₁.limits.depth) ∧
      g₂.iterations < g₂.limits.iterations ∧ g₂.depth < g₂.limits.depth := by
  have hlead := s.lead_le
  have := h.depth_le
  have := h.depth_le_iterations
  have := h.iterations_le
  rw [h.limits₁, h.limits₂]
  simp only [WalkLimits.initialization] at *
  omega

theorem Alongside.counted (h : s.Alongside fuel inner g₁ g₂) :
    s.Alongside fuel inner g₁.counted g₂.counted where
  limits₁ := h.limits₁
  limits₂ := h.limits₂
  visiting₁ := h.visiting₁
  visiting₂ := h.visiting₂
  depth_le := h.depth_le
  fuel_gt := h.fuel_gt
  depth_le_iterations := Nat.le_succ_of_le h.depth_le_iterations
  iterations_le := by
    have := h.iterations_le
    simp only [Guard.counted]
    omega

/-- The second guard may count more steps than the first one. -/
theorem Alongside.behind (h : s.Alongside fuel inner g₁ g₂) :
    s.Alongside fuel inner g₁ g₂.counted where
  limits₁ := h.limits₁
  limits₂ := h.limits₂
  visiting₁ := h.visiting₁
  visiting₂ := h.visiting₂
  depth_le := h.depth_le
  fuel_gt := h.fuel_gt
  depth_le_iterations := Nat.le_succ_of_le h.depth_le_iterations
  iterations_le := by
    have := h.iterations_le
    simp only [Guard.counted]
    omega

theorem Alongside.entered (h : s.Alongside (fuel + 1) inner g₁ g₂) (key : CheckKey) :
    s.Alongside fuel (key :: inner) (g₁.entered key) (g₂.entered key) where
  limits₁ := h.limits₁
  limits₂ := h.limits₂
  visiting₁ := congrArg (key :: ·) h.visiting₁
  visiting₂ := congrArg (key :: ·) h.visiting₂
  depth_le := Nat.succ_le_succ h.depth_le
  depth_le_iterations := Nat.succ_le_succ h.depth_le_iterations
  iterations_le := by
    have := h.iterations_le
    simp only [Guard.entered]
    omega
  fuel_gt := by
    have := h.fuel_gt
    simp only [Guard.entered]
    omega

theorem Alongside.leave {key : CheckKey} (h : s.Alongside fuel (key :: inner) g₁ g₂) :
    s.Alongside (fuel + 1) inner (g₁.leave key) (g₂.leave key) where
  limits₁ := h.limits₁
  limits₂ := h.limits₂
  visiting₁ := by simp [Guard.leave, h.visiting₁]
  visiting₂ := by simp [Guard.leave, h.visiting₂]
  depth_le := Nat.sub_le_sub_right h.depth_le 1
  depth_le_iterations := Nat.le_trans (Nat.sub_le _ _) h.depth_le_iterations
  iterations_le := h.iterations_le
  fuel_gt := by
    have := h.fuel_gt
    simp only [Guard.leave]
    omega

/-- A guarded check whose key the surroundings treat alike. -/
theorem Alike.guarded {key : CheckKey} {body₁ body₂ : Check α}
    (hkey : key ∈ s.first ↔ key ∈ s.second) (hbody : s.Alike fuel body₁ body₂) :
    s.Alike (fuel + 1) (.guarded key body₁) (.guarded key body₂) where
  keeps g := g.keeps_counted.trans (Check.keeps_guarded hbody.keeps g)
  agrees {inner g₁ g₂} h hfew := by
    have hmem : key ∈ g₁.visiting ↔ key ∈ g₂.visiting := by
      rw [h.visiting₁, h.visiting₂, List.mem_append, List.mem_append, hkey]
    have hroom := h.room
      (Nat.lt_of_lt_of_le (Check.keeps_guarded hbody.keeps g₂).iterations_le hfew)
    rw [Check.run_guarded] at hfew
    rw [Check.run_guarded, Check.run_guarded]
    by_cases hvisiting : key ∈ g₂.visiting
    · obtain ⟨_, henter₁⟩ := Guard.enter_of_mem (hmem.mpr hvisiting)
      obtain ⟨_, henter₂⟩ := Guard.enter_of_mem hvisiting
      rw [henter₁, henter₂]
      exact ⟨rfl, h.counted⟩
    · have henter₁ := Guard.enter_of_room hroom.1.1 hroom.1.2 (mt hmem.mp hvisiting)
      have henter₂ := Guard.enter_of_room hroom.2.1 hroom.2.2 hvisiting
      rw [henter₂] at hfew
      rw [henter₁, henter₂]
      obtain ⟨hresult, halong⟩ := hbody.agrees (h.entered key) hfew
      exact ⟨hresult, halong.leave⟩

/-- Two ways to convert an expression that come to the same. -/
def ConvertAlike (s : Surroundings t e) (fuel : Nat) (convert₁ convert₂ : ConvertArgument) : Prop :=
  ∀ source target mode allowUser,
    s.Alike fuel (convert₁ source target mode allowUser) (convert₂ source target mode allowUser)

theorem ConvertAlike.bindReferent {p : Program} {convert₁ convert₂ : ConvertArgument}
    {source : Expr} {referent : Ty} {isRvalueRef : Bool} {mode : InitMode} {allowUser : Bool}
    (h : s.ConvertAlike fuel convert₁ convert₂) :
    s.Alike fuel (p.bindReferent convert₁ source referent isRvalueRef mode allowUser)
      (p.bindReferent convert₂ source referent isRvalueRef mode allowUser) :=
  (s.isCompositional fuel).bindReferent (fun source target mode allowUser _ =>
    h source target mode allowUser) p.closedSources_true trivial

section Checker

variable {p : Program} {depth depth₁ depth₂ : Nat} {mode : InitMode} {allowUser : Bool}
  {parts : Ty × Bool}

/-- A reference that is being bound is not bound once more. -/
theorem run_bindReference_of_mem (htarget : t.referent? = some parts)
    (hmem : .of .bindReference t e ∈ g₂.visiting) :
    ∃ g', ((p.checkerBelow depth).bindReference e t mode allowUser).run g₂ =
        (.error .recursionLimit, g') ∧ (g' = g₂ ∨ g' = g₂.counted) := by
  cases depth with
  | zero => exact ⟨g₂, rfl, Or.inl rfl⟩
  | succ depth =>
    obtain ⟨_, henter⟩ := Guard.enter_of_mem hmem
    refine ⟨g₂.counted, ?_, Or.inr rfl⟩
    rw [Program.bindReference_eq htarget, Check.run_guarded, henter]

/-- Converting to the reference once more is denied on both sides, or denied on the first one and
without effect on the second. -/
theorem alike_convert_again (htarget : t.referent? = some parts) {body : Check Conversion}
    (hbody : s.Alike fuel body (p.convertStep (p.checkerBelow depth) e t mode allowUser)) :
    s.Alike (fuel + 1) (.guarded (.of .convert t e) body)
      (.guarded (.of .convert t e)
        (p.convertStep (p.checkerBelow depth) e t mode allowUser)) := by
  by_cases hsecond : CheckKey.of .convert t e ∈ s.second
  · exact .guarded ⟨fun _ => hsecond, s.mem_first⟩ hbody
  by_cases hfirst : CheckKey.of .convert t e ∉ s.first
  · exact .guarded ⟨fun h => absurd h hfirst, fun h => absurd h hsecond⟩ hbody
  refine ⟨fun g => g.keeps_counted.trans (Check.keeps_guarded hbody.keeps g), ?_⟩
  intro inner g₁ g₂ h hfew
  have hroom := h.room (Nat.lt_of_lt_of_le (Check.keeps_guarded hbody.keeps g₂).iterations_le hfew)
  obtain ⟨_, henter₁⟩ := Guard.enter_of_mem (g := g₁)
    (h.visiting₁ ▸ List.mem_append_right inner (Decidable.not_not.mp hfirst))
  rw [Check.run_guarded, Check.run_guarded, henter₁]
  by_cases hinner : CheckKey.of .convert t e ∈ inner
  · obtain ⟨_, henter₂⟩ := Guard.enter_of_mem (g := g₂)
      (h.visiting₂ ▸ List.mem_append_left s.second hinner)
    rw [henter₂]
    exact ⟨rfl, h.counted⟩
  · have hkey₂ : CheckKey.of .convert t e ∉ g₂.visiting := by
      rw [h.visiting₂, List.mem_append]
      exact fun hmem => hmem.elim hinner hsecond
    rw [Guard.enter_of_room hroom.2.1 hroom.2.2 hkey₂]
    have hstep : p.convertStep (p.checkerBelow depth) e t mode allowUser =
        (p.checkerBelow depth).bindReference e t mode allowUser := by
      rw [Program.convertStep, if_pos (by simp [Ty.isReference, htarget])]
    have hmem : CheckKey.of .bindReference t e ∈ (g₂.entered (.of .convert t e)).visiting := by
      rw [Guard.entered, h.visiting₂]
      exact List.mem_cons_of_mem _ (List.mem_append_right inner s.binds)
    obtain ⟨g', hrun, hg'⟩ := @run_bindReference_of_mem _ _ _ p depth mode allowUser _ htarget hmem
    simp only [hstep, hrun]
    refine ⟨trivial, ?_⟩
    rcases hg' with rfl | rfl
    · rw [Guard.leave_entered]
      exact h.counted
    · rw [Guard.leave_counted, Guard.leave_entered]
      exact h.counted.behind

/-- No steps are left to a checker that allows none. -/
theorem Alike.closed (c₁ : Check α) (error : Inapplicable) :
    s.Alike 0 c₁ (MonadExcept.throw error) where
  keeps g := .refl g
  agrees {inner g₁ g₂} h hfew := by
    have hfuel := h.fuel_gt
    have hdepth := h.depth_le_iterations
    have hfew : g₂.iterations ≤ Limits.initializationDepth := hfew
    omega

/-- Checkers of different depths come to the same in different surroundings. -/
theorem alike_checkerBelow (htarget : t.referent? = some parts) (hdepth : depth₂ ≤ depth₁) :
    s.ConvertAlike depth₂ (p.checkerBelow depth₁).convert (p.checkerBelow depth₂).convert ∧
      s.ConvertAlike depth₂ (p.checkerBelow depth₁).bindReference
        (p.checkerBelow depth₂).bindReference := by
  induction depth₂ generalizing depth₁ with
  | zero => exact ⟨fun _ _ _ _ => .closed _ _, fun _ _ _ _ => .closed _ _⟩
  | succ depth₂ ih =>
    obtain ⟨depth₁, rfl⟩ : ∃ n, depth₁ = n + 1 := ⟨depth₁ - 1, by omega⟩
    obtain ⟨hconvert, hbind⟩ := ih (Nat.le_of_succ_le_succ hdepth)
    constructor
    · intro source target mode allowUser
      have hstep : s.Alike depth₂
          (p.convertStep (p.checkerBelow depth₁) source target mode allowUser)
          (p.convertStep (p.checkerBelow depth₂) source target mode allowUser) :=
        (s.isCompositional depth₂).convertStep p.closedSources_true
          (fun source target mode allowUser _ => hconvert source target mode allowUser)
          (fun source target mode allowUser _ => hbind source target mode allowUser) trivial
      by_cases hkey : CheckKey.of .convert target source = .of .convert t e
      · obtain ⟨rfl, rfl⟩ : target = t ∧ source = e := by
          cases source
          cases e
          simpa [CheckKey.of] using hkey
        exact alike_convert_again htarget hstep
      · exact .guarded (s.mem_iff _ (by simp [CheckKey.of]) hkey) hstep
    · intro source target mode allowUser
      cases htarget' : target.referent? with
      | none =>
        simp only [Program.checkerBelow, Program.checkerStep, htarget']
        exact .throw _
      | some parts' =>
        rw [Program.bindReference_eq htarget', Program.bindReference_eq htarget']
        refine .guarded (s.mem_iff _ ?_ ?_) hconvert.bindReferent <;> simp [CheckKey.of]

end Checker

end Surroundings
end TypeTraits
