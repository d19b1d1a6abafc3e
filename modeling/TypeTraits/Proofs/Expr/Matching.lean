import TypeTraits.Proofs.Expr.CandidateOrder

/-!
# Checks that take the same steps to the same

Checks match if within the limits each takes as many steps as the other and comes to the same. Unlike
the results alone, the steps carry over to whatever goes on from the checks, and so composed checks
match if their parts do. Overload resolution matches itself for the candidates in another order.
-/

namespace TypeTraits
namespace Check

variable {α β γ : Type}

/-- Steady checks of which each takes the steps of the other and comes to the same. -/
structure Matches (c₁ c₂ : Check α) : Prop where
  left : c₁.Steady
  right : c₂.Steady
  takes : ∀ g n r, c₁.Takes g n r ↔ c₂.Takes g n r

namespace Matches

variable {c₁ c₂ c₃ : Check α}

theorem of_takes (left : c₁.Steady) (right : c₂.Steady)
    (forth : ∀ g n r, c₁.Takes g n r → c₂.Takes g n r)
    (back : ∀ g n r, c₂.Takes g n r → c₁.Takes g n r) : Matches c₁ c₂ :=
  ⟨left, right, fun g n r => ⟨forth g n r, back g n r⟩⟩

theorem refl {c : Check α} (hc : c.Steady) : Matches c c := ⟨hc, hc, fun _ _ _ => .rfl⟩

theorem symm (h : Matches c₁ c₂) : Matches c₂ c₁ :=
  ⟨h.right, h.left, fun g n r => (h.takes g n r).symm⟩

theorem trans (h : Matches c₁ c₂) (h' : Matches c₂ c₃) : Matches c₁ c₃ :=
  ⟨h.left, h'.right, fun g n r => (h.takes g n r).trans (h'.takes g n r)⟩

theorem ofFormed (r : Formed α) : Matches (.ofFormed r) (.ofFormed r) := refl (.ofFormed r)

/-- What one check takes within the limits, the other runs through as well. -/
theorem run_eq (h : Matches c₁ c₂) {g : Guard CheckKey} (hlimits : c₁.InLimits g) :
    c₂.run g = c₁.run g := by
  obtain ⟨n, r, hallows, htakes⟩ := h.left.takes g hlimits
  rw [htakes.run g (.refl g) hallows, ((h.takes g n r).mp htakes).run g (.refl g) hallows]

section Bind

variable {c₁ : Check α} {c₂ : Check β} {f₁ : α → Check γ} {f₂ : β → Check γ}
  {R : α → β → Prop}

/-- What a sequence takes is taken by one whose first check takes the same steps to what is related,
and whose second check then follows. -/
theorem takes_bind (hc : c₁.Steady) (hf : ∀ a, (f₁ a).Steady)
    (herror : ∀ g n e, c₁.Takes g n (.error e) → c₂.Takes g n (.error e))
    (hok : ∀ g n a, c₁.Takes g n (.ok a) → ∃ b, c₂.Takes g n (.ok b) ∧ R a b)
    (hrest : ∀ a b, R a b → ∀ g n r, (f₁ a).Takes g n r → (f₂ b).Takes g n r)
    {g : Guard CheckKey} {n : Nat} {r : Formed γ} (h : (c₁ >>= f₁).Takes g n r) :
    (c₂ >>= f₂).Takes g n r := by
  obtain ⟨m, s, _, hm, hnext⟩ := Steady.takes_of_bind hc hf h.inLimits_uncounted
  replace hm := hm.level g.level_uncounted.symm
  cases s with
  | error e =>
    obtain ⟨rfl, rfl⟩ := h.unique hm.bind_error
    exact (herror _ _ _ hm).bind_error
  | ok a =>
    obtain ⟨k, t, hallows, hk⟩ := hnext a rfl
    replace hk := hk.level g.level_uncounted.symm
    obtain ⟨rfl, rfl⟩ := h.unique (hm.bind hk hallows.steps_le)
    obtain ⟨b, hb, hrelated⟩ := hok _ _ _ hm
    exact hb.bind (hrest a b hrelated _ _ _ hk) hallows.steps_le

end Bind

theorem bind {f₁ f₂ : α → Check β} (hc : Matches c₁ c₂) (hf : ∀ a, Matches (f₁ a) (f₂ a)) :
    Matches (c₁ >>= f₁) (c₂ >>= f₂) := by
  have hforth : ∀ {c₁ c₂ : Check α} {f₁ f₂ : α → Check β}, Matches c₁ c₂ →
      (∀ a, Matches (f₁ a) (f₂ a)) → ∀ g n r, (c₁ >>= f₁).Takes g n r →
        (c₂ >>= f₂).Takes g n r := by
    intro c₁ c₂ f₁ f₂ hc hf g n r
    refine takes_bind (R := Eq) hc.left (fun a => (hf a).left) ?_ ?_ ?_
    · exact fun g n e => (hc.takes g n _).mp
    · exact fun g n a h => ⟨a, (hc.takes g n _).mp h, rfl⟩
    · rintro a _ rfl g n r
      exact ((hf a).takes g n r).mp
  refine of_takes (hc.left.bind fun a => (hf a).left) (hc.right.bind fun a => (hf a).right)
    (hforth hc hf) (hforth hc.symm fun a => (hf a).symm)

theorem attempt (hc : Matches c₁ c₂) : Matches (Check.attempt c₁) (Check.attempt c₂) := by
  have hforth : ∀ {c₁ c₂ : Check α}, Matches c₁ c₂ → ∀ g n r, (Check.attempt c₁).Takes g n r →
      (Check.attempt c₂).Takes g n r := by
    intro c₁ c₂ hc g n r h
    obtain ⟨m, s, hm, rfl⟩ := h.of_attempt hc.left
    obtain ⟨rfl, -⟩ := h.unique hm.attempt
    exact ((hc.takes g _ s).mp hm).attempt
  exact of_takes hc.left.attempt hc.right.attempt (hforth hc) (hforth hc.symm)

theorem guarded (key : CheckKey) (hc : Matches c₁ c₂) :
    Matches (Check.guarded key c₁) (Check.guarded key c₂) := by
  have hforth : ∀ {c₁ c₂ : Check α}, Matches c₁ c₂ → ∀ g n r, (Check.guarded key c₁).Takes g n r →
      (Check.guarded key c₂).Takes g n r := by
    intro c₁ c₂ hc g n r h
    rcases h.of_guarded hc.left with ⟨⟨m, hm⟩, hroom⟩ | ⟨rfl, hroom⟩
    · obtain ⟨k, s, hallows, hk⟩ :=
        Steady.takes_of_guarded hc.left h.inLimits_uncounted hroom
      replace hk := hk.level (g.level_uncounted.symm.entered key)
      obtain ⟨rfl, rfl⟩ := h.unique (hk.guarded hroom hallows.steps_le)
      exact ((hc.takes _ k _).mp hk).guarded hroom hallows.steps_le
    · have hstep : g.uncounted.Allows 1 :=
        Nat.le_trans (keeps_guarded hc.left.keeps g.uncounted).iterations_le h.inLimits_uncounted
      obtain ⟨rfl, -⟩ := h.unique (.denied hroom hstep.steps_le)
      exact .denied hroom hstep.steps_le
  exact of_takes (hc.left.guarded key) (hc.right.guarded key) (hforth hc) (hforth hc.symm)

theorem isCompositional : IsCompositional fun _ c₁ c₂ => Matches c₁ c₂ where
  ofFormed := ofFormed
  bind := bind
  attempt := attempt

/-- What goes on from the checks of a list goes on alike from those of the list in another order, if
these always succeed. -/
theorem filterMapM_bind {f : α → Check (Option β)} {l l' : List α} {k : List β → Check γ}
    (hf : ∀ a, (f a).Steady) (htotal : ∀ a, (f a).Total) (hk : ∀ bs, (k bs).Steady)
    (hperm : l.Perm l')
    (hrest : ∀ bs bs', bs.Perm bs' → (∀ b ∈ bs, ∃ a ∈ l, (f a).Returns (some b)) →
      Matches (k bs) (k bs')) : Matches (l.filterMapM f >>= k) (l'.filterMapM f >>= k) := by
  have hsteady : ∀ l : List α, (l.filterMapM f).Steady := fun l =>
    (Steady.isInherited.isCompositional.filterMapM fun a (_ : a ∈ l) => ⟨rfl, hf a⟩).2
  have hforth : ∀ {l l' : List α}, l.Perm l' →
      (∀ bs bs', bs.Perm bs' → (∀ b ∈ bs, ∃ a ∈ l, (f a).Returns (some b)) →
        Matches (k bs) (k bs')) →
      ∀ g n r, (l.filterMapM f >>= k).Takes g n r → (l'.filterMapM f >>= k).Takes g n r := by
    intro l l' hperm hrest g n r
    refine takes_bind
      (R := fun bs bs' => bs.Perm bs' ∧ ∀ b ∈ bs, ∃ a ∈ l, (f a).Returns (some b))
      (hsteady l) hk ?_ ?_ ?_
    · intro g n e h
      obtain ⟨a, ha⟩ := total_filterMapM htotal l g.uncounted
      rw [h.run_uncounted] at ha
      cases ha
    · intro g n bs h
      obtain ⟨m, bs₁, bs', _, h₁, h', hbs⟩ := filterMapM_perm hf htotal hperm h.inLimits_uncounted
      obtain ⟨rfl, heq⟩ := h.unique (h₁.level g.level_uncounted.symm)
      cases heq
      exact ⟨bs', h'.level g.level_uncounted.symm, hbs, fun b hb => h.returns.filterMapM b hb⟩
    · rintro bs bs' ⟨hbs, hreturns⟩ g n r
      exact ((hrest bs bs' hbs hreturns).takes g n r).mp
  refine of_takes ((hsteady l).bind hk) ((hsteady l').bind hk) (hforth hperm hrest)
    (hforth hperm.symm ?_)
  intro bs bs' hbs hreturns
  refine (hrest bs' bs hbs.symm fun b hb => ?_).symm
  obtain ⟨a, ha, hreturn⟩ := hreturns b (hbs.mem_iff.mpr hb)
  exact ⟨a, hperm.mem_iff.mpr ha, hreturn⟩

end Matches
end Check

namespace Program

variable {p : Program} {convert : ConvertArgument}
  (hconvert : ∀ source target mode allowUser, (convert source target mode allowUser).Steady)

include hconvert

theorem steady_viableConversions (object : Option Expr) (args : List Expr) (allowUser : Bool)
    (c : Candidate) : (p.viableConversions convert object args allowUser c).Steady :=
  (Check.Steady.isInherited.isCompositional.viableConversions
    (fun _ _ _ _ (_ : True) => ⟨rfl, hconvert ..⟩) object (fun _ _ => trivial) c).2

/-- Overload resolution matches itself for the candidates in another order. -/
theorem matches_resolve {candidates candidates' : List Candidate}
    (hperm : candidates.Perm candidates') (htie : ∀ c ∈ candidates, c.HasOneTieBreaker)
    (object : Option Expr) (args : List Expr) (allowUser : Bool) :
    (p.resolve convert candidates object args allowUser).Matches
      (p.resolve convert candidates' object args allowUser) := by
  rw [resolve_eq_selectBest, resolve_eq_selectBest]
  refine .filterMapM_bind ?_ ?_ (fun _ => .ofFormed _) hperm ?_
  · exact fun c => (steady_viableConversions hconvert object args allowUser c).bind fun _ => .pure _
  · exact fun c => (total_viableConversions c).bind fun _ => Check.total_pure _
  · intro viable viable' hviable hreturns
    have htie' : ∀ c ∈ viable, c.1.HasOneTieBreaker := by
      intro c hc
      obtain ⟨candidate, hmem, hreturn⟩ := hreturns c hc
      obtain ⟨conversions, -, hreturn⟩ := hreturn.bind
      rw [Check.returns_pure] at hreturn
      obtain ⟨_, -, rfl⟩ := Option.map_eq_some_iff.mp hreturn
      exact htie _ hmem
    rw [selectBest_perm htie' hviable]
    exact .ofFormed _

end Program
end TypeTraits
