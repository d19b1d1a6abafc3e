import TypeTraits.Expr.Basic

/-!
# What a check may return

A check starts from the guard that earlier checks left. What it returns from some guard is what is
left once depth, cycles and numbers of steps are forgotten. Every result of a composed check comes
from results of its parts, so a property of all results is proved part by part and no guard is
looked at.
-/

namespace TypeTraits
namespace Check

variable {α β : Type}

theorem run_bind (c : Check α) (f : α → Check β) (g : Guard CheckKey) :
    (c >>= f).run g =
      match c.run g with
      | (.ok a, g') => (f a).run g'
      | (.error e, g') => (.error e, g') := by
  change (ExceptT.run (c >>= f)).run g = _
  rw [ExceptT.run_bind, StateT.run_bind]
  change (c.run g >>= _ : Id _) = _
  rcases c.run g with ⟨_ | _, _⟩ <;> rfl

theorem run_bind_of_ok {c : Check α} {f : α → Check β} {g : Guard CheckKey} {a : α}
    (h : (c.run g).1 = .ok a) : (c >>= f).run g = (f a).run (c.run g).2 := by
  rw [run_bind]
  rcases hc : c.run g with ⟨_ | b, g'⟩ <;> rw [hc] at h <;> cases h
  rfl

theorem run_bind_pure (c : Check α) (f : α → β) (g : Guard CheckKey) :
    (c >>= fun a => pure (f a)).run g = ((c.run g).1.map f, (c.run g).2) := by
  rw [run_bind]
  rcases c.run g with ⟨_ | _, _⟩ <;> rfl

@[simp] theorem run_pure (a : α) (g : Guard CheckKey) :
    (pure a : Check α).run g = (.ok a, g) := rfl

@[simp] theorem run_throw (e : Inapplicable) (g : Guard CheckKey) :
    (throw e : Check α).run g = (.error e, g) := rfl

@[simp] theorem run_ofFormed (r : Formed α) (g : Guard CheckKey) :
    (ofFormed r).run g = (r, g) := rfl

theorem run_attempt (c : Check α) (g : Guard CheckKey) :
    (attempt c).run g = (.ok (c.run g).1.toOption, (c.run g).2) := by
  unfold attempt
  rw [ExceptT.run_mk]
  change StateT.run (_ >>= _) g = _
  rw [StateT.run_bind]
  change (c.run g >>= _ : Id _) = _
  rcases c.run g with ⟨_ | _, _⟩ <;> rfl

theorem run_guarded (key : CheckKey) (body : Check α) (g : Guard CheckKey) :
    (guarded key body).run g =
      match g.enter key with
      | (some _, g') => (.error .recursionLimit, g')
      | (none, g') => ((body.run g').1, (body.run g').2.leave key) := by
  unfold guarded
  rw [ExceptT.run_mk]
  change StateT.run (_ >>= _) g = _
  rw [StateT.run_bind]
  change (Guard.scope key body.run g >>= _ : Id _) = _
  unfold Guard.scope
  rcases g.enter key with ⟨_ | _, _⟩ <;> rfl

/-- The check returns `a` from some guard. -/
def Returns (c : Check α) (a : α) : Prop :=
  ∃ g, (c.run g).1 = .ok a

theorem exists_guard {q : Prop} : (∃ _ : Guard CheckKey, q) ↔ q :=
  ⟨fun ⟨_, h⟩ => h, fun h => ⟨.fresh .initialization, h⟩⟩

@[simp] theorem returns_pure {a b : α} : (pure a : Check α).Returns b ↔ a = b := by
  simp [Returns, exists_guard]

@[simp] theorem returns_throw {e : Inapplicable} {a : α} :
    (throw e : Check α).Returns a ↔ False := by
  simp [Returns]

@[simp] theorem returns_ofFormed {r : Formed α} {a : α} : (ofFormed r).Returns a ↔ r = .ok a := by
  simp [Returns, exists_guard]

theorem Returns.bind {c : Check α} {f : α → Check β} {b : β} (h : (c >>= f).Returns b) :
    ∃ a, c.Returns a ∧ (f a).Returns b := by
  obtain ⟨g, h⟩ := h
  rw [run_bind] at h
  rcases hc : c.run g with ⟨_ | a, g₁⟩ <;> rw [hc] at h
  · simp at h
  · exact ⟨a, ⟨g, by rw [hc]⟩, g₁, h⟩

theorem Returns.attempt {c : Check α} {a : α} (h : (attempt c).Returns (some a)) :
    c.Returns a := by
  obtain ⟨g, h⟩ := h
  rw [run_attempt] at h
  refine ⟨g, ?_⟩
  rcases hc : c.run g with ⟨_ | b, g₁⟩ <;> rw [hc] at h <;> simp [Except.toOption] at h
  simp [h]

theorem Returns.guarded {key : CheckKey} {body : Check α} {a : α}
    (h : (guarded key body).Returns a) : body.Returns a := by
  obtain ⟨g, h⟩ := h
  rw [run_guarded] at h
  rcases he : g.enter key with ⟨_ | _, g₁⟩ <;> rw [he] at h
  · exact ⟨g₁, h⟩
  · simp at h

theorem Returns.of_result {c : Check α} {a : α} (h : c.result = .ok a) : c.Returns a :=
  ⟨_, h⟩

theorem Returns.filterMapM {f : α → Check (Option β)} {l : List α} {out : List β}
    (h : (l.filterMapM f).Returns out) : ∀ b ∈ out, ∃ a ∈ l, (f a).Returns (some b) := by
  induction l generalizing out with
  | nil => simp_all
  | cons a l ih =>
    rw [List.filterMapM_cons] at h
    obtain ⟨o, ho, h⟩ := h.bind
    cases o with
    | none =>
      intro b hb
      obtain ⟨a', ha', hf⟩ := ih h b hb
      exact ⟨a', List.mem_cons_of_mem _ ha', hf⟩
    | some b₀ =>
      obtain ⟨rest, hrest, h⟩ := h.bind
      rw [returns_pure] at h
      subst h
      intro b hb
      rcases List.mem_cons.mp hb with rfl | hb
      · exact ⟨a, List.mem_cons_self, ho⟩
      · obtain ⟨a', ha', hf⟩ := ih hrest b hb
        exact ⟨a', List.mem_cons_of_mem _ ha', hf⟩

theorem Returns.mapM {f : α → Check β} {l : List α} {out : List β}
    (h : (l.mapM f).Returns out) : ∀ b ∈ out, ∃ a ∈ l, (f a).Returns b := by
  induction l generalizing out with
  | nil => simp_all
  | cons a l ih =>
    rw [List.mapM_cons] at h
    obtain ⟨b₀, hb₀, h⟩ := h.bind
    obtain ⟨rest, hrest, h⟩ := h.bind
    rw [returns_pure] at h
    subst h
    intro b hb
    rcases List.mem_cons.mp hb with rfl | hb
    · exact ⟨a, List.mem_cons_self, hb₀⟩
    · obtain ⟨a', ha', hf⟩ := ih hrest b hb
      exact ⟨a', List.mem_cons_of_mem _ ha', hf⟩

/-- A part of a check may differ on what the part before it does not return. -/
theorem bind_congr_of_returns {c : Check α} {f g : α → Check β} (h : ∀ a, c.Returns a → f a = g a) :
    c >>= f = c >>= g := by
  refine ExceptT.ext (funext fun guard => ?_)
  rw [run_bind, run_bind]
  rcases hc : c.run guard with ⟨_ | a, guard'⟩
  · rfl
  · exact congrArg (·.run guard') (h a ⟨guard, by rw [hc]⟩)

theorem filterMapM_congr {f g : α → Check (Option β)} {l : List α} (h : ∀ a ∈ l, f a = g a) :
    l.filterMapM f = l.filterMapM g := by
  induction l with
  | nil => rfl
  | cons a l ih =>
    obtain ⟨ha, hl⟩ := List.forall_mem_cons.mp h
    rw [List.filterMapM_cons, List.filterMapM_cons, ha, ih hl]

/-- The first part of a check runs from the guard that the check starts from. -/
theorem result_bind {c : Check α} {f : α → Check β} {b : β} (h : (c >>= f).result = .ok b) :
    ∃ a, c.result = .ok a ∧ (f a).Returns b := by
  unfold result at h ⊢
  rw [run_bind] at h
  rcases hc : c.run (.fresh .initialization) with ⟨_ | a, g⟩ <;> rw [hc] at h
  · simp at h
  · exact ⟨a, rfl, g, h⟩

theorem filterMapM_eq_pure {f : α → Check (Option β)} {g : α → Option β}
    {l : List α} (h : ∀ a ∈ l, f a = pure (g a)) : l.filterMapM f = pure (l.filterMap g) := by
  induction l with
  | nil => rfl
  | cons a l ih =>
    obtain ⟨ha, hl⟩ := List.forall_mem_cons.mp h
    rw [List.filterMapM_cons, ha, pure_bind, ih hl, List.filterMap_cons]
    cases g a <;> simp

theorem result_map (f : α → β) (c : Check α) : (f <$> c).result = c.result.map f := by
  rw [map_eq_pure_bind]
  unfold result
  rw [run_bind_pure]

/-- The check succeeds, whatever guard it starts from. -/
def Total (c : Check α) : Prop := ∀ g, ∃ a, (c.run g).1 = .ok a

theorem Total.result {c : Check α} (h : c.Total) : ∃ a, c.result = .ok a := h _

theorem total_pure (a : α) : (pure a : Check α).Total := fun _ => ⟨a, rfl⟩

theorem total_attempt (c : Check α) : (attempt c).Total := by
  intro g
  exact ⟨_, by rw [run_attempt]⟩

theorem Total.bind {c : Check α} {f : α → Check β} (hc : c.Total) (hf : ∀ a, (f a).Total) :
    (c >>= f).Total := by
  intro g
  obtain ⟨a, ha⟩ := hc g
  rw [run_bind_of_ok ha]
  exact hf a _

end Check
end TypeTraits
