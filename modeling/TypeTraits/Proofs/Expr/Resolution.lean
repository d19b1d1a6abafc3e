import TypeTraits.Expr.UserDefined
import TypeTraits.Proofs.Expr.Returns

/-!
# What overload resolution returns

A selection is one of the candidates, viable with conversions that it was selected with. A
conversion of a viable candidate binds the object, matches an ellipsis, or converts one argument
to one parameter. A user-defined conversion is such a selection among converting constructors and
conversion functions that complete records declare.
-/

namespace TypeTraits

theorem Record.mem_candidates {r : Record} {set : FunctionSet} {mode : InitMode}
    {object : Option Ty} {c : Candidate} (h : c ∈ r.candidates set mode object) :
    c.function ∈ r.functions set ∧ c.result = none ∧ c.object = object ∧ c.id.set = set ∧
      c.function.hidden = false ∧ (mode = .copy → c.function.explicit = false) := by
  obtain ⟨⟨f, i⟩, hmem, hc⟩ := List.mem_filterMap.mp h
  by_cases hskip : (f.hidden || (mode == .copy && f.explicit)) = true
  · simp [hskip] at hc
  · dsimp only at hc
    rw [if_neg hskip] at hc
    cases hc
    simp only [Bool.or_eq_true, Bool.and_eq_true, not_or, not_and, Bool.not_eq_true] at hskip
    refine ⟨List.fst_mem_of_mem_zipIdx hmem, rfl, rfl, rfl, hskip.1, ?_⟩
    rintro rfl
    exact hskip.2 rfl

namespace Candidate

/-- The effects of calling a candidate with its conversions. -/
def callEffects (c : Candidate) (conversions : List (Option Conversion)) : Effects :=
  let arguments := (conversions.filterMap fun c => c).foldl
    (fun e conversion => e.and conversion.effects) ⟨c.function.noexcept, c.function.trivial⟩
  match c.result with
  | some r => arguments.and r.effects
  | none => arguments

theorem select_eq_ok_iff {c : Candidate} {conversions : List (Option Conversion)}
    {s : Selection} :
    c.select conversions = .ok s ↔
      c.function.deleted = false ∧ c.function.access = .pub ∧
        s = ⟨c, c.callEffects conversions⟩ := by
  unfold select callEffects
  by_cases hd : c.function.deleted = true
  · simp [hd]
  · by_cases ha : c.function.access = .pub
    · cases c.result <;> simp [hd, ha, eq_comm]
    · simp [hd, ha]

theorem best?_mem {viable : List (Candidate × List (Option Conversion))}
    {best : Candidate × List (Option Conversion)} (h : best? viable = some best) :
    best ∈ viable := by
  unfold best? at h
  obtain ⟨⟨a, i⟩, hfind, rfl⟩ := Option.map_eq_some_iff.mp h
  exact List.fst_mem_of_mem_zipIdx (List.mem_of_find?_eq_some hfind)

end Candidate

namespace Program

variable {p : Program} {convert : ConvertArgument} {object : Option Expr} {args : List Expr}
  {allowUser : Bool}

theorem argumentConversions_returns {params : List Ty} {conversions : List (Option Conversion)}
    (h : (argumentConversions convert allowUser args params).Returns (some conversions)) :
    ∀ c, some c ∈ conversions → c = .ellipsis ∨
      ∃ arg ∈ args, ∃ param ∈ params, (convert arg param .copy allowUser).Returns c := by
  induction args generalizing params conversions with
  | nil =>
    rw [argumentConversions] at h
    simp_all
  | cons arg args ih =>
    cases params with
    | nil =>
      rw [argumentConversions] at h
      split at h
      · simp at h
      · obtain ⟨rest, hrest, h⟩ := h.bind
        rw [Check.returns_pure] at h
        obtain ⟨tail, rfl, rfl⟩ := Option.map_eq_some_iff.mp h
        intro c hc
        rcases List.mem_cons.mp hc with hc | hc
        · exact Or.inl (Option.some.inj hc)
        · rcases ih hrest c hc with hc | ⟨a, ha, q, hq, _⟩
          · exact Or.inl hc
          · simp at hq
    | cons param params =>
      rw [argumentConversions] at h
      obtain ⟨first, hfirst, h⟩ := h.bind
      cases first with
      | none => simp at h
      | some c₀ =>
        obtain ⟨rest, hrest, h⟩ := h.bind
        rw [Check.returns_pure] at h
        obtain ⟨tail, rfl, rfl⟩ := Option.map_eq_some_iff.mp h
        intro c hc
        rcases List.mem_cons.mp hc with hc | hc
        · cases hc
          exact Or.inr ⟨arg, by simp, param, by simp, hfirst.attempt⟩
        · rcases ih hrest c hc with hc | ⟨a, ha, q, hq, hconv⟩
          · exact Or.inl hc
          · exact Or.inr ⟨a, by simp [ha], q, by simp [hq], hconv⟩

theorem viableConversions_returns {c : Candidate} {conversions : List (Option Conversion)}
    (h : (p.viableConversions convert object args allowUser c).Returns (some conversions)) :
    ∀ conversion, some conversion ∈ conversions →
      (∃ o cls, object = some o ∧ c.object = some cls ∧
        p.objectConversion o cls c.function = some conversion) ∨
      conversion = .ellipsis ∨
      ∃ arg ∈ args, ∃ param ∈ c.function.params,
        (convert arg param .copy allowUser).Returns conversion := by
  have hbound : ∀ conversion,
      (do p.objectConversion (← object) (← c.object) c.function) = some conversion →
      ∃ o cls, object = some o ∧ c.object = some cls ∧
        p.objectConversion o cls c.function = some conversion := by
    intro conversion hc
    obtain ⟨o, ho, hc⟩ := Option.bind_eq_some_iff.mp hc
    obtain ⟨cls, hcls, hc⟩ := Option.bind_eq_some_iff.mp hc
    exact ⟨o, cls, ho, hcls, hc⟩
  intro conversion hmem
  simp only [viableConversions] at h
  split at h
  · rw [Check.returns_pure] at h
    obtain ⟨bound, hb, rfl⟩ := Option.map_eq_some_iff.mp h
    simp only [List.mem_cons, reduceCtorEq, Option.some.injEq, List.not_mem_nil, or_false,
      false_or] at hmem
    subst hmem
    exact Or.inl (hbound _ hb)
  · split at h
    · simp at h
    · split at h
      · simp at h
      · obtain ⟨rest, hrest, h⟩ := h.bind
        rw [Check.returns_pure] at h
        obtain ⟨tail, rfl, rfl⟩ := Option.map_eq_some_iff.mp h
        rcases List.mem_cons.mp hmem with hmem | hmem
        · exact Or.inl (hbound _ hmem.symm)
        · exact Or.inr (argumentConversions_returns hrest conversion hmem)

/-- Every argument of a viable function that has a parameter for it converts to the parameter. -/
theorem argumentConversions_converts {params : List Ty} {conversions : List (Option Conversion)}
    (h : (argumentConversions convert allowUser args params).Returns (some conversions)) :
    ∀ pair ∈ args.zip params, ∃ c, (convert pair.1 pair.2 .copy allowUser).Returns c := by
  induction args generalizing params conversions with
  | nil => simp
  | cons arg args ih =>
    cases params with
    | nil => simp
    | cons param params =>
      rw [argumentConversions] at h
      obtain ⟨first, hfirst, h⟩ := h.bind
      cases first with
      | none => simp at h
      | some c =>
        obtain ⟨rest, hrest, h⟩ := h.bind
        rw [Check.returns_pure] at h
        obtain ⟨tail, rfl, _⟩ := Option.map_eq_some_iff.mp h
        intro pair hpair
        rcases List.mem_cons.mp hpair with rfl | hpair
        · exact ⟨c, hfirst.attempt⟩
        · exact ih hrest pair hpair

theorem viableConversions_converts {c : Candidate} {conversions : List (Option Conversion)}
    (hset : c.id.set ≠ .conversion)
    (h : (p.viableConversions convert object args allowUser c).Returns (some conversions)) :
    ∀ pair ∈ args.zip c.function.params,
      ∃ conversion, (convert pair.1 pair.2 .copy allowUser).Returns conversion := by
  simp only [viableConversions, if_neg hset] at h
  split at h
  · simp at h
  · split at h
    · simp at h
    · obtain ⟨rest, hrest, h⟩ := h.bind
      rw [Check.returns_pure] at h
      obtain ⟨tail, rfl, _⟩ := Option.map_eq_some_iff.mp h
      exact argumentConversions_converts hrest

/-- A resolution returns the selection of one of its candidates with the conversions that make it
viable. -/
theorem resolve_returns {candidates : List Candidate} {s : Selection}
    (h : (p.resolve convert candidates object args allowUser).Returns s) :
    ∃ c ∈ candidates, ∃ conversions,
      (p.viableConversions convert object args allowUser c).Returns (some conversions) ∧
        c.select conversions = .ok s := by
  unfold resolve at h
  obtain ⟨viable, hviable, h⟩ := h.bind
  by_cases hempty : viable.isEmpty = true
  · simp [hempty] at h
  · rw [if_neg hempty] at h
    rcases hbest : Candidate.best? viable with _ | ⟨c, conversions⟩ <;> rw [hbest] at h
    · simp at h
    · replace h : c.select conversions = .ok s := by simpa using h
      obtain ⟨c', hc', hc⟩ := hviable.filterMapM _ (Candidate.best?_mem hbest)
      obtain ⟨found, hfound, hc⟩ := hc.bind
      rw [Check.returns_pure] at hc
      obtain ⟨conversions', rfl, hpair⟩ := Option.map_eq_some_iff.mp hc
      cases hpair
      exact ⟨c, hc', conversions, hfound, h⟩

/-- A fold that keeps the first element of each key keeps elements only. -/
theorem mem_foldl_firsts {α κ β : Type} [∀ (k : κ) (seen : List κ), Decidable (k ∈ seen)]
    (key : α → κ) (value : α → β) (l : List α) (b : β)
    (h : b ∈ (l.foldl (fun (seen, out) a =>
      if key a ∈ seen then (seen, out) else (key a :: seen, value a :: out))
      (([], []) : List κ × List β)).2) :
    ∃ a ∈ l, value a = b := by
  have hfold : ∀ start : List κ × List β, b ∈ (l.foldl (fun (seen, out) a =>
      if key a ∈ seen then (seen, out) else (key a :: seen, value a :: out)) start).2 →
      b ∈ start.2 ∨ ∃ a ∈ l, value a = b := by
    clear h
    induction l with
    | nil => exact fun _ h => Or.inl h
    | cons a l ih =>
      intro start h
      rcases ih _ h with hstart | ⟨a', ha', hb⟩
      · dsimp only at hstart
        by_cases hseen : key a ∈ start.1
        · rw [if_pos hseen] at hstart
          exact Or.inl hstart
        · rw [if_neg hseen] at hstart
          rcases List.mem_cons.mp hstart with rfl | hstart
          · exact Or.inr ⟨a, List.mem_cons_self, rfl⟩
          · exact Or.inl hstart
      · exact Or.inr ⟨a', List.mem_cons_of_mem _ ha', hb⟩
  simpa using hfold ([], []) h

theorem mem_conversionOwners {source : Ty} {owner : Ty × Record}
    (h : owner ∈ p.conversionOwners source) : ∃ t, p.completeRecord? t = some owner.2 := by
  simp only [conversionOwners] at h
  split at h
  · simp at h
  · rename_i r hr
    rcases List.mem_cons.mp h with rfl | h
    · exact ⟨_, hr⟩
    · obtain ⟨base, _, hbase⟩ := List.mem_filterMap.mp h
      obtain ⟨b, hb, rfl⟩ := Option.map_eq_some_iff.mp hbase
      exact ⟨base, hb⟩

theorem mem_visibleConversions {mode : InitMode} {owners : List (Ty × Record)} {c : Candidate}
    (h : c ∈ visibleConversions mode owners) :
    ∃ owner ∈ owners, c ∈ owner.2.candidates .conversion mode (some owner.1) := by
  rw [visibleConversions, List.mem_reverse] at h
  obtain ⟨_, hc, rfl⟩ := mem_foldl_firsts
    (fun c : Candidate => (c.function.result, c.function.cv, c.function.ref)) id _ _ h
  exact List.mem_flatMap.mp hc

theorem conversionCandidates_returns {owners : List (Ty × Record)} {mode : InitMode}
    {accept : FunctionDecl → Check (Option Conversion)} {candidates : List Candidate}
    (h : (conversionCandidates owners mode accept).Returns candidates) :
    ∀ c ∈ candidates, ∃ visible ∈ visibleConversions mode owners, ∃ result,
      (accept visible.function).Returns (some result) ∧
        c = { visible with result := some result } := by
  intro c hc
  obtain ⟨visible, hvisible, hc⟩ := h.filterMapM c hc
  obtain ⟨found, hfound, hc⟩ := hc.bind
  rw [Check.returns_pure] at hc
  obtain ⟨result, rfl, rfl⟩ := Option.map_eq_some_iff.mp hc
  exact ⟨visible, hvisible, result, hfound, rfl⟩

theorem userDefinedConversion_returns {candidates : List Candidate} {source : Expr}
    {c : Conversion} (h : (p.userDefinedConversion convert candidates source).Returns c) :
    ∃ s, (p.resolve convert candidates (some source) [source] false).Returns s ∧
      c = .userDefined s.candidate.id (s.candidate.result.getD .identity) s.effects := by
  obtain ⟨s, hs, h⟩ := h.bind
  rw [Check.returns_pure] at h
  exact ⟨s, hs, h.symm⟩

/-- A conversion to a class that is the source's or a base of it copies the source, unless that is
a prvalue of the class; any other is the conversion `unrelated`. -/
theorem relatedConversion_returns {unrelated : Record → Check Conversion} {source : Expr}
    {target : Ty} {mode : InitMode} {c : Conversion}
    (h : (p.relatedConversion convert unrelated source target mode).Returns c) :
    ∃ r, p.completeRecord? target.unqualified = some r ∧
      ((source.type.unqualified = target.unqualified ∨
          p.isBaseOf target.unqualified source.type.unqualified = true) ∧
        (c = .identity ∨ ∃ distance s,
          (p.resolve convert (r.candidates .constructor mode none) none [source] false).Returns s ∧
          c = { Conversion.derivedToBase distance with effects := s.effects }) ∨
      ¬(source.type.unqualified = target.unqualified ∨
          p.isBaseOf target.unqualified source.type.unqualified = true) ∧
        (unrelated r).Returns c) := by
  simp only [relatedConversion] at h
  split at h
  · simp at h
  · rename_i r hr
    refine ⟨r, hr, ?_⟩
    by_cases habstract : r.facts.abstract = true
    · simp [habstract] at h
    · simp only [if_neg habstract, Bool.or_eq_true, decide_eq_true_eq] at h
      by_cases hrelated : source.type.unqualified = target.unqualified ∨
          p.isBaseOf target.unqualified source.type.unqualified = true
      · refine Or.inl ⟨hrelated, ?_⟩
        rw [if_pos hrelated] at h
        split at h
        · rename_i distance _
          split at h
          · exact Or.inl (Check.returns_pure.mp h).symm
          · obtain ⟨s, hs, h⟩ := h.bind
            exact Or.inr ⟨distance, s, hs, (Check.returns_pure.mp h).symm⟩
        · rename_i failed hfailed
          rw [Check.returns_ofFormed] at h
          cases hc : p.baseConversion source.type.unqualified target.unqualified with
          | reachable distance => exact absurd hc (hfailed distance)
          | _ => simp [hc, BaseConversion.sequence?] at h
      · refine Or.inr ⟨hrelated, ?_⟩
        rwa [if_neg hrelated] at h

end Program
end TypeTraits
