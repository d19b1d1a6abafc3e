import TypeTraits.Proofs.Record.SubobjectOrder

/-!
# Completing a class that names its bases in another order

The base subobjects of a class come in the order in which it names its bases, and as often in any
order. So whatever a completion tells of the bases together is the same, and within the limits the
completed classes differ in the order of their bases, in their layout and in nothing that an
initialization looks at.
-/

namespace TypeTraits

namespace Check

variable {α β : Type}

theorem inLimits_map {f : α → β} {c : Check α} {g : Guard CheckKey} :
    (f <$> c).InLimits g ↔ c.InLimits g := by
  rw [← bind_pure_comp, InLimits, InLimits, run_bind]
  rcases c.run g with ⟨_ | a, g'⟩ <;> exact .rfl

/-- Within the limits of both, checks that agree have the same result, or both fail. -/
theorem Agree.toOption_result {c₁ c₂ : Check α} (h : c₁.Agree c₂)
    (h₁ : c₁.InLimits (.fresh .initialization)) (h₂ : c₂.InLimits (.fresh .initialization)) :
    c₁.result.toOption = c₂.result.toOption := by
  obtain ⟨_, r, hallows, htakes⟩ := h.left.takes _ h₁
  obtain ⟨_, s, hallows', htakes'⟩ := h.right.takes _ h₂
  rw [Check.result, Check.result, htakes.run _ (.refl _) hallows, htakes'.run _ (.refl _) hallows']
  exact h.agree htakes htakes'

end Check

namespace Program
namespace ConvertsAlike

variable {p q : Program} {r done : Record} {bases : List BaseClass}
  (h : p.ConvertsAlike q) (hbases : r.bases.Perm bases)

include h

theorem metThrough_iff (base : BaseClass) (t : Ty) : q.MetThrough base t ↔ p.MetThrough base t := by
  rw [MetThrough, MetThrough, h.rebased.isVirtualBaseOf, (h.rebased.allBases base.type).mem_iff]

include hbases

/-- The base subobjects are the same, each as often. -/
theorem baseObjects_perm : (p.baseObjects r).Perm (q.baseObjects (r.withBases bases)) := by
  rw [List.perm_iff_count]
  intro t
  obtain ⟨hmet, hunmet⟩ := p.countedAs_baseObjects r t
  obtain ⟨hmet', hunmet'⟩ := q.countedAs_baseObjects (r.withBases bases) t
  have hcount : bases.countP (fun base => !base.isVirtual && base.type == t) =
      r.bases.countP fun base => !base.isVirtual && base.type == t := hbases.symm.countP_eq _
  have hiff : (∃ base ∈ bases, q.MetThrough base t) ↔ ∃ base ∈ r.bases, p.MetThrough base t := by
    simp only [h.metThrough_iff, hbases.mem_iff]
  by_cases hs : ∃ base ∈ r.bases, p.MetThrough base t
  · rw [hmet hs, hmet' (hiff.mpr hs)]
    exact congrArg (· + 1) hcount.symm
  · rw [hunmet hs, hunmet' (mt hiff.mp hs)]
    exact hcount.symm

theorem any_baseRecords {has : Record → Bool} (hhas : ∀ r s, r.Reordered s → has s = has r) :
    (q.baseRecords (r.withBases bases)).any has = (p.baseRecords r).any has := by
  have hsame : ∀ t, (q.completeRecord? t).any has = (p.completeRecord? t).any has := by
    intro t
    rcases h.reordered.completeRecord?_cases t with ⟨hp, hq⟩ | ⟨b, b', hp, hq, hsame⟩
    · rw [hp, hq]
    · rw [hp, hq, Option.any_some, Option.any_some, hhas b b' hsame]
  have hany : ∀ (p : Program) (bases : List BaseClass),
      (bases.filterMap fun base => p.completeRecord? base.type).any has =
        bases.any fun base => (p.completeRecord? base.type).any has := by
    intro p bases
    rw [List.any_filterMap]
    refine congrArg bases.any (funext fun base => ?_)
    cases p.completeRecord? base.type <;> rfl
  rw [baseRecords, baseRecords, hany, hany, hbases.any_eq]
  simp only [hsame]
  rfl

theorem isPolymorphic_eq : q.isPolymorphic (r.withBases bases) = p.isPolymorphic r := by
  have hany := @any_baseRecords _ _ _ _ h hbases (·.facts.polymorphic) fun _ _ hsame =>
    (congrArg (·.facts.polymorphic) hsame.unbased :)
  rw [isPolymorphic, isPolymorphic, hany]
  rfl

theorem inheritsVirtually_eq :
    q.inheritsVirtually (r.withBases bases) = p.inheritsVirtually r := by
  have hany := @any_baseRecords _ _ _ _ h hbases (·.facts.hasVirtualBases) fun _ _ hsame =>
    (congrArg (·.facts.hasVirtualBases) hsame.unbased :)
  rw [inheritsVirtually, inheritsVirtually, hany, hbases.any_eq]
  rfl

theorem synthesis : (p.synthesis r).Alike (q.synthesis (r.withBases bases)) where
  program := h
  objects := ((h.baseObjects_perm hbases).map _).append_right _
  isUnion := rfl
  dynamic := by
    rw [Program.synthesis, Program.synthesis]
    dsimp only
    rw [h.isPolymorphic_eq hbases, h.inheritsVirtually_eq hbases]

theorem mem_unresolvedPure {name : String} :
    name ∈ q.unresolvedPure (r.withBases bases) ↔ name ∈ p.unresolvedPure r := by
  have hany := @any_baseRecords _ _ _ _ h hbases (fun b => name ∈ b.facts.unresolvedPure)
    fun _ _ hsame => decide_eq_decide.mpr (hsame.unresolvedPure name)
  have hinherits : (∃ b ∈ q.baseRecords (r.withBases bases), name ∈ b.facts.unresolvedPure) ↔
      ∃ b ∈ p.baseRecords r, name ∈ b.facts.unresolvedPure := by
    simpa using Bool.eq_iff_iff.mp hany
  rw [Program.mem_unresolvedPure, Program.mem_unresolvedPure]
  refine or_congr_left ?_
  constructor
  · rintro ⟨b, hb, hname, hdeclared⟩
    obtain ⟨b', hb', hname'⟩ := hinherits.mp ⟨b, hb, hname⟩
    exact ⟨b', hb', hname', hdeclared⟩
  · rintro ⟨b, hb, hname, hdeclared⟩
    obtain ⟨b', hb', hname'⟩ := hinherits.mpr ⟨b, hb, hname⟩
    exact ⟨b', hb', hname', hdeclared⟩

theorem reordered_completed (hdone : done.bases = r.bases) (layout layout' : Layout) :
    (p.completed r done layout).Reordered
      (q.completed (r.withBases bases) (done.withBases bases) layout') := by
  have hbases' : done.bases.Perm bases := hdone ▸ hbases
  have habstract : (q.unresolvedPure (done.withBases bases)).isEmpty =
      (p.unresolvedPure done).isEmpty := by
    rw [Bool.eq_iff_iff, List.isEmpty_iff, List.isEmpty_iff, List.eq_nil_iff_forall_not_mem,
      List.eq_nil_iff_forall_not_mem]
    simp only [h.mem_unresolvedPure hbases']
  refine ⟨hbases', ?_, fun _ => h.mem_unresolvedPure hbases'⟩
  rw [completed, completed, h.isPolymorphic_eq hbases, h.inheritsVirtually_eq hbases]
  simp only [Record.unbased, facts, habstract]
  rfl

omit hbases

/-- The completion defines the same special members. -/
theorem agree_completion {draft : Draft} (hbases : draft.record.bases.Perm bases) :
    ((·.withBases bases) <$> p.completion draft).Agree
      (q.completion (draft.withBases bases)) := by
  have hvirtual := @any_baseRecords _ _ _ _ h hbases (·.facts.virtualDestructor)
    fun _ _ hsame => (congrArg (·.facts.virtualDestructor) hsame.unbased :)
  rw [completion, completion]
  have hagree := (h.synthesis hbases).agree_complete draft bases
    ((p.baseRecords draft.record).any (·.facts.virtualDestructor))
  rw [← hvirtual] at hagree ⊢
  exact hagree

/-- Where no check is denied for the number of steps, the completed records differ in the order of
their bases alone, and in their layout. -/
theorem reordered_completeRecord {draft : Draft} {s : Record}
    (hbases : draft.record.bases.Perm bases)
    (hlimits : (p.completion draft).InLimits (.fresh .initialization))
    (hlimits' : (q.completion (draft.withBases bases)).InLimits (.fresh .initialization))
    (hr : p.completeRecord draft = some r)
    (hs : q.completeRecord (draft.withBases bases) = some s) : r.Reordered s := by
  obtain ⟨done, hdone, heq⟩ := p.completeRecord_eq draft
  obtain ⟨done', hdone', heq'⟩ := q.completeRecord_eq (draft.withBases bases)
  have hsame := (h.agree_completion hbases).toOption_result (Check.inLimits_map.mpr hlimits) hlimits'
  rw [Check.result_map, hdone, hdone'] at hsame
  cases hsame
  obtain ⟨layout, -, rfl⟩ := Option.map_eq_some_iff.mp (heq.symm.trans hr)
  obtain ⟨layout', -, rfl⟩ := Option.map_eq_some_iff.mp (heq'.symm.trans hs)
  have hkept : done.bases = draft.record.bases := by
    obtain ⟨_, _, _, rfl, _⟩ := Synthesis.complete_returns (.of_result hdone)
    rfl
  exact h.reordered_completed hbases hkept layout layout'

end ConvertsAlike
end Program
end TypeTraits
