import TypeTraits.Proofs.Program.CompletionOrder
import TypeTraits.Proofs.Program.EarlierStates
import TypeTraits.Proofs.Record.Reordered

/-!
# The same actions with base specifiers in another order

Class bodies are written with the same base specifiers in two orders, and the same actions follow.
As long as the same records are complete after both, no check of a completion is denied for the
number of steps, and functions are hidden only by rank, the two programs go in step: each record
differs from its counterpart in the order of its bases and in its layout.
-/

namespace TypeTraits

namespace RecordStep

/-- The base that a step names in a class that is declared with the keyword. -/
def specifier? (key : ClassKey) : RecordStep → Option BaseClass
  | .base t => some ⟨t, key.defaultAccess, false⟩
  | .baseWith t access isVirtual => some ⟨t, access, isVirtual⟩
  | .virtualBase t => some ⟨t, key.defaultAccess, true⟩
  | _ => none

def namesBase : RecordStep → Bool
  | .base _ | .baseWith .. | .virtualBase _ => true
  | _ => false

/-- Class bodies that are the same but for the order of the base specifiers. -/
structure SameSpecifiers (steps steps' : List RecordStep) : Prop where
  specifiers : (steps.filter namesBase).Perm (steps'.filter namesBase)
  others : steps'.filter (!·.namesBase) = steps.filter (!·.namesBase)

theorem specifier?_of_not_namesBase {step : RecordStep} (key : ClassKey)
    (h : step.namesBase = false) : step.specifier? key = none := by
  cases step <;> first | rfl | cases h

theorem exists_specifier? {step : RecordStep} (key : ClassKey) (h : step.namesBase = true) :
    ∃ base, step.specifier? key = some base := by
  cases step <;> first | exact ⟨_, rfl⟩ | cases h

theorem SameSpecifiers.mem_iff {steps steps' : List RecordStep} (h : SameSpecifiers steps steps')
    {step : RecordStep} : step ∈ steps' ↔ step ∈ steps := by
  have hspecifiers := h.specifiers.mem_iff (a := step)
  have hothers : step ∈ steps'.filter (!·.namesBase) ↔ step ∈ steps.filter (!·.namesBase) := by
    rw [h.others]
  simp only [List.mem_filter] at hspecifiers hothers
  cases hnames : step.namesBase <;> simp_all

end RecordStep

namespace Draft

variable {draft : Draft} {step : RecordStep}

theorem apply_withBases (h : step.namesBase = false) (bases : List BaseClass) :
    (draft.withBases bases).apply step = (draft.apply step).withBases bases := by
  cases step <;> first | rfl | cases h

theorem apply_of_specifier? {base : BaseClass} (h : step.specifier? draft.record.key = some base) :
    draft.apply step = draft.withBases (draft.record.bases ++ [base]) := by
  cases step <;> cases h <;> rfl

theorem applyAll_withBases {steps : List RecordStep} (h : ∀ step ∈ steps, step.namesBase = false)
    (draft : Draft) (bases : List BaseClass) :
    (draft.withBases bases).applyAll steps = (draft.applyAll steps).withBases bases := by
  induction steps generalizing draft with
  | nil => rfl
  | cons step rest ih =>
    obtain ⟨hstep, hrest⟩ := List.forall_mem_cons.mp h
    rw [applyAll, List.foldl_cons, apply_withBases hstep]
    exact ih hrest (draft.apply step)

theorem bases_apply (h : step.namesBase = false) :
    (draft.apply step).record.bases = draft.record.bases := by
  cases step <;> first | rfl | cases h

theorem withBases_withBases (draft : Draft) (bases bases' : List BaseClass) :
    (draft.withBases bases).withBases bases' = draft.withBases bases' := rfl

/-- The bases that the steps name come after those of the draft, whatever is written in between. -/
theorem applyAll_eq (draft : Draft) (steps : List RecordStep) :
    draft.applyAll steps = (draft.applyAll (steps.filter (!·.namesBase))).withBases
      (draft.record.bases ++ steps.filterMap (·.specifier? draft.record.key)) := by
  induction steps generalizing draft with
  | nil => simp [applyAll, withBases, Record.withBases]
  | cons step rest ih =>
    change (draft.apply step).applyAll rest = _
    rw [ih, apply_key]
    cases hnames : step.namesBase with
    | false =>
      rw [List.filter_cons_of_pos (by simp [hnames]), bases_apply hnames,
        List.filterMap_cons_none (RecordStep.specifier?_of_not_namesBase _ hnames)]
      rfl
    | true =>
      obtain ⟨base, hbase⟩ := RecordStep.exists_specifier? draft.record.key hnames
      have hothers : ∀ step ∈ rest.filter (!·.namesBase), step.namesBase = false := by
        intro step hstep
        simpa using (List.mem_filter.mp hstep).2
      rw [List.filter_cons_of_neg (by simp [hnames]), List.filterMap_cons_some hbase,
        apply_of_specifier? hbase, applyAll_withBases hothers, withBases_withBases]
      simp [withBases, Record.withBases]

/-- Drafts that name the same bases in one order or another. -/
def Reordered (draft other : Draft) : Prop :=
  ∃ bases, draft.record.bases.Perm bases ∧ other = draft.withBases bases

namespace Reordered

variable {other : Draft}

theorem refl (draft : Draft) : draft.Reordered draft := ⟨draft.record.bases, .refl _, rfl⟩

theorem id (h : draft.Reordered other) : other.record.id = draft.record.id := by
  obtain ⟨bases, -, rfl⟩ := h
  rfl

theorem apply (h : draft.Reordered other) (step : RecordStep) :
    (draft.apply step).Reordered (other.apply step) := by
  obtain ⟨bases, hperm, rfl⟩ := h
  cases hnames : step.namesBase with
  | false =>
    refine ⟨bases, ?_, apply_withBases hnames bases⟩
    rwa [bases_apply hnames]
  | true =>
    obtain ⟨base, hbase⟩ := RecordStep.exists_specifier? draft.record.key hnames
    refine ⟨bases ++ [base], ?_, ?_⟩
    · rw [apply_of_specifier? hbase]
      exact hperm.append_right [base]
    · rw [apply_of_specifier? hbase]
      exact apply_of_specifier? hbase

end Reordered

/-- Bodies with the same base specifiers in two orders leave drafts with these bases. -/
theorem reordered_applyAll {steps steps' : List RecordStep}
    (h : RecordStep.SameSpecifiers steps steps') (draft : Draft) :
    (draft.applyAll steps).Reordered (draft.applyAll steps') := by
  have hnamed : ∀ steps : List RecordStep,
      steps.filterMap (·.specifier? draft.record.key) =
        (steps.filter RecordStep.namesBase).filterMap (·.specifier? draft.record.key) := by
    intro steps
    rw [List.filterMap_filter]
    apply List.filterMap_congr
    intro step _
    cases hnames : step.namesBase with
    | false => simp [RecordStep.specifier?_of_not_namesBase _ hnames]
    | true => simp
  rw [applyAll_eq draft steps, applyAll_eq draft steps', h.others]
  refine ⟨_, ?_, rfl⟩
  apply List.Perm.append_left
  rw [hnamed steps, hnamed steps']
  exact h.specifiers.filterMap _

end Draft

namespace Program

theorem checkBases_eq {p : Program} {r : Record} {bases : List BaseClass}
    (h : p.checkBases r = .ok bases) :
    bases = r.bases.map fun base => { base with type := base.type.unqualified } := by
  obtain ⟨-, hchecked⟩ := checkBases_eq_ok.mp h
  generalize r.bases = declared at hchecked ⊢
  clear h
  induction hchecked with
  | nil => rfl
  | cons hbase _ ih => rw [List.map_cons, ← ih, (checkBase_eq_ok.mp hbase).1]

namespace Reordered

variable {p q : Program} (h : p.Reordered q)

include h

theorem size_eq : q.records.size = p.records.size := by
  have hle : ∀ {p q : Program}, p.Reordered q → p.records.size ≤ q.records.size := by
    intro p q h
    by_contra hlt
    have hsome : (p.record? ⟨p.records.size⟩).isSome = true := by
      have hpos : p.records.size ≠ 0 := by omega
      have hbound : p.records.size - 1 < p.records.size := by omega
      simp [record?, hpos, hbound]
    rcases h.record?_cases ⟨p.records.size⟩ with ⟨hp, -⟩ | ⟨_, _, -, hq, -⟩
    · simp [hp] at hsome
    · exact hlt (record?_lt hq).2
  exact Nat.le_antisymm (hle h.symm) (hle h)

theorem declareRecord (name : String) (key : ClassKey) :
    (p.declareRecord name key).1.Reordered (q.declareRecord name key).1 where
  target := h.target
  enums := h.enums
  records id := by
    rw [record?_declareRecord, record?_declareRecord, h.size_eq]
    split
    · exact .some (.refl _)
    · exact h.records id

theorem declareEnum (e : Enumeration) :
    (p.declareEnum e).1.Reordered (q.declareEnum e).1 where
  target := h.target
  enums := by
    unfold Program.declareEnum
    dsimp only
    rw [h.enums]
  records id := h.records id

theorem defineRecord {r s : Record} (hsame : r.Reordered s) (hr : (p.record? r.id).isSome = true) :
    (p.defineRecord r).Reordered (q.defineRecord s) where
  target := by
    unfold Program.defineRecord
    rw [apply_ite Program.target, apply_ite Program.target]
    simp [h.target]
  enums := by rw [enums_defineRecord, enums_defineRecord, h.enums]
  records id := by
    have hs : (q.record? s.id).isSome = true := by
      rw [hsame.id]
      rcases h.record?_cases r.id with ⟨hp, -⟩ | ⟨_, _, -, hq, -⟩
      · simp [hp] at hr
      · simp [hq]
    rw [record?_defineRecord hr, record?_defineRecord hs, hsame.id]
    split
    · exact .some hsame
    · exact h.records id

end Reordered
end Program

namespace Development

/-- Developments in step: the programs and the drafts name the same bases in one order or another. -/
structure Reordered (d e : Development) : Prop where
  program : d.program.Reordered e.program
  drafts : List.Forall₂ Draft.Reordered d.drafts e.drafts

/-- No check of the completion that the action runs is denied for the number of steps. -/
def PerformsWithinLimits (d : Development) : Action → Prop
  | .finish id =>
    ∀ draft ∈ d.drafts.find? (·.record.id = id),
      ∀ bases ∈ (d.program.checkBases draft.record).toOption,
        (d.program.completion (draft.withBases bases)).InLimits (.fresh .initialization)
  | _ => True

/-- No check of a completion among the actions is denied for the number of steps. -/
def CompletesWithinLimits (d : Development) : List Action → Prop
  | [] => True
  | a :: rest => d.PerformsWithinLimits a ∧ (d.perform a).CompletesWithinLimits rest

instance (d : Development) : DecidablePred d.PerformsWithinLimits
  | .finish _ => inferInstanceAs (Decidable (∀ draft ∈ _, ∀ bases ∈ _, Check.InLimits _ _))
  | .start .. | .write .. | .incomplete .. | .enumeration _ => .isTrue trivial

instance decidableCompletesWithinLimits (d : Development) (actions : List Action) :
    Decidable (d.CompletesWithinLimits actions) :=
  match actions with
  | [] => .isTrue trivial
  | a :: rest =>
    have := decidableCompletesWithinLimits (d.perform a) rest
    inferInstanceAs (Decidable (_ ∧ _))

namespace Reordered

variable {d e : Development} (h : Reordered d e)

include h

theorem find?_cases (id : RecordId) :
    (d.drafts.find? (·.record.id = id) = none ∧ e.drafts.find? (·.record.id = id) = none) ∨
    ∃ draft other, d.drafts.find? (·.record.id = id) = some draft ∧
      e.drafts.find? (·.record.id = id) = some other ∧ draft.Reordered other := by
  have hdrafts := h.drafts
  generalize d.drafts = drafts at hdrafts
  generalize e.drafts = others at hdrafts
  induction hdrafts with
  | nil => exact Or.inl ⟨rfl, rfl⟩
  | @cons draft other drafts others hsame _ ih =>
    rw [List.find?_cons, List.find?_cons, hsame.id]
    by_cases hid : draft.record.id = id
    · simp only [hid, decide_true]
      exact Or.inr ⟨draft, other, rfl, rfl, hsame⟩
    · simp only [hid, decide_false]
      exact ih

theorem filter (id : RecordId) : List.Forall₂ Draft.Reordered
    (d.drafts.filter (·.record.id ≠ id)) (e.drafts.filter (·.record.id ≠ id)) := by
  refine List.rel_filter ?_ h.drafts
  intro draft other hsame
  simp [hsame.id]

theorem write (id : RecordId) (step : RecordStep) :
    (d.perform (.write id step)).Reordered (e.perform (.write id step)) where
  program := h.program
  drafts := by
    refine List.rel_map ?_ h.drafts
    intro draft other hsame
    dsimp only
    rw [hsame.id]
    split
    · exact hsame.apply step
    · exact hsame

/-- What finishing a record comes to in both programs, if it completes the record in both. -/
theorem finishRecord (hsame : d.program.ConvertsAlike e.program) (hd : d.Drafted)
    {draft : Draft} {id : RecordId} {bases : List BaseClass} {p q : Program} {t t' : Ty}
    (hfind : d.drafts.find? (·.record.id = id) = some draft)
    (hfind' : e.drafts.find? (·.record.id = id) = some (draft.withBases bases))
    (hperm : draft.record.bases.Perm bases)
    (hlimits : d.PerformsWithinLimits (.finish id))
    (hlimits' : e.PerformsWithinLimits (.finish id))
    (hp : d.program.finishRecord draft = .ok (p, t))
    (hq : e.program.finishRecord (draft.withBases bases) = .ok (q, t')) : p.Reordered q := by
  obtain ⟨checked, r, hchecked, -, hr, rfl, -⟩ := Program.finishRecord_eq_ok.mp hp
  obtain ⟨checked', s, hchecked', -, hs, rfl, -⟩ := Program.finishRecord_eq_ok.mp hq
  have hbases : checked.Perm checked' := by
    rw [Program.checkBases_eq hchecked, Program.checkBases_eq hchecked']
    exact hperm.map _
  have hsteps : (d.program.completion (draft.withBases checked)).InLimits
      (.fresh .initialization) := hlimits draft hfind checked (by simp [hchecked, Except.toOption])
  have hsteps' : (e.program.completion ((draft.withBases checked).withBases checked')).InLimits
      (.fresh .initialization) :=
    hlimits' _ hfind' checked' (by simp [hchecked', Except.toOption])
  have hcompleted : r.Reordered s :=
    @Program.ConvertsAlike.reordered_completeRecord _ _ r _ hsame (draft.withBases checked) s
      hbases hsteps hsteps' hr hs
  apply h.program.defineRecord hcompleted
  obtain ⟨old, hold, -⟩ := hd draft (List.mem_of_find?_eq_some hfind)
  rw [(Program.kept_of_completeRecord hr).id]
  exact Option.isSome_of_eq_some hold

end Reordered

/-- A record that was drafted is complete after it is finished if its draft passes all checks. -/
theorem isCompleteRecord_perform_finish {d : Development} (hd : d.Drafted) {id : RecordId}
    {draft : Draft} (hfind : d.drafts.find? (·.record.id = id) = some draft) :
    (d.perform (.finish id)).program.isCompleteRecord id =
      (d.program.finishRecord draft).toBool := by
  have hid : draft.record.id = id := by simpa using List.find?_some hfind
  obtain ⟨old, hold, hincomplete⟩ := hd draft (List.mem_of_find?_eq_some hfind)
  rw [hid] at hold
  cases hfinish : d.program.finishRecord draft with
  | error _ =>
    simp [Development.perform, hfind, hfinish, Program.isCompleteRecord, hold, hincomplete,
      Except.toBool]
  | ok result =>
    obtain ⟨q, t⟩ := result
    obtain ⟨_, r, _, _, hr, rfl, _⟩ := Program.finishRecord_eq_ok.mp hfinish
    have hr' : r.id = id := (Program.kept_of_completeRecord hr).id.trans hid
    have hdone : (d.program.defineRecord r).record? id = some r := by
      rw [Program.record?_defineRecord (by simp [hr', hold]), if_pos hr'.symm]
    simp [Development.perform, hfind, hfinish, Program.isCompleteRecord, hdone,
      Program.complete_of_completeRecord hr, Except.toBool]

section NotDrafted

variable {d : Development} (hd : d.Drafted) {id : RecordId} {r : Record}
  (hr : d.program.record? id = some r) (hnot : ∀ draft ∈ d.drafts, draft.record.id ≠ id)

include hd hr hnot

theorem record?_perform_of_not_drafted (a : Action) :
    (d.perform a).program.record? id = some r := by
  cases a with
  | start name key | incomplete name key => exact Program.record?_declareRecord_of_record? hr
  | write _ _ | enumeration _ => exact hr
  | finish id' =>
    rcases perform_finish d id' with ⟨hp, -⟩ | ⟨draft, hdraft, bases, s, _, _, _, hs, hp, -⟩
    · rw [hp, hr]
    · have hid : s.id = draft.record.id := (Program.kept_of_completeRecord hs).id
      obtain ⟨old, hold, -⟩ := hd draft hdraft
      have hne : id ≠ s.id := hid ▸ (hnot draft hdraft).symm
      rw [hp, Program.record?_defineRecord (by simp [hid, hold]), if_neg hne, hr]

omit hd in
theorem not_drafted_perform (a : Action) : ∀ draft ∈ (d.perform a).drafts, draft.record.id ≠ id := by
  intro draft hdraft
  cases a with
  | start name key =>
    rcases List.mem_cons.mp hdraft with rfl | hdraft
    · rintro rfl
      exact absurd (Program.record?_lt hr).2 (by simp [Program.startRecord, Program.declareRecord])
    · exact hnot draft hdraft
  | incomplete _ _ | enumeration _ => exact hnot draft hdraft
  | write id' step =>
    obtain ⟨old, hold, rfl⟩ := List.mem_map.mp hdraft
    split
    · rw [Draft.apply_id]
      exact hnot old hold
    · exact hnot old hold
  | finish id' =>
    rcases perform_finish d id' with ⟨_, _, hsub⟩ | ⟨_, _, _, _, _, _, _, _, _, _, hothers⟩
    · exact hnot draft (hsub hdraft)
    · exact hnot draft (hothers draft hdraft).1

/-- Once a declared record has no draft it stays as it is. -/
theorem record?_performAll_of_not_drafted (actions : List Action) :
    (d.performAll actions).program.record? id = some r := by
  induction actions generalizing d with
  | nil => exact hr
  | cons a rest ih =>
    apply ih (hd.perform a)
    · exact record?_perform_of_not_drafted hd hr hnot a
    · exact not_drafted_perform hr hnot a

end NotDrafted

/-- Whether a record is complete once it is finished does not change later. -/
theorem isCompleteRecord_performAll_finish {d : Development} (hd : d.Drafted) {id : RecordId}
    {draft : Draft} (hfind : d.drafts.find? (·.record.id = id) = some draft)
    (actions : List Action) :
    ((d.perform (.finish id)).performAll actions).program.isCompleteRecord id =
      (d.perform (.finish id)).program.isCompleteRecord id := by
  have hid : draft.record.id = id := by simpa using List.find?_some hfind
  have hnot : ∀ other ∈ (d.perform (.finish id)).drafts, other.record.id ≠ id := by
    intro other hother
    cases hfinish : d.program.finishRecord draft <;>
      simp_all [Development.perform]
  have hdeclared : ∃ r, (d.perform (.finish id)).program.record? id = some r := by
    obtain ⟨old, hold, -⟩ := hd draft (List.mem_of_find?_eq_some hfind)
    rw [hid] at hold
    rcases perform_finish d id with ⟨hp, -⟩ | ⟨other, _, _, r, hother, _, _, hr, hp, -⟩
    · exact ⟨old, hp ▸ hold⟩
    · have hr' : r.id = id := (Program.kept_of_completeRecord hr).id.trans hother
      exact ⟨r, by rw [hp, Program.record?_defineRecord (by simp [hr', hold]), if_pos hr'.symm]⟩
  obtain ⟨r, hr⟩ := hdeclared
  rw [Program.isCompleteRecord, Program.isCompleteRecord, hr,
    record?_performAll_of_not_drafted (hd.perform _) hr hnot]

namespace Reordered

variable {d e : Development} (h : Reordered d e)

include h

/-- Finishing a record in both programs keeps them in step, if it completes the record in both or in
none. -/
theorem finish (hsame : d.program.ConvertsAlike e.program) (hd : d.Drafted) (he : e.Drafted)
    {id : RecordId} (hlimits : d.PerformsWithinLimits (.finish id))
    (hlimits' : e.PerformsWithinLimits (.finish id))
    (hcomplete : ∀ draft ∈ d.drafts.find? (·.record.id = id),
      (e.perform (.finish id)).program.isCompleteRecord id =
        (d.perform (.finish id)).program.isCompleteRecord id) :
    (d.perform (.finish id)).Reordered (e.perform (.finish id)) := by
  rcases h.find?_cases id with ⟨hfind, hfind'⟩ | ⟨draft, other, hfind, hfind', bases, hperm, rfl⟩
  · simpa [Development.perform, hfind, hfind'] using h
  · have hboth := hcomplete draft hfind
    rw [isCompleteRecord_perform_finish hd hfind, isCompleteRecord_perform_finish he hfind'] at hboth
    cases hp : d.program.finishRecord draft with
    | error _ =>
      cases hq : e.program.finishRecord (draft.withBases bases) with
      | error _ =>
        have hkept : Reordered { d with drafts := d.drafts.filter (·.record.id ≠ id) }
            { e with drafts := e.drafts.filter (·.record.id ≠ id) } := ⟨h.program, h.filter id⟩
        simpa [Development.perform, hfind, hfind', hp, hq] using hkept
      | ok _ => simp [hp, hq, Except.toBool] at hboth
    | ok result =>
      cases hq : e.program.finishRecord (draft.withBases bases) with
      | error _ => simp [hp, hq, Except.toBool] at hboth
      | ok result' =>
        have hprogram : result.1.Reordered result'.1 :=
          h.finishRecord hsame hd hfind hfind' hperm hlimits hlimits' hp hq
        constructor
        · simpa [Development.perform, hfind, hfind', hp, hq] using hprogram
        · have hfilter := h.filter id
          simpa [Development.perform, hfind, hfind', hp, hq] using hfilter

theorem perform (hsame : d.program.ConvertsAlike e.program) (hd : d.Drafted) (he : e.Drafted)
    {a : Action} (hlimits : d.PerformsWithinLimits a) (hlimits' : e.PerformsWithinLimits a)
    (hcomplete : ∀ id, a = .finish id → ∀ draft ∈ d.drafts.find? (·.record.id = id),
      (e.perform a).program.isCompleteRecord id = (d.perform a).program.isCompleteRecord id) :
    (d.perform a).Reordered (e.perform a) := by
  cases a with
  | start name key =>
    refine ⟨h.program.declareRecord name key, .cons ?_ h.drafts⟩
    rw [Program.startRecord, Program.startRecord, Program.declareRecord, Program.declareRecord,
      h.program.size_eq]
    exact .refl _
  | write id step => exact h.write id step
  | finish id => exact h.finish hsame hd he hlimits hlimits' (hcomplete id rfl)
  | incomplete name key => exact ⟨h.program.declareRecord name key, h.drafts⟩
  | enumeration en => exact ⟨h.program.declareEnum en, h.drafts⟩

/-- What holds after some actions makes both programs convert alike before them. -/
theorem convertsAlike (hd : d.Reachable) (he : e.Reachable) {actions : List Action}
    (hwritten : ∀ a ∈ actions, a.IsWritten)
    (hwalks : Hierarchy.WalksWithinLimits (d.performAll actions).program)
    (hhides : (d.performAll actions).program.HidesByRank)
    (hhides' : (e.performAll actions).program.HidesByRank) :
    d.program.ConvertsAlike e.program := by
  have hlater := (hd.performAll hwritten).valid
  have hlater' := (he.performAll hwritten).valid
  have hext := extends_performAll hd.valid.drafted actions
  have hext' := extends_performAll he.valid.drafted actions
  have hlimits := hd.valid.walksWithinLimits hext hwalks
  have hrebased := h.program.rebased ⟨_, hd.valid.ranked⟩ hlimits
  have hbefore := hd.valid.hidesByRank hext hlater hlimits hhides
  have hbefore' := he.valid.hidesByRank hext' hlater' hrebased.walks' hhides'
  exact {
    reordered := h.program
    rebased := hrebased
    considered := hd.valid.considered_perm he.valid h.program hlimits hbefore hbefore' }

/-- Actions keep the developments in step, if afterwards the same records are complete and functions
are hidden only by rank. -/
theorem performAll (hd : d.Reachable) (he : e.Reachable) {actions : List Action}
    (hwritten : ∀ a ∈ actions, a.IsWritten)
    (hcomplete : ∀ id, (e.performAll actions).program.isCompleteRecord id =
      (d.performAll actions).program.isCompleteRecord id)
    (hwalks : Hierarchy.WalksWithinLimits (d.performAll actions).program)
    (hhides : (d.performAll actions).program.HidesByRank)
    (hhides' : (e.performAll actions).program.HidesByRank)
    (hlimits : d.CompletesWithinLimits actions) (hlimits' : e.CompletesWithinLimits actions) :
    (d.performAll actions).Reordered (e.performAll actions) := by
  induction actions generalizing d e with
  | nil => exact h
  | cons a rest ih =>
    have hsame := h.convertsAlike hd he hwritten hwalks hhides hhides'
    obtain ⟨ha, hrest⟩ := List.forall_mem_cons.mp hwritten
    refine ih ?_ (hd.perform ha) (he.perform ha) hrest hcomplete hwalks hhides hhides' hlimits.2
      hlimits'.2
    apply h.perform hsame hd.valid.drafted he.valid.drafted hlimits.1 hlimits'.1
    rintro id rfl draft hfind
    rcases h.find?_cases id with ⟨hnone, -⟩ | ⟨_, other, -, hfind', -⟩
    · cases hnone.symm.trans hfind
    · rw [← isCompleteRecord_performAll_finish hd.valid.drafted hfind rest,
        ← isCompleteRecord_performAll_finish he.valid.drafted hfind' rest]
      exact hcomplete id

end Reordered

/-- Steps that are written to one record are applied to its draft. -/
theorem performAll_writes (d : Development) (id : RecordId) (steps : List RecordStep) :
    d.performAll (steps.map (.write id)) =
      { d with
        drafts := d.drafts.map fun draft =>
          if draft.record.id = id then draft.applyAll steps else draft } := by
  induction steps generalizing d with
  | nil => simp [performAll, Draft.applyAll]
  | cons step rest ih =>
    change (d.perform (.write id step)).performAll (rest.map (.write id)) = _
    rw [ih]
    simp only [perform, List.map_map]
    congr 1
    apply List.map_congr_left
    intro draft _
    by_cases hid : draft.record.id = id
    · simp [hid, Draft.apply_id, Draft.applyAll]
    · simp [hid]

/-- Bodies with the same base specifiers in two orders keep a development in step with itself. -/
theorem reordered_writes (d : Development) (id : RecordId) {steps steps' : List RecordStep}
    (h : RecordStep.SameSpecifiers steps steps') :
    Reordered (d.performAll (steps.map (.write id))) (d.performAll (steps'.map (.write id))) := by
  rw [performAll_writes, performAll_writes]
  refine ⟨.refl d.program, ?_⟩
  rw [List.forall₂_map_left_iff, List.forall₂_map_right_iff, List.forall₂_same]
  intro draft _
  split
  · exact Draft.reordered_applyAll h draft
  · exact .refl draft

/-- The programs that two orders of the base specifiers of a body lead to convert alike. -/
theorem Reachable.convertsAlike_of_sameSpecifiers {d : Development} (h : d.Reachable)
    {id : RecordId} {steps steps' : List RecordStep} {actions : List Action}
    (hsame : RecordStep.SameSpecifiers steps steps')
    (hwritten : ∀ a ∈ steps.map (.write id) ++ actions, a.IsWritten) :
    let one := d.performAll (steps.map (.write id))
    let other := d.performAll (steps'.map (.write id))
    let p := (one.performAll actions).program
    let q := (other.performAll actions).program
    (∀ id, q.isCompleteRecord id = p.isCompleteRecord id) → Hierarchy.WalksWithinLimits p →
      one.CompletesWithinLimits actions → other.CompletesWithinLimits actions →
      p.HidesByRank → q.HidesByRank → p.ConvertsAlike q := by
  intro one other p q hcomplete hwalks hone hother hhides hhides'
  obtain ⟨hsteps, hactions⟩ := List.forall_mem_append.mp hwritten
  have hreachable : one.Reachable := h.performAll hsteps
  have hreachable' : other.Reachable := by
    apply h.performAll
    intro a ha
    obtain ⟨step, hstep, rfl⟩ := List.mem_map.mp ha
    exact hsteps _ (List.mem_map_of_mem (hsame.mem_iff.mp hstep))
  have hreordered : (one.performAll actions).Reordered (other.performAll actions) :=
    (d.reordered_writes id hsame).performAll hreachable hreachable' hactions hcomplete hwalks
      hhides hhides' hone hother
  exact @Reordered.convertsAlike _ _ hreordered (hreachable.performAll hactions)
    (hreachable'.performAll hactions) [] (by simp) hwalks hhides hhides'

end Development
end TypeTraits
