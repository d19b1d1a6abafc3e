import TypeTraits.Proofs.Program.CompletionOrder
import TypeTraits.Proofs.Record.Relaxed

/-!
# The same actions with one class relaxed

A class is relaxed by declaring its protected members public and its pure virtual functions without
a definition of their own. Actions and their relaxed counterparts go in step: the same records are
complete after both, with one outline, and the drafts differ only in what was relaxed. What holds of
the two results of each completion holds of every complete record and its counterpart.
-/

namespace TypeTraits

/-- The action, relaxed if it writes to the class `b`. -/
def Action.relaxed (b : RecordId) : Action → Action
  | .write id step => .write id (if id = b then step.relaxed else step)
  | a => a

theorem Action.IsWritten.relaxed {a : Action} (h : a.IsWritten) (b : RecordId) :
    (a.relaxed b).IsWritten := by
  cases a with
  | write id step =>
    change (if id = b then step.relaxed else step).IsWritten
    split
    · exact RecordStep.IsWritten.relaxed h
    · exact h
  | _ => exact h

theorem Action.isWritten_map_relaxed {actions : List Action} (b : RecordId)
    (h : ∀ a ∈ actions, a.IsWritten) : ∀ a ∈ actions.map (·.relaxed b), a.IsWritten := by
  intro a' ha'
  obtain ⟨a, ha, rfl⟩ := List.mem_map.mp ha'
  exact (h a ha).relaxed b

namespace Development

/-- Developments in step: the programs have one outline, and the drafts of the other are those of
the one, relaxed. -/
structure InStep (b : RecordId) (d e : Development) : Prop where
  outline : e.program.outline = d.program.outline
  drafts : e.drafts = d.drafts.map (·.relaxed b)

namespace InStep

variable {b : RecordId} {d e : Development}

theorem find? (h : InStep b d e) (id : RecordId) :
    e.drafts.find? (·.record.id = id) = (d.drafts.find? (·.record.id = id)).map (·.relaxed b) := by
  rw [h.drafts, List.find?_map]
  simp [Function.comp_def]

/-- A draft can be finished in both programs or in none. -/
theorem finishRecord (h : InStep b d e) (draft : Draft) :
    (∃ error error', d.program.finishRecord draft = .error error ∧
      e.program.finishRecord (draft.relaxed b) = .error error') ∨
    ∃ p q t, d.program.finishRecord draft = .ok (p, t) ∧
      e.program.finishRecord (draft.relaxed b) = .ok (q, t) ∧ q.outline = p.outline := by
  cases hd : d.program.finishRecord draft with
  | ok result =>
    obtain ⟨q, hq, houtline⟩ := Program.finishRecord_outline h.outline draft.alike_relaxed hd
    exact Or.inr ⟨result.1, q, result.2, rfl, hq, houtline⟩
  | error error =>
    cases he : e.program.finishRecord (draft.relaxed b) with
    | error error' => exact Or.inl ⟨error, error', rfl, rfl⟩
    | ok result =>
      obtain ⟨p, hp, _⟩ := Program.finishRecord_outline h.outline.symm draft.alike_relaxed.symm he
      cases hd.symm.trans hp

theorem perform_start (h : InStep b d e) (name : String) (key : ClassKey) :
    InStep b (d.perform (.start name key)) (e.perform (.start name key)) := by
  have hsize : e.program.records.size = d.program.records.size := by
    have := congrArg (·.records.size) h.outline
    simpa [Program.outline] using this
  constructor
  · change (e.program.declareRecord name key).1.outline =
      (d.program.declareRecord name key).1.outline
    rw [Program.outline_declareRecord, Program.outline_declareRecord, h.outline]
  · simp only [Development.perform, Program.startRecord, Program.declareRecord, h.drafts, hsize,
      List.map_cons]
    congr 1
    unfold Draft.relaxed
    split <;> rfl

theorem perform_finish (h : InStep b d e) (id : RecordId) :
    InStep b (d.perform (.finish id)) (e.perform (.finish id)) := by
  cases hfind : d.drafts.find? (·.record.id = id) with
  | none =>
    have hfind' := h.find? id
    rw [hfind] at hfind'
    simpa [Development.perform, hfind, hfind'] using h
  | some draft =>
    have hfind' := h.find? id
    rw [hfind] at hfind'
    have hothers : e.drafts.filter (·.record.id ≠ id) =
        (d.drafts.filter (·.record.id ≠ id)).map (·.relaxed b) := by
      rw [h.drafts, List.filter_map]
      simp [Function.comp_def]
    rcases h.finishRecord draft with ⟨_, _, hd, he⟩ | ⟨p, q, t, hd, he, houtline⟩
    · have hsame : InStep b { d with drafts := d.drafts.filter (·.record.id ≠ id) }
          { e with drafts := e.drafts.filter (·.record.id ≠ id) } := ⟨h.outline, hothers⟩
      simpa [Development.perform, hfind, hfind', hd, he] using hsame
    · constructor
      · simpa [Development.perform, hfind, hfind', hd, he] using houtline
      · simpa [Development.perform, hfind, hfind', hd, he] using hothers

theorem perform (h : InStep b d e) (a : Action) :
    InStep b (d.perform a) (e.perform (a.relaxed b)) := by
  cases a with
  | start name key => exact h.perform_start name key
  | write id step =>
    refine ⟨h.outline, ?_⟩
    simp only [Development.perform, Action.relaxed, h.drafts, List.map_map]
    refine List.map_congr_left fun draft _ => ?_
    simp only [Function.comp_apply, Draft.relaxed_id]
    split
    · rename_i hid
      rw [Draft.relaxed_apply, hid]
    · rfl
  | finish id => exact h.perform_finish id
  | incomplete name key =>
    refine ⟨?_, h.drafts⟩
    change (e.program.declareRecord name key).1.outline =
      (d.program.declareRecord name key).1.outline
    rw [Program.outline_declareRecord, Program.outline_declareRecord, h.outline]
  | enumeration en =>
    refine ⟨?_, h.drafts⟩
    change (e.program.declareEnum en).1.outline = (d.program.declareEnum en).1.outline
    rw [Program.outline_declareEnum, Program.outline_declareEnum, h.outline]

end InStep

theorem inStep_run (b : RecordId) (target : Target) (actions : List Action) :
    InStep b (run target actions) (run target (actions.map (·.relaxed b))) := by
  induction actions using List.reverseRecOn with
  | nil => exact ⟨rfl, rfl⟩
  | append_singleton actions a ih =>
    rw [List.map_append, List.map_singleton, run_snoc, run_snoc]
    exact ih.perform a

/-- Until the relaxed class is complete the programs are the same. -/
theorem InStep.program_eq_perform {b : RecordId} {d e : Development} (h : InStep b d e)
    (hd : d.Drafted) (hsame : e.program = d.program) (a : Action)
    (hincomplete : (d.perform a).program.isCompleteRecord b = false) :
    (e.perform (a.relaxed b)).program = (d.perform a).program := by
  cases a with
  | finish id =>
    have hfind := h.find? id
    cases hdraft : d.drafts.find? (·.record.id = id) with
    | none =>
      rw [hdraft] at hfind
      simpa [Development.perform, Action.relaxed, hdraft, hfind] using hsame
    | some draft =>
      rw [hdraft] at hfind
      rcases h.finishRecord draft with ⟨_, _, hp, hq⟩ | ⟨p, q, t, hp, hq, _⟩
      · simpa [Development.perform, Action.relaxed, hdraft, hfind, hp, hq] using hsame
      · have hafter : (d.perform (.finish id)).program = p := by
          simp [Development.perform, hdraft, hp]
        have hne : draft.record.id ≠ b := by
          rintro rfl
          obtain ⟨bases, r, _, _, hr, rfl, _⟩ := Program.finishRecord_eq_ok.mp hp
          have hid : r.id = draft.record.id := (Program.kept_of_completeRecord hr).id
          obtain ⟨old, hold, _⟩ := hd draft (List.mem_of_find?_eq_some hdraft)
          have hdone : (d.program.defineRecord r).record? draft.record.id = some r := by
            rw [Program.record?_defineRecord (by simp [hid, hold]), if_pos hid.symm]
          have hcomplete := Program.isCompleteRecord_iff.mpr
            ⟨r, hdone, Program.complete_of_completeRecord hr⟩
          rw [hafter, hcomplete] at hincomplete
          cases hincomplete
        rw [Draft.relaxed, if_neg hne, hsame, hp] at hq
        cases hq
        rw [hafter]
        simp [Development.perform, Action.relaxed, hfind, Draft.relaxed, hne, hsame, hp]
  | start name key | incomplete name key | enumeration _ =>
    simp only [Development.perform, Action.relaxed, hsame]
  | write _ _ => exact hsame

theorem program_eq_of_incomplete {b : RecordId} {target : Target} {actions : List Action}
    (hincomplete : (run target actions).program.isCompleteRecord b = false) :
    (run target (actions.map (·.relaxed b))).program = (run target actions).program := by
  induction actions using List.reverseRecOn with
  | nil => rfl
  | append_singleton actions a ih =>
    rw [run_snoc] at hincomplete
    rw [List.map_append, List.map_singleton, run_snoc, run_snoc]
    have hbefore : (run target actions).program.isCompleteRecord b = false := by
      by_contra hcomplete
      have hafter := (extends_perform (drafted_run target actions) a).isCompleteRecord
        (by simpa using hcomplete)
      simp [hafter] at hincomplete
    exact (inStep_run b target actions).program_eq_perform (drafted_run target actions)
      (ih hbefore) a hincomplete

/-- The members of the relaxed class are those of the class, relaxed. -/
theorem Completes.relaxed {b : RecordId} {d e : Development} {draft : Draft} {r s : Record}
    (h : d.Completes draft r) (hs : e.Completes (draft.relaxed b) s)
    (hsame : e.program = d.program) (hid : draft.record.id = b) :
    s.constructors = r.constructors.map FunctionDecl.relaxed ∧
      s.assignments = r.assignments.map FunctionDecl.relaxed ∧
      s.destructor = r.destructor.map FunctionDecl.relaxed := by
  have hrelaxed : draft.relaxed b = { draft with record := draft.record.relaxed } := by
    rw [Draft.relaxed, if_pos hid]
  have hcompleted := hs.completed
  rw [hsame, hrelaxed] at hcompleted
  have halike : draft.record.Alike draft.record.relaxed := by
    have halike := draft.alike_relaxed (b := b)
    rwa [hrelaxed] at halike
  obtain ⟨done, hdone, heq⟩ := d.program.completeRecord_eq draft
  obtain ⟨done', hdone', heq'⟩ :=
    d.program.completeRecord_eq { draft with record := draft.record.relaxed }
  have hsynthesis : d.program.synthesis draft.record.relaxed = d.program.synthesis draft.record :=
    Program.synthesis_of_alike rfl halike
  dsimp only at heq'
  rw [Program.completion] at hdone hdone'
  rw [hsynthesis, Program.any_baseRecords_of_outline rfl halike.outline (·.virtualDestructor)
    fun _ => rfl, Synthesis.complete_relaxed, Check.result_map, hdone] at hdone'
  obtain rfl : done.relaxed = done' := Except.ok.inj hdone'
  obtain ⟨_, _, rfl⟩ := Option.map_eq_some_iff.mp (heq.symm.trans h.completed)
  obtain ⟨_, _, rfl⟩ := Option.map_eq_some_iff.mp (heq'.symm.trans hcompleted)
  exact ⟨rfl, rfl, rfl⟩

/-- Complete records of the first program are related to those of the same number in the second. -/
def Related (related : Record → Record → Prop) (p q : Program) : Prop :=
  ∀ id r s, p.record? id = some r → r.complete = true → q.record? id = some s → related r s

namespace InStep

variable {b : RecordId} {d e : Development}

theorem exists_record (h : InStep b d e) {id : RecordId} {r : Record}
    (hr : d.program.record? id = some r) :
    ∃ s, e.program.record? id = some s ∧ s.outline = r.outline := by
  have hsame : e.program.outline.record? id = d.program.outline.record? id := by rw [h.outline]
  rw [Program.record?_outline, Program.record?_outline, hr] at hsame
  exact Option.map_eq_some_iff.mp hsame

/-- Finishing a record completes it in both programs or in none. -/
theorem finish_cases (h : InStep b d e) (hd : d.Valid) (he : e.Valid) (id : RecordId) :
    ((d.perform (.finish id)).program = d.program ∧
      (e.perform (.finish id)).program = e.program) ∨
    ∃ draft r s, d.Completes draft r ∧ e.Completes (draft.relaxed b) s ∧
      (d.perform (.finish id)).program = d.program.defineRecord r ∧
      (e.perform (.finish id)).program = e.program.defineRecord s := by
  have hfind := h.find? id
  cases hdraft : d.drafts.find? (·.record.id = id) with
  | none =>
    left
    rw [hdraft] at hfind
    simp [Development.perform, hdraft, hfind]
  | some draft =>
    rw [hdraft] at hfind
    rcases h.finishRecord draft with ⟨_, _, hp, hq⟩ | ⟨p, q, t, hp, hq, _⟩
    · left
      simp [Development.perform, hdraft, hfind, hp, hq]
    · right
      obtain ⟨bases, r, hbases, hmembers, hr, rfl, _⟩ := Program.finishRecord_eq_ok.mp hp
      obtain ⟨bases', s, hbases', hmembers', hs, rfl, _⟩ := Program.finishRecord_eq_ok.mp hq
      have hsame : bases' = bases := by
        rw [← Program.checkBases_outline, h.outline, draft.alike_relaxed.outline,
          Program.checkBases_outline, hbases] at hbases'
        exact (Except.ok.inj hbases').symm
      subst hsame
      have hmem := List.mem_of_find?_eq_some hdraft
      have hmem' := List.mem_of_find?_eq_some hfind
      have hrelaxed : Draft.relaxed b { draft with record := { draft.record with bases := bases' } } =
          { draft.relaxed b with record := { (draft.relaxed b).record with bases := bases' } } := by
        unfold Draft.relaxed
        split <;> rfl
      refine ⟨_, r, s, hd.completes hmem hbases hmembers hr, ?_, ?_, ?_⟩
      · rw [hrelaxed]
        exact he.completes hmem' hbases' hmembers' hs
      · simp [Development.perform, hdraft, hp]
      · simp [Development.perform, hfind, hq]

/-- Records stay related, if the results of a completion are. -/
theorem related_perform (h : InStep b d e) (hd : d.Valid) (he : e.Valid) {a : Action}
    {related : Record → Record → Prop} (hold : Related related d.program e.program)
    (completes : ∀ draft r s, d.Completes draft r → e.Completes (draft.relaxed b) s →
      (d.perform a).program.record? r.id = some r →
      (e.perform (a.relaxed b)).program.record? r.id = some s → related r s) :
    Related related (d.perform a).program (e.perform (a.relaxed b)).program := by
  intro id r s hr hc hs
  -- A record that was complete before is what it was, and so is its counterpart.
  have hkept : d.program.record? id = some r → related r s := by
    intro hr
    obtain ⟨s', hs', houtline⟩ := h.exists_record hr
    have hcomplete : s'.complete = true := (congrArg Record.complete houtline :).trans hc
    have hextends := extends_perform he.drafted (a.relaxed b)
    cases (hextends.record id s' hs' hcomplete).symm.trans hs
    exact hold id r s hr hc hs'
  cases a with
  | finish id' =>
    rcases h.finish_cases hd he id' with ⟨hp, _⟩ | ⟨draft, r', s', hr', hs', hp, hq⟩
    · exact hkept (hp ▸ hr)
    · have hid : s'.id = r'.id := by rw [hs'.kept.id, hr'.kept.id, Draft.relaxed_id]
      by_cases hself : id = r'.id
      · subst hself
        have hdone : (d.perform (.finish id')).program.record? r'.id = some r' := by
          rw [hp, Program.record?_defineRecord hr'.declared, if_pos rfl]
        have hdone' : (e.perform (.finish id')).program.record? r'.id = some s' := by
          rw [hq, Program.record?_defineRecord hs'.declared, hid, if_pos rfl]
        cases hdone.symm.trans hr
        cases hdone'.symm.trans hs
        exact completes draft r s hr' hs' hdone hdone'
      · rw [hp, Program.record?_defineRecord hr'.declared, if_neg hself] at hr
        exact hkept hr
  | start name key | incomplete name key =>
    rcases complete_perform_cases hd.drafted hr hc with hr | ⟨heq, _⟩
    · exact hkept hr
    · cases heq
  | write _ _ | enumeration _ => exact hkept hr

end InStep

theorem related_run {b : RecordId} {target : Target} {actions : List Action}
    {related : Record → Record → Prop} (hwritten : ∀ a ∈ actions, a.IsWritten)
    (completes : ∀ first, first <+: actions → ∀ draft r s,
      Related related (run target first).program (run target (first.map (·.relaxed b))).program →
      (run target first).Completes draft r →
      (run target (first.map (·.relaxed b))).Completes (draft.relaxed b) s →
      (run target actions).program.record? r.id = some r →
      (run target (actions.map (·.relaxed b))).program.record? r.id = some s → related r s) :
    Related related (run target actions).program
      (run target (actions.map (·.relaxed b))).program := by
  have hfirst : ∀ first later, actions = first ++ later → Related related
      (run target first).program (run target (first.map (·.relaxed b))).program := by
    intro first
    induction first using List.reverseRecOn with
    | nil =>
      intro _ _ id r s hr
      simp [run, performAll, Program.record?] at hr
    | append_singleton first a ih =>
      intro later hactions
      have hlonger : actions = first ++ ([a] ++ later) := by
        rw [hactions, List.append_assoc]
      have hprefix : ∀ a ∈ first, a.IsWritten := fun a ha =>
        hwritten a (hlonger ▸ List.mem_append_left _ ha)
      have hprefix' := Action.isWritten_map_relaxed b hprefix
      have hold := ih _ hlonger
      rw [List.map_append, List.map_singleton, run_snoc, run_snoc]
      refine (inStep_run b target first).related_perform (reachable_run hprefix).valid
        (reachable_run hprefix').valid hold ?_
      intro draft r s hr hs hdone hdone'
      refine completes first ⟨_, hlonger.symm⟩ draft r s hold hr hs ?_ ?_
      · rw [← run_snoc] at hdone
        rw [hactions, run_append]
        exact (extends_performAll (drafted_run _ _) later).record r.id r hdone hr.complete
      · rw [← run_snoc] at hdone'
        rw [hactions, List.map_append, List.map_append, List.map_singleton, run_append]
        exact (extends_performAll (drafted_run _ _) _).record r.id s hdone' hs.complete
  exact hfirst actions [] (List.append_nil _).symm

end Development
end TypeTraits
