import Mathlib.Data.List.Induction
import Mathlib.Logic.Relation
import TypeTraits.Proofs.Program.Development

/-!
# The order of completion

A record is complete from the action that completes it on, and its declaration stays as it was
then. Only complete records are accepted as bases and as types of data members that hold an
object, so what a complete record contains was complete before it. Nothing is assumed of the
actions: they may mention records that do not exist, write to what is no draft, and finish in vain.
-/

namespace TypeTraits

namespace Program

/-- A complete record contains another: as a direct base, or in a data member that is no
reference. -/
def Contains (p : Program) (a b : RecordId) : Prop :=
  ∃ r, p.record? a = some r ∧ r.complete = true ∧
    ((∃ base ∈ r.bases, base.type.recordId? = some b) ∨
      ∃ m ∈ r.members, m.type.isReference = false ∧ m.type.element.recordId? = some b)

variable {p : Program}

theorem Extends.isCompleteRecord {q : Program} (hpq : p.Extends q) {id : RecordId}
    (h : p.isCompleteRecord id = true) : q.isCompleteRecord id = true := by
  obtain ⟨r, hr, hc⟩ := isCompleteRecord_iff.mp h
  exact isCompleteRecord_iff.mpr ⟨r, hpq.record id r hr hc, hc⟩

end Program

namespace Development

variable {d : Development} {a : Action} {target : Target} {actions : List Action}

/-- A record that is complete after an action was complete before it, or the action has checked and
completed it. -/
theorem complete_perform_cases (h : d.Drafted) {id : RecordId} {r : Record}
    (hr : (d.perform a).program.record? id = some r) (hc : r.complete = true) :
    d.program.record? id = some r ∨
      a = .finish id ∧ ∃ (draft : Draft) (bases : List BaseClass),
        d.program.checkBases draft.record = .ok bases ∧
        d.program.checkMembers draft.record = .ok () ∧
        Program.Kept { draft.record with bases } r := by
  cases a with
  | start name key | incomplete name key =>
    left
    replace hr : (d.program.declareRecord name key).1.record? id = some r := hr
    rw [Program.record?_declareRecord] at hr
    split at hr
    · cases hr
      cases hc
    · exact hr
  | write _ _ | enumeration _ => exact Or.inl hr
  | finish id' =>
    rcases perform_finish d id' with ⟨hp, _⟩ |
      ⟨draft, hmem, bases, r', rfl, hbases, hmembers, hdone, hp, _⟩
    · exact Or.inl (hp ▸ hr)
    · have hkept := Program.kept_of_completeRecord hdone
      have hid : r'.id = draft.record.id := hkept.id
      obtain ⟨old, hold, _⟩ := h draft hmem
      rw [hp, Program.record?_defineRecord (by simp [hid, hold]), hid] at hr
      split at hr
      · rename_i heq
        subst heq
        cases hr
        exact Or.inr ⟨rfl, draft, bases, hbases, hmembers, hkept⟩
      · exact Or.inl hr

/-- Complete records stay as they are, whatever is done later. -/
theorem extends_performAll (h : d.Drafted) (later : List Action) :
    d.program.Extends (d.performAll later).program := by
  induction later generalizing d with
  | nil => exact .refl _
  | cons a rest ih => exact (extends_perform h a).trans (ih (h.perform a))

/-- Some first part of the actions completes the record `b` and leaves `c` incomplete. -/
def CompletedBefore (target : Target) (actions : List Action) (b c : RecordId) : Prop :=
  ∃ first later, actions = first ++ later ∧
    (run target first).program.isCompleteRecord b = true ∧
    (run target first).program.isCompleteRecord c = false

theorem isCompleteRecord_run_append {id : RecordId} {first : List Action}
    (h : (run target first).program.isCompleteRecord id = true) (later : List Action) :
    (run target (first ++ later)).program.isCompleteRecord id = true := by
  rw [run_append]
  exact (extends_performAll (drafted_run target first) later).isCompleteRecord h

namespace CompletedBefore

variable {b c e : RecordId}

theorem isComplete (h : CompletedBefore target actions b c) :
    (run target actions).program.isCompleteRecord b = true := by
  obtain ⟨first, later, rfl, hb, _⟩ := h
  exact isCompleteRecord_run_append hb later

theorem irrefl : ¬CompletedBefore target actions b b := by
  rintro ⟨first, later, _, hcomplete, hincomplete⟩
  simp [hcomplete] at hincomplete

/-- Of two first parts of the actions the one that leaves `c` incomplete is the shorter, if the
other completes `c`. -/
theorem trans (hbc : CompletedBefore target actions b c)
    (hce : CompletedBefore target actions c e) : CompletedBefore target actions b e := by
  obtain ⟨first, later, hfirst, hb, hc⟩ := hbc
  obtain ⟨first', later', hfirst', hc', he⟩ := hce
  refine ⟨first', later', hfirst', ?_, he⟩
  rcases List.append_eq_append_iff.mp (hfirst.symm.trans hfirst') with
    ⟨between, rfl, _⟩ | ⟨between, rfl, _⟩
  · exact isCompleteRecord_run_append hb between
  · have := isCompleteRecord_run_append hc' between
    simp [hc] at this

theorem snoc (h : CompletedBefore target actions b c) (a : Action) :
    CompletedBefore target (actions ++ [a]) b c := by
  obtain ⟨first, later, rfl, hb, hc⟩ := h
  exact ⟨first, later ++ [a], List.append_assoc .., hb, hc⟩

/-- No two records are completed by one action. -/
theorem total (hb : (run target actions).program.isCompleteRecord b = true)
    (hc : (run target actions).program.isCompleteRecord c = true) :
    b = c ∨ CompletedBefore target actions b c ∨ CompletedBefore target actions c b := by
  induction actions using List.reverseRecOn with
  | nil => simp [run, performAll, Program.isCompleteRecord, Program.record?] at hb
  | append_singleton actions a ih =>
    have hsplit : ∀ id, (run target (actions ++ [a])).program.isCompleteRecord id = true →
        (run target actions).program.isCompleteRecord id = true ∨
          (run target actions).program.isCompleteRecord id = false ∧ a = .finish id := by
      intro id hid
      cases hold : (run target actions).program.isCompleteRecord id with
      | true => exact Or.inl rfl
      | false =>
        obtain ⟨r, hr, hcomplete⟩ := Program.isCompleteRecord_iff.mp hid
        rw [run_snoc] at hr
        rcases complete_perform_cases (drafted_run target actions) hr hcomplete with hr | ⟨ha, _⟩
        · have := Program.isCompleteRecord_iff.mpr ⟨r, hr, hcomplete⟩
          simp [hold] at this
        · exact Or.inr ⟨rfl, ha⟩
    rcases hsplit b hb with hb | ⟨hb, hfinish⟩ <;> rcases hsplit c hc with hc | ⟨hc, hfinish'⟩
    · exact (ih hb hc).imp_right (Or.imp (·.snoc a) (·.snoc a))
    · exact Or.inr (Or.inl ⟨actions, [a], rfl, hb, hc⟩)
    · exact Or.inr (Or.inr ⟨actions, [a], rfl, hc, hb⟩)
    · cases hfinish.symm.trans hfinish'
      exact Or.inl rfl

end CompletedBefore

/-- What holds of the bases and data members of a complete record. -/
structure Ordered (target : Target) (actions : List Action) (id : RecordId) (r : Record) :
    Prop where
  bases : ∀ base ∈ r.bases, ∃ b s, base.type.recordId? = some b ∧
    (run target actions).program.record? b = some s ∧ s.complete = true ∧ s.isUnion = false ∧
    CompletedBefore target actions b id
  members : ∀ m ∈ r.members, m.type.isReference = false → ∀ c, m.type.element.recordId? = some c →
    (run target actions).program.isCompleteRecord c = true ∧ CompletedBefore target actions c id

theorem Ordered.snoc {id : RecordId} {r : Record} (h : Ordered target actions id r) (a : Action) :
    Ordered target (actions ++ [a]) id r where
  bases base hbase := by
    obtain ⟨b, s, hid, hs, hcomplete, hclass, hbefore⟩ := h.bases base hbase
    have hextends := extends_perform (drafted_run target actions) a
    rw [← run_snoc] at hextends
    exact ⟨b, s, hid, hextends.record b s hs hcomplete, hcomplete, hclass, hbefore.snoc a⟩
  members m hm href c hid := by
    obtain ⟨hcomplete, hbefore⟩ := h.members m hm href c hid
    exact ⟨isCompleteRecord_run_append hcomplete [a], hbefore.snoc a⟩

/-- The action that completes a record has found its bases and members complete, and the record
itself incomplete. -/
theorem ordered_of_checked {id : RecordId} {r : Record} {draft : Draft} {bases : List BaseClass}
    (hincomplete : (run target actions).program.isCompleteRecord id = false)
    (hbases : (run target actions).program.checkBases draft.record = .ok bases)
    (hmembers : (run target actions).program.checkMembers draft.record = .ok ())
    (hkept : Program.Kept { draft.record with bases } r) :
    Ordered target (actions ++ [.finish id]) id r where
  bases base hbase := by
    rw [hkept.bases] at hbase
    obtain ⟨declared, _, hchecked⟩ := Program.checkBase_of_mem hbases base hbase
    obtain ⟨_, b, s, hb, _, hs, hcomplete, hclass⟩ := Program.checkBase_eq_ok.mp hchecked
    have hextends := extends_perform (drafted_run target actions) (.finish id)
    rw [← run_snoc] at hextends
    have hbefore := Program.isCompleteRecord_iff.mpr ⟨s, hs, hcomplete⟩
    exact ⟨b, s, hb, hextends.record b s hs hcomplete, hcomplete, hclass,
      actions, _, rfl, hbefore, hincomplete⟩
  members m hm href c hc := by
    rw [hkept.members] at hm
    have hobject : (run target actions).program.isCompleteObject m.type = true := by
      simpa [href] using Program.checkMembers_eq_ok.mp hmembers m hm
    have hbefore := Program.isCompleteRecord_of_element hobject hc
    exact ⟨isCompleteRecord_run_append hbefore _, actions, _, rfl, hbefore, hincomplete⟩

theorem ordered_run {id : RecordId} {r : Record}
    (hr : (run target actions).program.record? id = some r) (hc : r.complete = true) :
    Ordered target actions id r := by
  induction actions using List.reverseRecOn generalizing id r with
  | nil => simp [run, performAll, Program.record?] at hr
  | append_singleton actions a ih =>
    rw [run_snoc] at hr
    rcases complete_perform_cases (drafted_run target actions) hr hc with hold |
      ⟨rfl, draft, bases, hbases, hmembers, hkept⟩
    · exact (ih hold hc).snoc a
    · cases hincomplete : (run target actions).program.isCompleteRecord id with
      | false => exact ordered_of_checked hincomplete hbases hmembers hkept
      | true =>
        -- What is complete already is not drafted, so this action has not completed it.
        obtain ⟨s, hs, hcs⟩ := Program.isCompleteRecord_iff.mp hincomplete
        have hsame := (extends_perform (drafted_run target actions) (.finish id)).record id s hs hcs
        cases hsame.symm.trans hr
        exact (ih hs hcs).snoc _

theorem completedBefore_of_contains {b c : RecordId}
    (h : (run target actions).program.Contains c b) : CompletedBefore target actions b c := by
  obtain ⟨r, hr, hc, ⟨base, hbase, hb⟩ | ⟨m, hm, href, hb⟩⟩ := h
  · obtain ⟨b', _, hb', _, _, _, hbefore⟩ := (ordered_run hr hc).bases base hbase
    cases hb.symm.trans hb'
    exact hbefore
  · exact ((ordered_run hr hc).members m hm href b hb).2

/-- After any actions the order of completion is a strict order, total on the complete records.
Bases and data members of a complete record are earlier in it, so no record contains itself, and
what is complete never changes. -/
theorem completion_order (target : Target) (actions : List Action) :
    (∀ b, ¬CompletedBefore target actions b b) ∧
    (∀ b c e, CompletedBefore target actions b c → CompletedBefore target actions c e →
      CompletedBefore target actions b e) ∧
    (∀ b c, (run target actions).program.isCompleteRecord b = true →
      (run target actions).program.isCompleteRecord c = true →
      b = c ∨ CompletedBefore target actions b c ∨ CompletedBefore target actions c b) ∧
    (∀ id r, (run target actions).program.record? id = some r → r.complete = true →
      Ordered target actions id r ∧
      ∀ later, (run target (actions ++ later)).program.record? id = some r) ∧
    ∀ id, ¬Relation.TransGen (run target actions).program.Contains id id := by
  refine ⟨fun _ => CompletedBefore.irrefl, fun _ _ _ => CompletedBefore.trans,
    fun _ _ => CompletedBefore.total, ?_, ?_⟩
  · intro id r hr hc
    refine ⟨ordered_run hr hc, fun later => ?_⟩
    rw [run_append]
    exact (extends_performAll (drafted_run target actions) later).record id r hr hc
  · have hbefore : ∀ b c, Relation.TransGen (run target actions).program.Contains c b →
        CompletedBefore target actions b c := by
      intro b c h
      induction h with
      | single h => exact completedBefore_of_contains h
      | tail _ h ih => exact (completedBefore_of_contains h).trans ih
    intro id h
    exact CompletedBefore.irrefl (hbefore id id h)

end Development
end TypeTraits
