import TypeTraits.Proofs.Hierarchy.VirtualBases
import TypeTraits.Proofs.Program.Relaxation
import TypeTraits.Proofs.Record.ImplicitMembers

/-!
# Bases that are barred from outside the class

-/

namespace TypeTraits

open Hierarchy

/-- The step declares a constructor, an assignment operator or a destructor. -/
def RecordStep.declaresMember : RecordStep → Bool
  | .constructor _ | .assignment _ | .destructor _ | .throwingDestructor | .virtualDestructor => true
  | _ => false

theorem Draft.IsBare.apply {d : Draft} {step : RecordStep} (h : d.IsBare)
    (hstep : step.declaresMember = false) : (d.apply step).IsBare := by
  obtain ⟨hconstructors, hassignments, hdestructor⟩ := h
  cases step <;> first | exact ⟨hconstructors, hassignments, hdestructor⟩ | cases hstep

namespace Development

variable {b : RecordId} {target : Target} {actions : List Action}

/-- Constructors, assignment operators and destructors are declared for the class `b` only. -/
def DeclaresOnly (b : RecordId) (actions : List Action) : Prop :=
  ∀ id step, Action.write id step ∈ actions → step.declaresMember = true → id = b

theorem isBare_of_mem_drafts (hdeclares : DeclaresOnly b actions) :
    ∀ draft ∈ (run target actions).drafts, draft.record.id ≠ b → draft.IsBare := by
  induction actions using List.reverseRecOn with
  | nil => simp [run, performAll]
  | append_singleton actions a ih =>
    have hold := ih fun id step hmem => hdeclares id step (List.mem_append_left _ hmem)
    rw [run_snoc]
    intro draft hdraft hne
    cases a with
    | start name key =>
      rcases List.mem_cons.mp hdraft with rfl | hdraft
      · exact ⟨rfl, rfl, rfl⟩
      · exact hold draft hdraft hne
    | write id step =>
      obtain ⟨old, hmem, rfl⟩ := List.mem_map.mp hdraft
      split at hne
      · rename_i hid
        rw [if_pos hid]
        rw [Draft.apply_id] at hne
        refine (hold old hmem hne).apply ?_
        by_contra hmember
        have hwrite : Action.write id step ∈ actions ++ [.write id step] := by simp
        exact hne (hid.trans (hdeclares id step hwrite (by simpa using hmember)))
      · rename_i hid
        rw [if_neg hid]
        exact hold old hmem hne
    | finish id =>
      rcases perform_finish (run target actions) id with ⟨_, _, hsub⟩ | ⟨_, _, _, _, _, _, _, _, _, _, hothers⟩
      · exact hold draft (hsub hdraft) hne
      · exact hold draft (hothers draft hdraft).1 hne
    | incomplete _ _ | enumeration _ => exact hold draft hdraft hne

/-- The special members of a class that declares none, which its bases may bar. -/
structure Inherits (p : Program) (r : Record) : Prop where
  isImplicit : r.IsImplicit
  barredBy : ∀ base ∈ r.bases, ∃ c, p.completeRecord? base.type = some c ∧ r.BarredBy c

theorem Completes.inherits {d : Development} {draft : Draft} {r : Record} (h : d.Completes draft r)
    (hbare : draft.IsBare) (hclass : r.isUnion = false) :
    Inherits (d.program.defineRecord r) r := by
  obtain ⟨o, _, ho, hgive⟩ := Program.implicit_of_completeRecord h.completed hbare
  have hunion : (d.program.synthesis draft.record).isUnion = false := by
    rw [← hclass, Record.isUnion, h.kept.key]
    rfl
  refine ⟨hgive.isImplicit hunion ho, fun base hbase => ?_⟩
  rw [h.kept.bases] at hbase
  obtain ⟨id, c, htype, _, hc, hcomplete, _⟩ := h.bases base hbase
  have hc' : d.program.completeRecord? (.record id) = some c :=
    Program.completeRecord?_eq_some.mpr ⟨id, rfl, hc, hcomplete⟩
  refine ⟨c, ?_, hgive.barredBy ho hunion ?_ hc'⟩
  · rw [htype]
    exact h.extends_defineRecord.completeRecord? hc'
  · have hobject := List.mem_map_of_mem (f := fun type => ({ type, isBase := true } : MemberObject))
      (d.program.mem_baseObjects hbase)
    exact htype ▸ List.mem_append_left _ hobject

theorem inherits_run (hwritten : ∀ a ∈ actions, a.IsWritten) (hdeclares : DeclaresOnly b actions) :
    ∀ id r, (run target actions).program.record? id = some r → r.complete = true → r.id ≠ b →
      r.isUnion = false → Inherits (run target actions).program r := by
  refine forall_complete_run (Q := fun p r => r.id ≠ b → r.isUnion = false → Inherits p r)
    hwritten ?_ ?_
  · intro p q r hpq h hne hclass
    obtain ⟨himplicit, hbarred⟩ := h hne hclass
    refine ⟨himplicit, fun base hbase => ?_⟩
    obtain ⟨c, hc, hcbarred⟩ := hbarred base hbase
    exact ⟨c, hpq.completeRecord? hc, hcbarred⟩
  · intro first hfirst draft r _ hc hne hclass
    obtain ⟨declared, hdeclared, hdraft⟩ := hc.drafted
    have hid : declared.record.id ≠ b := by
      rw [hc.kept.id, hdraft] at hne
      exact hne
    obtain ⟨hconstructors, hassignments, hdestructor⟩ := isBare_of_mem_drafts
      (fun id step hmem => hdeclares id step (hfirst.subset hmem)) declared hdeclared hid
    refine hc.inherits ?_ hclass
    rw [hdraft]
    exact ⟨hconstructors, hassignments, hdestructor⟩

/-- What bars a class bars those that derive from it, directly or through other classes. -/
theorem barredBy_of_leads (hwritten : ∀ a ∈ actions, a.IsWritten)
    (hdeclares : DeclaresOnly b actions) {id : RecordId} {path : List Edge}
    (hpath : Leads (run target actions).program (.record id) path (.record b)) (hne : path ≠ []) :
    ∃ c r, (run target actions).program.record? b = some c ∧ c.complete = true ∧
      (run target actions).program.record? id = some r ∧ r.complete = true ∧
      r.id ≠ b ∧ r.isUnion = false ∧ r.IsImplicit ∧ r.BarredBy c := by
  have hvalid := (@reachable_run target _ hwritten).valid
  induction path generalizing id with
  | nil => exact absurd rfl hne
  | cons e path ih =>
    obtain ⟨he, hrest⟩ := leads_cons.mp hpath
    obtain ⟨r, hr, hbase⟩ := mem_bases_of_mem_edges he
    obtain ⟨_, hid, hr, hc, hclass⟩ := Program.class?_eq_some.mp hr
    cases hid
    have hother : r.id ≠ b := by
      rw [hvalid.id id r hr]
      rintro rfl
      have hlower := hpath.length_add_rank_le hvalid.ranked
      simp only [List.length_cons] at hlower
      omega
    obtain ⟨himplicit, hbarred⟩ := inherits_run hwritten hdeclares id r hr hc hother hclass
    obtain ⟨c, hcomplete, hbarredBy⟩ := hbarred e.base hbase
    obtain ⟨id', htype, _⟩ := hvalid.class?_of_mem_edges he
    rw [htype] at hcomplete hrest
    obtain ⟨_, hid', hrecord, hcc⟩ := Program.completeRecord?_eq_some.mp hcomplete
    cases hid'
    cases path with
    | nil =>
      cases hrest
      exact ⟨c, r, hrecord, hcc, hr, hc, hother, hclass, himplicit, hbarredBy⟩
    | cons e' path =>
      obtain ⟨c', r', hb, hcb, hr', _, _, _, himplicit', hbarredBy'⟩ := ih hrest (by simp)
      cases hrecord.symm.trans hr'
      exact ⟨c', r, hb, hcb, hr, hc, hother, hclass, himplicit, hbarredBy.trans himplicit' hbarredBy'⟩

end Development
end TypeTraits
