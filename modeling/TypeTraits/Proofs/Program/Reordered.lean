import TypeTraits.Proofs.Expr.Hiding
import TypeTraits.Proofs.Hierarchy.BaseOrder

/-!
# Programs with direct bases in another order

A class that names its direct bases in another order is laid out differently. It offers the
functions that it offered before, and where functions are hidden only by rank the same of them are
considered.
-/

namespace TypeTraits

/-- The record without its bases, its layout, and those facts that no initialization looks at. -/
def Record.unbased (r : Record) : Record :=
  { r with
    bases := []
    layout := ⟨0, 0⟩
    facts :=
      { polymorphic := r.facts.polymorphic
        abstract := r.facts.abstract
        hasVirtualBases := r.facts.hasVirtualBases
        virtualDestructor := r.facts.virtualDestructor } }

/-- The record, or the draft, with these bases in place of its own. -/
def Record.withBases (r : Record) (bases : List BaseClass) : Record := { r with bases }

@[inherit_doc Record.withBases]
def Draft.withBases (draft : Draft) (bases : List BaseClass) : Draft :=
  { draft with record := draft.record.withBases bases }

/-- Records that name the same bases in one order or another, and are as complete. -/
structure Record.Reordered (r s : Record) : Prop where
  bases : r.bases.Perm s.bases
  unbased : s.unbased = r.unbased
  unresolvedPure : ∀ name, name ∈ s.facts.unresolvedPure ↔ name ∈ r.facts.unresolvedPure

namespace Record.Reordered

variable {r s : Record}

theorem refl (r : Record) : r.Reordered r := ⟨.refl _, rfl, fun _ => .rfl⟩

theorem symm (h : r.Reordered s) : s.Reordered r :=
  ⟨h.bases.symm, h.unbased.symm, fun name => (h.unresolvedPure name).symm⟩

variable (h : r.Reordered s)

include h

theorem id : s.id = r.id := (congrArg Record.id h.unbased :)

theorem key : s.key = r.key := (congrArg Record.key h.unbased :)

theorem complete : s.complete = r.complete := (congrArg Record.complete h.unbased :)

theorem constructors : s.constructors = r.constructors :=
  (congrArg Record.constructors h.unbased :)

theorem assignments : s.assignments = r.assignments := (congrArg Record.assignments h.unbased :)

theorem destructor : s.destructor = r.destructor := (congrArg Record.destructor h.unbased :)

theorem abstract : s.facts.abstract = r.facts.abstract :=
  (congrArg (·.facts.abstract) h.unbased :)

theorem isUnion : s.isUnion = r.isUnion := by rw [Record.isUnion, Record.isUnion, h.key]

theorem functions (set : FunctionSet) : s.functions set = r.functions set := by
  have hsame := congrArg (Record.functions · set) h.unbased
  cases set <;> exact hsame

theorem candidates : s.candidates = r.candidates := by
  funext set mode object
  rw [Record.candidates, Record.candidates, h.functions, h.id]

end Record.Reordered

namespace Program

open Hierarchy

/-- Programs for one target and with the same enumerations, whose records name the same bases in one
order or another. -/
structure Reordered (p q : Program) : Prop where
  target : q.target = p.target
  enums : q.enums = p.enums
  records : ∀ id, Option.Rel Record.Reordered (p.record? id) (q.record? id)

namespace Reordered

variable {p q : Program}

/-- No record is found in either place, or one in each that is related to the other. -/
theorem option_cases {found found' : Option Record} (h : Option.Rel Record.Reordered found found') :
    (found = none ∧ found' = none) ∨
      ∃ r s, found = some r ∧ found' = some s ∧ r.Reordered s := by
  cases h with
  | none => exact Or.inl ⟨rfl, rfl⟩
  | some h => exact Or.inr ⟨_, _, rfl, rfl, h⟩

theorem option_filter {found found' : Option Record} {chosen : Record → Bool}
    (hchosen : ∀ r s, r.Reordered s → chosen s = chosen r)
    (h : Option.Rel Record.Reordered found found') :
    Option.Rel Record.Reordered (found.filter chosen) (found'.filter chosen) := by
  cases h with
  | none => exact .none
  | @some r s h =>
    rw [Option.filter_some, Option.filter_some, hchosen r s h]
    split
    · exact .some h
    · exact .none

theorem refl (p : Program) : p.Reordered p where
  target := rfl
  enums := rfl
  records id := by
    cases p.record? id with
    | none => exact .none
    | some r => exact .some (.refl r)

variable (h : p.Reordered q)

include h

theorem record?_cases (id : RecordId) : (p.record? id = none ∧ q.record? id = none) ∨
    ∃ r s, p.record? id = some r ∧ q.record? id = some s ∧ r.Reordered s :=
  option_cases (h.records id)

theorem symm : q.Reordered p where
  target := h.target.symm
  enums := h.enums.symm
  records id := by
    rcases h.record?_cases id with ⟨hp, hq⟩ | ⟨r, s, hp, hq, hsame⟩
    · rw [hp, hq]
      exact .none
    · rw [hp, hq]
      exact .some hsame.symm

theorem completeRecord? (t : Ty) :
    Option.Rel Record.Reordered (p.completeRecord? t) (q.completeRecord? t) := by
  simp only [Program.completeRecord?, Program.recordOf?]
  cases t.recordId? with
  | none => exact .none
  | some id => exact option_filter (fun _ _ hsame => hsame.complete) (h.records id)

theorem completeRecord?_cases (t : Ty) :
    (p.completeRecord? t = none ∧ q.completeRecord? t = none) ∨
      ∃ r s, p.completeRecord? t = some r ∧ q.completeRecord? t = some s ∧ r.Reordered s :=
  option_cases (h.completeRecord? t)

theorem sameBases : SameBases p q := by
  intro source
  rcases option_cases (option_filter (fun _ _ hsame => congrArg not hsame.isUnion)
    (h.completeRecord? source)) with ⟨hp, hq⟩ | ⟨r, s, hp, hq, hsame⟩
  · rw [edges_of_class?_eq_none hp, edges_of_class?_eq_none hq]
  · rw [edges_eq hp, edges_eq hq]
    exact hsame.bases

theorem isClassId (id : RecordId) : q.isClassId id = p.isClassId id := by
  rw [Program.isClassId, Program.isClassId]
  rcases h.record?_cases id with ⟨hp, hq⟩ | ⟨r, s, hp, hq, hsame⟩
  · rw [hp, hq]
  · rw [hp, hq, Option.any_some, Option.any_some, hsame.isUnion]

/-- Within the limits of the walks over base classes these go alike. -/
theorem rebased (hranked : ∃ rank, Ranked p rank) (hwalks : WalksWithinLimits p) : p.Rebased q where
  target := h.target
  enums := h.enums
  isClassId := h.isClassId
  bases := h.sameBases
  ranked := hranked
  walks := hwalks

end Reordered

/-! ### The conversion functions that are considered -/

namespace Reordered

variable {p q : Program} (h : p.Reordered q)

include h

theorem offeredBy (mode : InitMode) : q.offeredBy mode = p.offeredBy mode := by
  funext cls
  rw [Program.offeredBy, Program.offeredBy]
  rcases h.completeRecord?_cases cls with ⟨hp, hq⟩ | ⟨r, s, hp, hq, hsame⟩
  · rw [hp, hq, Option.elim_none]
  · rw [hp, hq, Option.elim_some, Option.elim_some, hsame.candidates]

/-- Every type offers the same conversion functions. -/
theorem offered (hbases : ∀ t, (p.allBases t).Perm (q.allBases t)) (t : Ty) (mode : InitMode) :
    (p.offered t mode).Perm (q.offered t mode) := by
  rw [offered_eq, offered_eq, h.offeredBy]
  rcases h.completeRecord?_cases t with ⟨hp, hq⟩ | ⟨r, s, hp, hq, hsame⟩
  · rw [hp, hq, Option.elim_none, Option.elim_none]
  · rw [hp, hq, Option.elim_some, Option.elim_some, hsame.candidates]
    exact ((hbases t.unqualified).flatMap_right _).append_left _

theorem outranks {a c : Candidate} (houtranks : p.Outranks a c) : q.Outranks a c := by
  refine ⟨houtranks.1, houtranks.2.imp_left ?_⟩
  rintro ⟨path, hne, hpath⟩
  obtain ⟨other, hother, hroute⟩ := h.sameBases.leads hpath
  refine ⟨other, ?_, hother⟩
  rintro rfl
  exact hne (List.map_eq_nil_iff.mp hroute.symm)

end Reordered
end Program

namespace Development

open Hierarchy

variable {d e : Development}

/-- Where functions are hidden only by rank, the same conversion functions are considered. -/
theorem Valid.considered_perm (h : d.Valid) (h' : e.Valid) (hpq : d.program.Reordered e.program)
    (hwalks : WalksWithinLimits d.program) (hhides : d.program.HidesByRank)
    (hhides' : e.program.HidesByRank) (t : Ty) (mode : InitMode) :
    (d.program.considered t mode).Perm (e.program.considered t mode) := by
  have hrebased := hpq.rebased ⟨_, h.ranked⟩ hwalks
  have hoffered := hpq.offered hrebased.allBases t mode
  have hnodup : ∀ {d : Development}, d.Valid → (d.program.considered t mode).Nodup := by
    intro d h
    rw [Program.considered_eq]
    exact (firsts_sublist _ _).nodup (h.nodup_offered t mode)
  apply (List.perm_ext_iff_of_nodup (hnodup h) (hnodup h')).mpr
  intro c
  rw [hhides.mem_considered_iff h.ranked, hhides'.mem_considered_iff h'.ranked, hoffered.mem_iff]
  apply and_congr_right
  intro _
  constructor
  · intro hfree a ha houtranks
    exact hfree a (hoffered.mem_iff.mpr ha) (hpq.symm.outranks houtranks)
  · intro hfree a ha houtranks
    exact hfree a (hoffered.mem_iff.mp ha) (hpq.outranks houtranks)

end Development
end TypeTraits
