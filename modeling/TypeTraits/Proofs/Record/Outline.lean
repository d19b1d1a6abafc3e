import TypeTraits.Proofs.Hierarchy.Congruence
import TypeTraits.Proofs.Record.Completion

/-!
# What completing a record goes by

Whether a record can be completed, the subobjects that its special members are defined from, and its
layout depend on an outline of the program only. The outline tells which classes are complete and
polymorphic or empty, what they derive from, what they hold and how large they are. It leaves open
the special members, the virtual functions, and whether a class is abstract.
-/

namespace TypeTraits

open Hierarchy

/-- The facts about a record that completing another one goes by. -/
def Facts.outline (f : Facts) : Facts where
  polymorphic := f.polymorphic
  hasVirtualBases := f.hasVirtualBases
  virtualDestructor := f.virtualDestructor
  empty := f.empty

/-- The record without its special members and virtual functions, and what follows from them. -/
def Record.outline (r : Record) : Record :=
  { r with
    constructors := []
    assignments := []
    destructor := none
    virtualFunctions := []
    facts := r.facts.outline }

/-- Declared records with one outline, of which both have virtual functions or none, and both a
virtual destructor or none. -/
structure Record.Alike (r s : Record) : Prop where
  outline : s.outline = r.outline
  virtualFunctions : s.virtualFunctions.isEmpty = r.virtualFunctions.isEmpty
  destructor : s.destructor.any (·.isVirtual) = r.destructor.any (·.isVirtual)

theorem Record.Alike.symm {r s : Record} (h : r.Alike s) : s.Alike r :=
  ⟨h.outline.symm, h.virtualFunctions.symm, h.destructor.symm⟩

theorem Record.kept_of_outline {r s : Record} (h : s.outline = r.outline) : Program.Kept r s where
  id := (congrArg Record.id h :)
  key := (congrArg Record.key h :)
  bases := (congrArg Record.bases h :)
  members := (congrArg Record.members h :)
  conversions := (congrArg Record.conversions h :)
  callOperators := (congrArg Record.callOperators h :)
  indirection := (congrArg Record.indirection h :)
  swaps := (congrArg Record.swaps h :)
  wraps := (congrArg Record.wraps h :)

namespace Program

/-- The program with an outline in the place of each record. -/
def outline (p : Program) : Program := { p with records := p.records.map Record.outline }

variable (p : Program)

@[simp] theorem record?_outline (id : RecordId) :
    p.outline.record? id = (p.record? id).map Record.outline := by
  simp only [record?, outline]
  split <;> simp

@[simp] theorem completeRecord?_outline (t : Ty) :
    p.outline.completeRecord? t = (p.completeRecord? t).map Record.outline := by
  simp only [completeRecord?, recordOf?]
  cases t.recordId? with
  | none => rfl
  | some id =>
    simp only [Option.bind_some, record?_outline, Option.filter_map]
    rfl

@[simp] theorem class?_outline (t : Ty) :
    p.outline.class? t = (p.class? t).map Record.outline := by
  simp only [class?, completeRecord?_outline, Option.filter_map]
  rfl

@[simp] theorem isCompleteRecord_outline (id : RecordId) :
    p.outline.isCompleteRecord id = p.isCompleteRecord id := by
  simp [isCompleteRecord, Option.any_map, Record.outline]

@[simp] theorem isCompleteObject_outline (t : Ty) :
    p.outline.isCompleteObject t = p.isCompleteObject t := by
  fun_induction isCompleteObject p t <;> simp_all [isCompleteObject]

@[simp] theorem outline_target : p.outline.target = p.target := rfl

@[simp] theorem outline_enum? (id : EnumId) : p.outline.enum? id = p.enum? id := rfl

theorem outline_declareRecord (name : String) (key : ClassKey) :
    (p.declareRecord name key).1.outline = (p.outline.declareRecord name key).1 := by
  simp [outline, declareRecord, Record.outline, Facts.outline]

theorem outline_defineRecord (r : Record) :
    (p.defineRecord r).outline = p.outline.defineRecord r.outline := by
  unfold defineRecord
  have hid : r.outline.id = r.id := rfl
  rw [hid]
  split
  · rfl
  · simp [outline, Array.map_setIfInBounds]

theorem outline_declareEnum (e : Enumeration) :
    (p.declareEnum e).1.outline = (p.outline.declareEnum e).1 := rfl

/-! ### Walks over base classes -/

theorem sameHierarchy_outline : p.SameHierarchy p.outline where
  target := rfl
  enums := rfl
  isClassId id := by simp [isClassId, Option.any_map, Record.outline, Record.isUnion]
  edges source := by
    simp only [edges, class?_outline]
    cases p.class? source <;> rfl

theorem isVirtualBaseOf_outline (base derived : Ty) :
    p.outline.isVirtualBaseOf base derived = p.isVirtualBaseOf base derived := by
  rw [p.sameHierarchy_outline.isVirtualBaseOf]

theorem allBases_outline (t : Ty) : p.outline.allBases t = p.allBases t := by
  rw [p.sameHierarchy_outline.allBases]

@[simp] theorem memberObjects_outline (r : Record) :
    p.outline.memberObjects r = p.memberObjects r := by
  simp only [memberObjects, baseObjects, allBases_outline, isVirtualBaseOf_outline]

/-! ### Layout -/

theorem layoutOf_outline (t : Ty) : p.outline.layoutOf t = p.layoutOf t := by
  have hstep : ∀ underlying t, p.outline.layoutStep underlying t = p.layoutStep underlying t := by
    intro underlying t
    fun_induction layoutStep p underlying t <;>
      simp_all [layoutStep, Option.filter_map, Function.comp_def, Record.outline]
  have hwithin : ∀ fuel, p.outline.layoutWithin fuel = p.layoutWithin fuel := by
    intro fuel
    funext t
    induction fuel generalizing t with
    | zero => exact hstep _ t
    | succ fuel ih => simp only [layoutWithin, hstep, ih, outline_target]
  simp only [layoutOf, hwithin]
  rfl

theorem memberLayout_outline (t : Ty) : p.outline.memberLayout t = p.memberLayout t := by
  simp only [memberLayout, layoutOf_outline, outline_target]

theorem placeBase_outline (s : Placement) (base : BaseClass) :
    p.outline.placeBase s base = p.placeBase s base := by
  simp only [placeBase, completeRecord?_outline]
  cases p.completeRecord? base.type <;> rfl

theorem placeVirtualBase_outline (s : Placement) (t : Ty) :
    p.outline.placeVirtualBase s t = p.placeVirtualBase s t := by
  simp only [placeVirtualBase, completeRecord?_outline]
  cases p.completeRecord? t <;> rfl

theorem startPlacement_outline (parts : RecordParts) :
    p.outline.startPlacement parts = p.startPlacement parts := by
  have hprimary : p.outline.primaryBaseIsDynamic parts.bases =
      p.primaryBaseIsDynamic parts.bases := by
    simp only [primaryBaseIsDynamic, completeRecord?_outline]
    cases parts.bases.find? (!·.isVirtual) with
    | none => rfl
    | some base => simp [Option.any_map, Record.outline, Facts.outline, Facts.dynamic]
  simp only [startPlacement, hprimary, outline_target]

@[simp] theorem layOut_outline (parts : RecordParts) : p.outline.layOut parts = p.layOut parts := by
  have hbase : p.outline.placeBase = p.placeBase :=
    funext fun s => funext fun base => p.placeBase_outline s base
  have hmember : p.outline.placeMember = p.placeMember := by
    funext s t
    simp only [placeMember, memberLayout_outline]
  have hvirtual : p.outline.placeVirtualBase = p.placeVirtualBase :=
    funext fun s => funext fun t => p.placeVirtualBase_outline s t
  simp only [layOut, layOutUnion, hbase, hmember, hvirtual, startPlacement_outline,
    memberLayout_outline]

/-! ### Completing -/

variable {p} {q : Program} {r s : Record} {draft other : Draft}

theorem checkBases_outline {bases : List BaseClass} :
    p.outline.checkBases r.outline = .ok bases ↔ p.checkBases r = .ok bases := by
  have hcheck : ∀ base checked, p.outline.checkBase r.outline base = .ok checked ↔
      p.checkBase r base = .ok checked := by
    intro base checked
    rw [checkBase_eq_ok, checkBase_eq_ok]
    refine and_congr_right fun _ => exists_congr fun id => ?_
    simp only [record?_outline, Option.map_eq_some_iff]
    constructor
    · rintro ⟨_, hid, hne, ⟨b, hb, rfl⟩, hc, hu⟩
      exact ⟨b, hid, hne, hb, hc, hu⟩
    · rintro ⟨b, hid, hne, hb, hc, hu⟩
      exact ⟨b.outline, hid, hne, ⟨b, hb, rfl⟩, hc, hu⟩
  rw [checkBases_eq_ok, checkBases_eq_ok]
  simp only [hcheck]
  rfl

theorem checkMembers_outline :
    p.outline.checkMembers r.outline = .ok () ↔ p.checkMembers r = .ok () := by
  rw [checkMembers_eq_ok, checkMembers_eq_ok]
  simp only [isCompleteObject_outline]
  rfl

theorem baseRecords_outline :
    p.outline.baseRecords r.outline = (p.baseRecords r).map Record.outline := by
  simp only [baseRecords, completeRecord?_outline, List.map_filterMap]
  rfl

theorem any_baseRecords_of_outline (hp : q.outline = p.outline) (hr : s.outline = r.outline)
    (has : Facts → Bool) (houtline : ∀ f : Facts, has f.outline = has f) :
    (q.baseRecords s).any (fun b => has b.facts) = (p.baseRecords r).any fun b => has b.facts := by
  have hbases : (q.baseRecords s).map Record.outline = (p.baseRecords r).map Record.outline := by
    rw [← baseRecords_outline, ← baseRecords_outline, hp, hr]
  have hany := congrArg (List.any · fun b => has b.facts) hbases
  simpa [List.any_map, Record.outline, houtline, Function.comp_def] using hany

theorem isPolymorphic_of_alike (hp : q.outline = p.outline) (hr : r.Alike s) :
    q.isPolymorphic s = p.isPolymorphic r := by
  rw [isPolymorphic, isPolymorphic, hr.virtualFunctions, hr.destructor,
    any_baseRecords_of_outline hp hr.outline (·.polymorphic) fun _ => rfl]

theorem inheritsVirtually_of_outline (hp : q.outline = p.outline) (hr : s.outline = r.outline) :
    q.inheritsVirtually s = p.inheritsVirtually r := by
  rw [inheritsVirtually, inheritsVirtually, (Record.kept_of_outline hr).bases,
    any_baseRecords_of_outline hp hr (·.hasVirtualBases) fun _ => rfl]

theorem parts_of_alike (hp : q.outline = p.outline) (hr : r.Alike s) : q.parts s = p.parts r := by
  have hkept := Record.kept_of_outline hr.outline
  rw [parts, parts, isPolymorphic_of_alike hp hr, inheritsVirtually_of_outline hp hr.outline,
    Record.isUnion, Record.isUnion, hkept.key, hkept.bases, hkept.members]

/-- The special members of alike records are defined from the same objects. -/
theorem synthesis_of_alike (hp : q.outline = p.outline) (hr : r.Alike s) :
    q.synthesis s = { p.synthesis r with program := q } := by
  have hkept := Record.kept_of_outline hr.outline
  have hobjects : q.memberObjects s = p.memberObjects r := by
    rw [← memberObjects_outline, hp, memberObjects_outline, memberObjects, memberObjects,
      baseObjects, baseObjects, hkept.bases, hkept.members]
  rw [synthesis, synthesis, hobjects, isPolymorphic_of_alike hp hr,
    inheritsVirtually_of_outline hp hr.outline, Record.isUnion, Record.isUnion, hkept.key]

/-- Programs with one outline complete alike drafts alike. -/
theorem completeRecord_outline (hp : q.outline = p.outline) (hr : draft.record.Alike other.record) :
    (q.completeRecord other).map Record.outline =
      (p.completeRecord draft).map Record.outline := by
  obtain ⟨done, hdone, heq⟩ := p.completeRecord_eq draft
  obtain ⟨done', hdone', heq'⟩ := q.completeRecord_eq other
  have hlayout : q.layOut (q.parts other.record) = p.layOut (p.parts draft.record) := by
    rw [← layOut_outline, hp, layOut_outline, parts_of_alike hp hr]
  rw [heq, heq', hlayout, Option.map_map, Option.map_map]
  congr 1
  funext layout
  obtain ⟨_, _, destructor, rfl, _, _, hdestructor⟩ := Synthesis.complete_returns (.of_result hdone)
  obtain ⟨_, _, destructor', rfl, _, _, hdestructor'⟩ :=
    Synthesis.complete_returns (.of_result hdone')
  have hvirtual : destructor'.isVirtual = destructor.isVirtual := by
    rw [Synthesis.completeDestructor_isVirtual hdestructor,
      Synthesis.completeDestructor_isVirtual hdestructor', hr.destructor,
      any_baseRecords_of_outline hp hr.outline (·.virtualDestructor) fun _ => rfl]
  have hempty : (q.baseRecords other.record).all (·.facts.empty) =
      (p.baseRecords draft.record).all (·.facts.empty) := by
    have hnot := any_baseRecords_of_outline hp hr.outline (!·.empty) fun _ => rfl
    simpa [List.any_eq_not_all_not] using hnot
  have hcompleted : ∀ (p : Program) (r : Record) constructors assignments destructor,
      (p.completed r { r with constructors, assignments, destructor := some destructor }
        layout).outline =
      { r.outline with
        complete := true
        layout
        facts := {
          polymorphic := p.isPolymorphic r
          hasVirtualBases := p.inheritsVirtually r
          virtualDestructor := destructor.isVirtual
          empty := !r.isUnion && r.members.isEmpty &&
            !(p.isPolymorphic r || p.inheritsVirtually r) &&
            (p.baseRecords r).all (·.facts.empty) } } :=
    fun _ _ _ _ _ => rfl
  have hkept := Record.kept_of_outline hr.outline
  rw [Function.comp_apply, Function.comp_apply, hcompleted, hcompleted, hr.outline, hvirtual,
    hempty, Record.isUnion, Record.isUnion, hkept.key, hkept.members, isPolymorphic_of_alike hp hr,
    inheritsVirtually_of_outline hp hr.outline]

/-- Programs with one outline finish alike drafts alike. -/
theorem finishRecord_outline (hp : q.outline = p.outline) (hr : draft.record.Alike other.record)
    {p' : Program} {t : Ty} (h : p.finishRecord draft = .ok (p', t)) :
    ∃ q', q.finishRecord other = .ok (q', t) ∧ q'.outline = p'.outline := by
  obtain ⟨bases, r, hbases, hmembers, hdone, rfl, rfl⟩ := finishRecord_eq_ok.mp h
  have hbased : { draft.record with bases }.Alike { other.record with bases } :=
    ⟨congrArg (fun r : Record => { r with bases }) hr.outline, hr.virtualFunctions, hr.destructor⟩
  have hcompleted := @completeRecord_outline p q { draft with record := { draft.record with bases } }
    { other with record := { other.record with bases } } hp hbased
  rw [hdone, Option.map_some] at hcompleted
  obtain ⟨s, hs, houtline⟩ := Option.map_eq_some_iff.mp hcompleted
  refine ⟨q.defineRecord s, finishRecord_eq_ok.mpr ⟨bases, s, ?_, ?_, hs, rfl, ?_⟩, ?_⟩
  · rw [← checkBases_outline, hp, hr.outline, checkBases_outline]
    exact hbases
  · rw [← checkMembers_outline, hp, hr.outline, checkMembers_outline]
    exact hmembers
  · rw [Record.type, Record.type, (Record.kept_of_outline houtline).id]
  · rw [outline_defineRecord, outline_defineRecord, hp, houtline]

end Program
end TypeTraits
