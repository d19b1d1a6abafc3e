import TypeTraits.Proofs.Expr.Selection
import TypeTraits.Proofs.Program.Development
import TypeTraits.Proofs.Record.Subobjects

/-!
# Facts that agree

The facts about a complete record are computed apart from each other: some before its special
members are defined and some after, some from the declaration and some from the layout. They agree
all the same, with one another and with the facts about the bases and members, since each record is
completed over records of which this holds already.
-/

namespace TypeTraits

namespace Record

/-- What the facts about a record say of the class of a subobject. -/
structure Holds (r c : Record) : Prop where
  standardLayout : r.facts.standardLayout = true → c.facts.standardLayout = true
  destructor : r.hasTrivialDestructor = true → ∃ f, c.destructor = some f ∧ f.trivial = true ∧
    f.deleted = false ∧ f.access = .pub

/-- What the facts about a record and about a direct base say of each other. -/
structure DerivesFrom (r b : Record) : Prop extends r.Holds b where
  polymorphic : b.facts.polymorphic = true → r.facts.polymorphic = true
  hasVirtualBases : b.facts.hasVirtualBases = true → r.facts.hasVirtualBases = true
  empty : r.facts.empty = true → b.facts.empty = true

/-- How the facts about a record agree with each other, with its declaration and its layout, and
with the facts about its bases and the classes of its members. -/
structure Consistent (p : Program) (r : Record) : Prop where
  destructor : r.destructor.isSome = true
  virtualDestructor : r.facts.virtualDestructor = true → r.facts.polymorphic = true
  abstract_iff : r.facts.abstract = true ↔ r.facts.unresolvedPure ≠ []
  abstract : r.facts.abstract = true → r.facts.polymorphic = true
  triviallyCopyable : r.facts.triviallyCopyable = true → r.facts.polymorphic = false ∧
    r.facts.hasVirtualBases = false ∧ r.hasTrivialDestructor = true
  empty : r.facts.empty = true → r.isUnion = false ∧ r.members = [] ∧ r.layout.align = 1
  standardLayout : r.facts.standardLayout = true → r.facts.polymorphic = false ∧
    r.facts.hasVirtualBases = false
  uniqueRepresentation : r.facts.uniqueRepresentation = true → r.facts.triviallyCopyable = true
  bases : ∀ base ∈ r.bases, ∃ b, p.completeRecord? base.type = some b ∧ r.DerivesFrom b
  members : ∀ m ∈ r.members, m.type.isReference = false → m.type.element.isRecord = true →
    ∃ c, p.completeRecord? m.type.element = some c ∧ r.Holds c

end Record

namespace Outcome

/-- A trivial outcome was trivial from the start, and each subobject has left it so. -/
theorem trivial_through {step : Outcome → MemberObject → Check (Option Outcome)}
    {objects : List MemberObject} {o result : Outcome} {q : MemberObject → Prop}
    (hstep : ∀ o m next, (step o m).Returns (some next) → next.trivial = true →
      o.trivial = true ∧ q m)
    (h : (through step o objects).Returns result) (ht : result.trivial = true) :
    o.trivial = true ∧ ∀ m ∈ objects, q m := by
  induction objects generalizing o with
  | nil =>
    cases Check.returns_pure.mp h
    exact ⟨ht, by simp⟩
  | cons m rest ih =>
    obtain ⟨next, hnext, h⟩ := Check.Returns.bind h
    cases next with
    | none =>
      cases Check.returns_pure.mp h
      cases ht
    | some next =>
      obtain ⟨htrivial, hrest⟩ := ih h
      obtain ⟨ho, hm⟩ := hstep o m next hnext htrivial
      exact ⟨ho, List.forall_mem_cons.mpr ⟨hm, hrest⟩⟩

end Outcome

theorem Special.isCopyOrMove_of_ofAssignment? {cls : Ty} {f : FunctionDecl} {kind : Special}
    (h : Special.ofAssignment? cls f = some kind) : kind.isCopyOrMove = true := by
  unfold Special.ofAssignment? at h
  split at h
  · split at h <;> split at h <;> try cases h
    all_goals first | rfl | split <;> rfl
  · cases h

namespace Synthesis

variable {s : Synthesis} {o : Outcome} {draft : Draft} {inheritsVirtual : Bool} {f : FunctionDecl}

theorem not_dynamic_of_constructFrom {copies : Bool} {arg : Ty → Expr}
    (h : (s.constructFrom copies arg).Returns o) (ht : o.trivial = true) : s.dynamic = false := by
  have hstart := Outcome.trivial_through (q := fun _ => True) ?_ h ht
  · simpa using hstart.1
  · intro o m next hnext ht
    refine ⟨?_, .intro⟩
    rcases s.tells_returns.constructStep_cases hnext with
      ⟨_, rfl⟩ | ⟨_, e, _, ⟨_, _, rfl⟩ | ⟨_, _, rfl⟩⟩
    · exact ht
    · exact ht
    · exact (Bool.and_eq_true_iff.mp ht).1

theorem not_dynamic_of_assignFrom {arg : Ty → Expr} (h : (s.assignFrom arg).Returns o)
    (ht : o.trivial = true) : s.dynamic = false := by
  have hstart := Outcome.trivial_through (q := fun _ => True) ?_ h ht
  · simpa using hstart.1
  · intro o m next hnext ht
    refine ⟨?_, .intro⟩
    obtain ⟨_, e, _, ⟨_, _, rfl⟩ | ⟨_, rfl⟩⟩ := s.tells_returns.assignStep_cases hnext
    · exact ht
    · exact (Bool.and_eq_true_iff.mp ht).1

/-- No copy or move operation of a dynamic class comes out trivial. -/
theorem not_dynamic_of_yields {kind : Special} (hkind : kind.isCopyOrMove = true)
    (h : s.Yields kind o) (ht : o.trivial = true) : s.dynamic = false := by
  cases h with
  | impossible => cases ht
  | default _ => cases hkind
  | construct copies arg _ h => exact not_dynamic_of_constructFrom h ht
  | assign arg _ h => exact not_dynamic_of_assignFrom h ht

/-- A function that the compiler defines is the special member that it was declared as. -/
theorem Defines.special {kind : Special} {base : FunctionDecl} (h : s.Defines kind f base)
    (cls : Ty) : Special.ofConstructor? cls f = Special.ofConstructor? cls base := by
  obtain ⟨_, _, _, _, rfl⟩ := h
  rfl

theorem not_dynamic_of_defines {kind : Special} {base : FunctionDecl}
    (hkind : kind.isCopyOrMove = true) (h : s.Defines kind f base) (ht : f.trivial = true) :
    s.dynamic = false := by
  obtain ⟨o, _, _, ho, rfl⟩ := h
  simp only [Outcome.apply, Bool.and_eq_true] at ht
  exact not_dynamic_of_yields hkind ho ht.1

/-- A trivial destructor destroys each subobject trivially. -/
theorem destroy_of_trivial_destructor (h : s.destructor.Returns o) (ht : o.trivial = true) :
    ∀ m ∈ s.objects, m.reference = none →
      ∃ e, s.program.destroy m.type = .ok e ∧ e.trivial = true := by
  refine (Outcome.trivial_through ?_ h ht).2
  intro o m next hnext ht
  rcases s.tells_returns.destroyStep_cases hnext with ⟨hreference, rfl⟩ | ⟨_, e, he, rfl⟩
  · exact ⟨ht, fun hnone => by simp [hnone] at hreference⟩
  · obtain ⟨ho, htrivial⟩ := Bool.and_eq_true_iff.mp ht
    exact ⟨ho, fun _ => ⟨e, he, htrivial⟩⟩

/-- A destructor is trivial only if the compiler defines it from trivial ones. -/
theorem completeDestructor_trivial (hwritten : ∀ f ∈ draft.record.allFunctions, f.IsUserWritten)
    (h : (s.completeDestructor draft inheritsVirtual).Returns f) (ht : f.trivial = true) :
    ∃ o, s.destructor.Returns o ∧ o.trivial = true := by
  unfold completeDestructor at h
  obtain ⟨o, ho, h⟩ := h.bind
  cases Check.returns_pure.mp h
  refine ⟨o, ho, ?_⟩
  have hvirtual : ∀ g : FunctionDecl,
      (if g.isVirtual = true then { g with trivial := false } else g).trivial = true →
        g.trivial = true := by
    intro g
    split
    · exact fun h => nomatch h
    · exact id
  have hinherits : ∀ g : FunctionDecl,
      (if inheritsVirtual = true then { g with isVirtual := true } else g).trivial =
        g.trivial := by
    intro g
    split <;> rfl
  replace ht := hvirtual _ ht
  rw [hinherits] at ht
  split at ht
  · simp only [Outcome.implicitly, Outcome.apply, Bool.and_eq_true] at ht
    exact ht.1
  · rename_i declared hdeclared
    have hmem : declared ∈ draft.record.allFunctions := by simp [Record.allFunctions, hdeclared]
    have hdeclared := (hwritten declared hmem).trivial
    split at ht
    · simp only [Outcome.apply, Bool.and_eq_true] at ht
      exact ht.1
    · cases ht
    all_goals simp [ht] at hdeclared

end Synthesis

namespace Program

variable {p : Program} {t : Ty} {r : Record}

/-- Empty bases are placed without alignment of their own. -/
theorem placeBases_of_empty {bases : List BaseClass} {s s' : Placement}
    (hbases : ∀ base ∈ bases, base.isVirtual = false ∧
      ∃ b, p.completeRecord? base.type = some b ∧ b.facts.empty = true ∧ b.layout.align = 1)
    (hs : s.align = 1 ∧ s.virtualBases = []) (h : bases.foldlM p.placeBase s = some s') :
    s'.align = 1 ∧ s'.virtualBases = [] := by
  induction bases generalizing s with
  | nil =>
    cases h
    exact hs
  | cons base rest ih =>
    obtain ⟨⟨hvirtual, b, hb, hempty, halign⟩, hrest⟩ := List.forall_mem_cons.mp hbases
    rw [List.foldlM_cons, Option.bind_eq_bind, Option.bind_eq_some_iff] at h
    obtain ⟨next, hnext, h⟩ := h
    refine ih hrest ?_ h
    rw [placeBase, if_neg (by simp [hvirtual]), hb] at hnext
    dsimp only at hnext
    rw [if_pos hempty] at hnext
    split at hnext
    · cases hnext
      simp [halign, hs]
    · obtain ⟨offset, _, hnext⟩ := Option.bind_eq_some_iff.mp hnext
      cases hnext
      simp [halign, hs]

theorem align_of_empty {parts : RecordParts} {layout : Layout} (hunion : parts.isUnion = false)
    (hdynamic : parts.dynamic = false) (hmembers : parts.members = [])
    (hbases : ∀ base ∈ parts.bases, base.isVirtual = false ∧
      ∃ b, p.completeRecord? base.type = some b ∧ b.facts.empty = true ∧ b.layout.align = 1)
    (h : p.layOut parts = some layout) : layout.align = 1 := by
  have hstart : p.startPlacement parts = {} := by simp [startPlacement, hdynamic]
  rw [layOut, if_neg (by simp [hunion]), hstart, hmembers] at h
  obtain ⟨s, hs, h⟩ := Option.bind_eq_some_iff.mp h
  obtain ⟨halign, hnone⟩ := placeBases_of_empty hbases ⟨rfl, rfl⟩ hs
  rw [List.foldlM_nil, Option.bind_eq_bind, Option.pure_def, Option.bind_some, hnone,
    List.foldlM_nil, Option.pure_def, Option.bind_some] at h
  obtain ⟨size, _, h⟩ := Option.bind_eq_some_iff.mp h
  cases h
  exact halign

section

variable {declared done : Record} {layout : Layout}

@[simp] theorem completed_polymorphic :
    (p.completed declared done layout).facts.polymorphic = p.isPolymorphic declared := rfl

@[simp] theorem completed_hasVirtualBases :
    (p.completed declared done layout).facts.hasVirtualBases = p.inheritsVirtually declared := rfl

@[simp] theorem completed_triviallyCopyable :
    (p.completed declared done layout).facts.triviallyCopyable = done.isTriviallyCopyable := rfl

end

/-- A function is left pure if the record declares it pure, or a base leaves it pure and the record
does not declare it. -/
theorem mem_unresolvedPure {name : String} : name ∈ p.unresolvedPure r ↔
    (∃ b ∈ p.baseRecords r, name ∈ b.facts.unresolvedPure ∧
      ∀ pure, ⟨name, pure⟩ ∉ r.virtualFunctions) ∨ ⟨name, true⟩ ∈ r.virtualFunctions := by
  have hfold : ∀ names start : List String,
      name ∈ names.foldl (fun names name => if name ∈ names then names else names ++ [name]) start ↔
        name ∈ start ∨ name ∈ names := by
    intro names
    induction names with
    | nil => simp
    | cons first names ih =>
      intro start
      rw [List.foldl_cons, ih]
      split <;> grind
  have hundeclared : (!r.virtualFunctions.any (·.name == name)) = true ↔
      ∀ pure, ⟨name, pure⟩ ∉ r.virtualFunctions := by
    simp only [Bool.not_eq_true', List.any_eq_false, beq_iff_eq]
    exact ⟨fun h pure hmem => h _ hmem rfl, fun h f hf hname => h f.pure (hname ▸ hf)⟩
  rw [unresolvedPure, hfold]
  simp only [List.not_mem_nil, false_or, List.mem_append, List.mem_flatMap, List.mem_filter,
    List.mem_map, hundeclared]
  refine or_congr_right ⟨?_, fun h => ⟨_, ⟨h, rfl⟩, rfl⟩⟩
  rintro ⟨⟨_, _⟩, ⟨hf, rfl⟩, rfl⟩
  exact hf

/-- Nothing is left pure if the record declares what its bases leave pure, and nothing pure. -/
theorem unresolvedPure_eq_nil_iff : p.unresolvedPure r = [] ↔
    (∀ b ∈ p.baseRecords r, ∀ name ∈ b.facts.unresolvedPure,
      r.virtualFunctions.any (·.name == name) = true) ∧
    ∀ f ∈ r.virtualFunctions, f.pure = false := by
  rw [List.eq_nil_iff_forall_not_mem]
  simp only [mem_unresolvedPure, not_or, not_exists, not_and]
  constructor
  · intro h
    constructor
    · intro b hb name hname
      have hdeclared := (h name).1 b hb hname
      simp only [not_forall, not_not] at hdeclared
      obtain ⟨pure, hf⟩ := hdeclared
      exact List.any_eq_true.mpr ⟨_, hf, beq_self_eq_true name⟩
    · rintro ⟨name, pure⟩ hf
      cases pure with
      | false => rfl
      | true => exact absurd hf (h name).2
  · rintro ⟨hbases, hown⟩ name
    constructor
    · intro b hb hname hundeclared
      obtain ⟨f, hf, heq⟩ := List.any_eq_true.mp (hbases b hb name hname)
      rw [beq_iff_eq] at heq
      exact hundeclared f.pure (heq ▸ hf)
    · intro hf
      cases hown _ hf

theorem unresolvedPure_ne_nil (h : p.unresolvedPure r ≠ []) :
    (∃ b ∈ p.baseRecords r, b.facts.unresolvedPure ≠ []) ∨ r.virtualFunctions ≠ [] := by
  by_contra hnone
  simp only [not_or, not_exists, not_and, ne_eq, not_not] at hnone
  obtain ⟨hbases, hown⟩ := hnone
  refine h (unresolvedPure_eq_nil_iff.mpr ⟨fun b hb name hname => ?_, by simp [hown]⟩)
  simp [hbases b hb] at hname

end Program

/-- What agrees stays so: the bases and the classes of the members are complete. -/
theorem Record.Consistent.extends {p q : Program} {r : Record} (h : r.Consistent p)
    (hpq : p.Extends q) : r.Consistent q :=
  { h with
    bases := fun base hbase => by
      obtain ⟨b, hb, hderives⟩ := h.bases base hbase
      exact ⟨b, hpq.completeRecord? hb, hderives⟩
    members := fun m hm href hrecord => by
      obtain ⟨c, hc, hholds⟩ := h.members m hm href hrecord
      exact ⟨c, hpq.completeRecord? hc, hholds⟩ }

namespace Development

variable {d : Development} {draft : Draft} {r : Record}

namespace Completes

/-- The direct bases are complete classes. -/
theorem completeBase (h : d.Completes draft r) : ∀ base ∈ draft.record.bases, ∃ b,
    d.program.completeRecord? base.type = some b ∧ b ∈ d.program.baseRecords draft.record ∧
      b.isUnion = false := by
  intro base hbase
  obtain ⟨id, b, ht, -, hb, hc, hunion⟩ := h.bases base hbase
  have hb : d.program.completeRecord? base.type = some b :=
    Program.completeRecord?_eq_some.mpr ⟨id, by rw [ht]; rfl, hb, hc⟩
  exact ⟨b, hb, List.mem_filterMap.mpr ⟨base, hbase, hb⟩, hunion⟩

/-- A direct base of a completed record, whose facts agree already. -/
theorem base (h : d.Completes draft r)
    (hcomplete : ∀ id r, d.program.record? id = some r → r.complete = true →
      r.Consistent d.program) :
    ∀ base ∈ draft.record.bases, ∃ b, d.program.completeRecord? base.type = some b ∧
      b ∈ d.program.baseRecords draft.record ∧ b.Consistent d.program := by
  intro base hbase
  obtain ⟨b, hb, hmem, -⟩ := h.completeBase base hbase
  obtain ⟨id, -, hrecord, hc⟩ := Program.completeRecord?_eq_some.mp hb
  exact ⟨b, hb, hmem, hcomplete id b hrecord hc⟩

theorem baseRecord (h : d.Completes draft r)
    (hcomplete : ∀ id r, d.program.record? id = some r → r.complete = true →
      r.Consistent d.program) :
    ∀ b ∈ d.program.baseRecords draft.record, b.Consistent d.program := by
  intro b hb
  obtain ⟨base, hbase, hb'⟩ := List.mem_filterMap.mp hb
  obtain ⟨b', hb'', _, hconsistent⟩ := h.base hcomplete base hbase
  cases hb'.symm.trans hb''
  exact hconsistent

/-- The class of a data member that holds an object is complete. -/
theorem member (h : d.Completes draft r) : ∀ m ∈ draft.record.members,
    m.type.isReference = false → m.type.element.isRecord = true →
      ∃ c, d.program.completeRecord? m.type.element = some c := by
  intro m hm href hrecord
  obtain ⟨id, hid⟩ := Option.isSome_iff_exists.mp hrecord
  have hobject : d.program.isCompleteObject m.type = true := by
    simpa [href] using Program.checkMembers_eq_ok.mp h.members m hm
  obtain ⟨c, hc, hcomplete⟩ :=
    Program.isCompleteRecord_iff.mp (Program.isCompleteRecord_of_element hobject hid)
  exact ⟨c, Program.completeRecord?_eq_some.mpr ⟨id, hid, hc, hcomplete⟩⟩

/-- A record whose destructor is trivial holds only objects whose destructors are. -/
theorem destroys (h : d.Completes draft r) {m : MemberObject}
    (hm : m ∈ d.program.memberObjects draft.record) (hreference : m.reference = none)
    {c : Record} (hc : d.program.completeRecord? m.type = some c)
    (ht : r.hasTrivialDestructor = true) :
    ∃ f, c.destructor = some f ∧ f.trivial = true ∧ f.deleted = false ∧ f.access = .pub := by
  obtain ⟨done, layout, hdone, _, rfl⟩ := Program.completeRecord_eq_some h.completed
  obtain ⟨_, _, destructor, rfl, _, _, hdestructor⟩ := Synthesis.complete_returns hdone
  have htrivial : destructor.trivial = true := by
    simp only [Record.hasTrivialDestructor, Program.completed, Option.any_some,
      Bool.and_eq_true] at ht
    exact ht.2
  obtain ⟨o, ho, htrivial⟩ := Synthesis.completeDestructor_trivial h.written hdestructor htrivial
  obtain ⟨e, he, htrivial⟩ :=
    Synthesis.destroy_of_trivial_destructor ho htrivial m hm hreference
  obtain ⟨id, hid, _⟩ := Program.completeRecord?_eq_some.mp hc
  obtain ⟨c', f, hc', hf, hdeleted, haccess, rfl⟩ :=
    Program.destroy_eq_ok (Option.isSome_of_eq_some hid) he
  cases hc.symm.trans hc'
  exact ⟨f, hf, htrivial, hdeleted, haccess⟩

theorem isPolymorphic_of_virtualDestructor (h : d.Completes draft r)
    (hcomplete : ∀ id r, d.program.record? id = some r → r.complete = true →
      r.Consistent d.program)
    (hvirtual : r.facts.virtualDestructor = true) : r.facts.polymorphic = true := by
  obtain ⟨done, layout, hdone, _, rfl⟩ := Program.completeRecord_eq_some h.completed
  obtain ⟨_, _, destructor, rfl, _, _, hdestructor⟩ := Synthesis.complete_returns hdone
  have hvirtual : destructor.isVirtual = true := by
    simpa [Program.completed, Program.facts] using hvirtual
  rw [Synthesis.completeDestructor_isVirtual hdestructor, Bool.or_eq_true] at hvirtual
  change d.program.isPolymorphic draft.record = true
  rw [Program.isPolymorphic, Bool.or_eq_true, Bool.or_eq_true]
  rcases hvirtual with hdeclared | hinherited
  · exact Or.inl (Or.inr hdeclared)
  · obtain ⟨b, hb, hvirtual⟩ := List.any_eq_true.mp hinherited
    have hpolymorphic := (h.baseRecord hcomplete b hb).virtualDestructor hvirtual
    exact Or.inr (List.any_eq_true.mpr ⟨b, hb, hpolymorphic⟩)

theorem unresolvedPure (h : d.Completes draft r) :
    r.facts.unresolvedPure = d.program.unresolvedPure draft.record := by
  obtain ⟨_, _, hdone, _, rfl⟩ := Program.completeRecord_eq_some h.completed
  obtain ⟨_, _, _, rfl, _⟩ := Synthesis.complete_returns hdone
  rfl

theorem virtualFunctions (h : d.Completes draft r) :
    r.virtualFunctions = draft.record.virtualFunctions := by
  obtain ⟨_, _, hdone, _, rfl⟩ := Program.completeRecord_eq_some h.completed
  obtain ⟨_, _, _, rfl, _⟩ := Synthesis.complete_returns hdone
  rfl

theorem abstract_iff (h : d.Completes draft r) :
    r.facts.abstract = true ↔ r.facts.unresolvedPure ≠ [] := by
  obtain ⟨done, layout, _, _, rfl⟩ := Program.completeRecord_eq_some h.completed
  simp [Program.completed, Program.facts]

theorem isPolymorphic_of_abstract (h : d.Completes draft r)
    (hcomplete : ∀ id r, d.program.record? id = some r → r.complete = true →
      r.Consistent d.program)
    (habstract : r.facts.unresolvedPure ≠ []) : r.facts.polymorphic = true := by
  obtain ⟨done, layout, hdone, _, rfl⟩ := Program.completeRecord_eq_some h.completed
  obtain ⟨_, _, _, rfl, _⟩ := Synthesis.complete_returns hdone
  change d.program.isPolymorphic draft.record = true
  rw [Program.isPolymorphic, Bool.or_eq_true, Bool.or_eq_true]
  rcases Program.unresolvedPure_ne_nil habstract with ⟨b, hb, hpure⟩ | hown
  · have hconsistent := h.baseRecord hcomplete b hb
    have hpolymorphic := hconsistent.abstract (hconsistent.abstract_iff.mpr hpure)
    exact Or.inr (List.any_eq_true.mpr ⟨b, hb, hpolymorphic⟩)
  · exact Or.inl (Or.inl (by simpa using hown))

/-- Only the compiler makes copy operations trivial, and never those of a dynamic class. -/
theorem not_dynamic_of_triviallyCopyable (h : d.Completes draft r)
    (ht : r.facts.triviallyCopyable = true) :
    r.facts.polymorphic = false ∧ r.facts.hasVirtualBases = false := by
  obtain ⟨done, layout, hdone, _, rfl⟩ := Program.completeRecord_eq_some h.completed
  obtain ⟨constructors, assignments, _, rfl, hconstructors, hassignments, _⟩ :=
    Synthesis.complete_returns hdone
  suffices hdynamic : (d.program.synthesis draft.record).dynamic = false from
    Bool.or_eq_false_iff.mp hdynamic
  simp only [Program.completed_triviallyCopyable, Record.isTriviallyCopyable, Bool.and_eq_true,
    Bool.not_eq_true', List.isEmpty_eq_false_iff_exists_mem, List.all_eq_true] at ht
  obtain ⟨⟨⟨f, hf⟩, htrivial⟩, _⟩ := ht
  have htrivial := htrivial f hf
  have hwritten : f ∉ draft.record.allFunctions := by
    intro hmem
    simp [(h.written f hmem).trivial] at htrivial
  simp only [Record.eligibleCopies, List.mem_filter, List.mem_append] at hf
  rcases hf.1 with ⟨hmem, hspecial⟩ | ⟨hmem, _⟩
  · rcases hconstructors f hmem with hmem | ⟨kind, base, hkind, hdefines⟩
    · exact absurd (by simp [Record.allFunctions, hmem]) hwritten
    · have hcopies : kind.isCopyOrMove = true := by
        have hkind := (hdefines.special draft.record.type).trans hkind
        change (Special.ofConstructor? draft.record.type f).any (·.isCopyOrMove) = true at hspecial
        rwa [hkind] at hspecial
      exact Synthesis.not_dynamic_of_defines hcopies hdefines htrivial
  · rcases hassignments f hmem with hmem | ⟨kind, base, hkind, hdefines⟩
    · exact absurd (by simp [Record.allFunctions, hmem]) hwritten
    · exact Synthesis.not_dynamic_of_defines (Special.isCopyOrMove_of_ofAssignment? hkind) hdefines
        htrivial

/-- An empty class holds nothing but empty bases, none of them virtual. -/
theorem empty (h : d.Completes draft r)
    (hcomplete : ∀ id r, d.program.record? id = some r → r.complete = true →
      r.Consistent d.program)
    (hempty : r.facts.empty = true) :
    r.isUnion = false ∧ r.members = [] ∧ r.layout.align = 1 := by
  obtain ⟨done, layout, hdone, hlayout, rfl⟩ := Program.completeRecord_eq_some h.completed
  obtain ⟨_, _, _, rfl, _⟩ := Synthesis.complete_returns hdone
  simp only [Program.completed, Program.facts, Bool.and_eq_true, Bool.not_eq_true',
    List.isEmpty_iff, List.all_eq_true] at hempty
  obtain ⟨⟨⟨hunion, hmembers⟩, hdynamic⟩, hbases⟩ := hempty
  refine ⟨hunion, hmembers, ?_⟩
  have hparts : (d.program.parts draft.record).members = [] := by simp [Program.parts, hmembers]
  refine Program.align_of_empty hunion hdynamic hparts ?_ hlayout
  intro base hbase
  obtain ⟨b, hb, hmem, hconsistent⟩ := h.base hcomplete base hbase
  have hvirtual : base.isVirtual = false := by
    have hnone := (Bool.or_eq_false_iff.mp hdynamic).2
    rw [Program.inheritsVirtually, Bool.or_eq_false_iff, List.any_eq_false] at hnone
    simpa using hnone.1 base hbase
  have hbempty : b.facts.empty = true := hbases b hmem
  exact ⟨hvirtual, b, hb, hbempty, (hconsistent.empty hbempty).2.2⟩

/-- What standard layout asks of a class. -/
theorem standardLayout (h : d.Completes draft r) (hstandard : r.facts.standardLayout = true) :
    (r.facts.polymorphic = false ∧ r.facts.hasVirtualBases = false) ∧
    (∀ b ∈ d.program.baseRecords draft.record, b.facts.standardLayout = true) ∧
    ∀ m ∈ draft.record.members, ∀ c, d.program.completeRecord? m.type.element = some c →
      c.facts.standardLayout = true := by
  obtain ⟨done, layout, hdone, _, rfl⟩ := Program.completeRecord_eq_some h.completed
  obtain ⟨_, _, _, rfl, _⟩ := Synthesis.complete_returns hdone
  simp only [Program.completed, Program.facts, Program.isStandardLayout, Bool.and_eq_true,
    Bool.not_eq_true', List.all_eq_true] at hstandard
  obtain ⟨hdynamic, ⟨⟨hbases, _⟩, hmembers⟩, _⟩ := hstandard
  refine ⟨Bool.or_eq_false_iff.mp hdynamic, hbases, ?_⟩
  intro m hm c hc
  have hmember := hmembers m hm
  rw [Program.isStandardLayoutMember, hc, Bool.and_eq_true] at hmember
  exact hmember.2

/-- A base is held as an object of its class. -/
theorem derivesFrom (h : d.Completes draft r)
    (hcomplete : ∀ id r, d.program.record? id = some r → r.complete = true →
      r.Consistent d.program) :
    ∀ base ∈ r.bases, ∃ b, d.program.completeRecord? base.type = some b ∧ r.DerivesFrom b := by
  intro base hbase
  rw [h.kept.bases] at hbase
  obtain ⟨b, hb, hmem, _⟩ := h.base hcomplete base hbase
  have hobject : ({ type := base.type, isBase := true } : MemberObject) ∈
      d.program.memberObjects draft.record :=
    List.mem_append_left _ (List.mem_map_of_mem (d.program.mem_baseObjects hbase))
  refine ⟨b, hb, ⟨fun hstandard => (h.standardLayout hstandard).2.1 b hmem,
    h.destroys hobject rfl hb⟩, ?_, ?_, ?_⟩
  all_goals
    obtain ⟨done, layout, hdone, _, rfl⟩ := Program.completeRecord_eq_some h.completed
    obtain ⟨_, _, _, rfl, _⟩ := Synthesis.complete_returns hdone
  · intro hpolymorphic
    rw [Program.completed_polymorphic, Program.isPolymorphic, Bool.or_eq_true]
    exact Or.inr (List.any_eq_true.mpr ⟨b, hmem, hpolymorphic⟩)
  · intro hvirtual
    rw [Program.completed_hasVirtualBases, Program.inheritsVirtually, Bool.or_eq_true]
    exact Or.inr (List.any_eq_true.mpr ⟨b, hmem, hvirtual⟩)
  · intro hempty
    simp only [Program.completed, Program.facts, Bool.and_eq_true, List.all_eq_true] at hempty
    exact hempty.2 b hmem

/-- A data member that is no reference is held as an object of its class, or as several. -/
theorem holds (h : d.Completes draft r) : ∀ m ∈ r.members, m.type.isReference = false →
    m.type.element.isRecord = true →
      ∃ c, d.program.completeRecord? m.type.element = some c ∧ r.Holds c := by
  intro m hm href hrecord
  rw [h.kept.members] at hm
  obtain ⟨c, hc⟩ := h.member m hm href hrecord
  have hobject : Program.memberObject m ∈ d.program.memberObjects draft.record :=
    List.mem_append_right _ (List.mem_map_of_mem hm)
  have htype : (Program.memberObject m).type = m.type.element := by
    simp [Program.memberObject, href]
  have hreference : (Program.memberObject m).reference = none := by
    simpa [Program.memberObject, Ty.isReference] using href
  exact ⟨c, hc, fun hstandard => (h.standardLayout hstandard).2.2 m hm c hc,
    h.destroys hobject hreference (htype.symm ▸ hc)⟩

/-- The facts about a completed record agree, if those about the complete records do. -/
theorem consistent (h : d.Completes draft r)
    (hcomplete : ∀ id r, d.program.record? id = some r → r.complete = true →
      r.Consistent d.program) : r.Consistent d.program where
  destructor := by
    obtain ⟨done, layout, hdone, _, rfl⟩ := Program.completeRecord_eq_some h.completed
    obtain ⟨_, _, _, rfl, _⟩ := Synthesis.complete_returns hdone
    rfl
  virtualDestructor := h.isPolymorphic_of_virtualDestructor hcomplete
  abstract_iff := h.abstract_iff
  abstract habstract := h.isPolymorphic_of_abstract hcomplete (h.abstract_iff.mp habstract)
  triviallyCopyable ht := by
    obtain ⟨hpolymorphic, hvirtual⟩ := h.not_dynamic_of_triviallyCopyable ht
    obtain ⟨done, layout, _, _, rfl⟩ := Program.completeRecord_eq_some h.completed
    rw [Program.completed_triviallyCopyable, Record.isTriviallyCopyable, Bool.and_eq_true] at ht
    exact ⟨hpolymorphic, hvirtual, ht.2⟩
  empty := h.empty hcomplete
  standardLayout hstandard := (h.standardLayout hstandard).1
  uniqueRepresentation hunique := by
    obtain ⟨done, layout, _, _, rfl⟩ := Program.completeRecord_eq_some h.completed
    rw [Program.completed_triviallyCopyable]
    by_contra hnot
    have hunique : d.program.isUniquelyRepresented done done.isTriviallyCopyable layout.size =
      true := hunique
    simp [Program.isUniquelyRepresented, hnot] at hunique
  bases := h.derivesFrom hcomplete
  members := h.holds

end Completes

/-- The facts about every complete record agree. -/
theorem facts_consistent (h : d.Reachable) : ∀ id r, d.program.record? id = some r →
    r.complete = true → r.Consistent d.program := by
  refine Reachable.forall_complete (Q := fun p r => r.Consistent p) ?_ ?_ h
  · exact fun p q r hpq hr => hr.extends hpq
  · intro d draft r _ hcomplete hc
    exact (hc.consistent hcomplete).extends hc.extends_defineRecord

/-- An empty class and one that derives from it, an abstract class and one that has it as a virtual
base. -/
def shapes : Development :=
  run .lp64
    [.start "Tag" .struct,
      .finish ⟨1⟩,
      .start "Pair" .struct,
      .write ⟨2⟩ (.base (.record ⟨1⟩)),
      .write ⟨2⟩ (.member "parts" (.array (.builtin .int) (some 2))),
      .finish ⟨2⟩,
      .start "Shape" .struct,
      .write ⟨3⟩ (.pureVirtual "area"),
      .write ⟨3⟩ .virtualDestructor,
      .finish ⟨3⟩,
      .start "Circle" .struct,
      .write ⟨4⟩ (.virtualBase (.record ⟨3⟩)),
      .write ⟨4⟩ (.virtualFunction "area"),
      .finish ⟨4⟩]

theorem reachable_shapes : shapes.Reachable := by
  refine (Reachable.fresh .lp64).performAll ?_
  intro a ha
  simp only [List.mem_cons, List.not_mem_nil, or_false] at ha
  rcases ha with rfl | rfl | rfl | rfl | rfl | rfl | rfl | rfl | rfl | rfl | rfl | rfl | rfl | rfl
  all_goals first | trivial | exact RecordStep.isWritten_of_types rfl (by decide)

theorem facts_consistent_shapes : shapes.Reachable ∧
    ∀ id ∈ [1, 2, 3, 4], ∃ r, shapes.program.record? ⟨id⟩ = some r ∧ r.complete = true ∧
      (r.facts.empty || r.facts.uniqueRepresentation || r.facts.abstract ||
        r.facts.hasVirtualBases) = true ∧ r.Consistent shapes.program := by
  refine ⟨reachable_shapes, ?_⟩
  intro id hid
  have hrecord : ∀ id ∈ [1, 2, 3, 4], ((shapes.program.record? ⟨id⟩).any fun r =>
      r.complete && (r.facts.empty || r.facts.uniqueRepresentation || r.facts.abstract ||
        r.facts.hasVirtualBases)) = true := by decide +kernel
  obtain ⟨r, hr, hfacts⟩ := (Option.any_eq_true _ _).mp (hrecord id hid)
  obtain ⟨hc, hfacts⟩ := Bool.and_eq_true_iff.mp hfacts
  exact ⟨r, hr, hc, hfacts, facts_consistent reachable_shapes ⟨id⟩ r hr hc⟩

end Development
end TypeTraits
