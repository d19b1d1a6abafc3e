import TypeTraits.Proofs.Expr.RootClass
import TypeTraits.Proofs.Record.ImplicitMembers
import TypeTraits.Proofs.Trait.Strength

/-!
# What implicit members promise

A class without bases that declares no constructor, assignment operator or destructor should be
constructed, copied, assigned and destroyed no better than each of its data members. Its special
members are defined while it is incomplete. What they say of construction from nothing and of
destruction lasts, and so does what they say of copies of a member that no conversion function turns
into the class itself.
-/

namespace TypeTraits

open Program

namespace Outcome

/-- A function that may be called is as its outcome, or promises less. -/
theorem of_calls {p : Program} {o : Outcome} {f : FunctionDecl} {args : List Expr} {e : Effects}
    (hdeleted : f.deleted = o.deleted) (hf : f.effects ≤ o.effects) (h : p.Calls f args e) :
    o.deleted = false ∧ e ≤ o.effects := by
  have husable := h.offers.usable
  rw [FunctionDecl.isUsable, hdeleted, Bool.and_eq_true] at husable
  exact ⟨by simpa using husable.1, le_trans h.effects hf⟩

/-- Of a copy and a move operation only the copy operation takes a `const` lvalue, and only if its
parameter is `const`. -/
theorem copy_of_calls {p : Program} {draft : Draft} {copy move : Outcome} {constParam : Bool}
    {copied moved : Ty} {f : FunctionDecl} {e : Effects}
    (hf : f ∈ copy.implicitly [if constParam then draft.constRef else draft.lvalueRef] copied ::
      if move.deleted then [] else [move.implicitly [draft.rvalueRef] moved])
    (h : p.Calls f [.lvalue (draft.type.qualify .const)] e) :
    constParam = true ∧ copy.deleted = false ∧ e ≤ copy.effects := by
  rcases List.mem_cons.mp hf with rfl | hmove
  · refine ⟨?_, of_calls rfl (copy.effects_apply_le _) h⟩
    cases constParam with
    | true => rfl
    | false =>
      obtain ⟨_, _, hconvert⟩ := h.converts (.lvalue (draft.type.qualify .const), draft.lvalueRef)
        List.mem_cons_self
      have hparam : draft.lvalueRef.referent? = some (draft.type, false) := rfl
      have hcovers := (covers_of_convert hparam rfl rfl rfl hconvert).2
      cases hcovers
  · split at hmove
    · cases hmove
    · cases List.mem_singleton.mp hmove
      obtain ⟨_, _, hconvert⟩ := h.converts (.lvalue (draft.type.qualify .const), draft.rvalueRef)
        List.mem_cons_self
      have hparam : draft.rvalueRef.referent? = some (draft.type, true) := rfl
      have hlvalue := (covers_of_convert hparam rfl rfl rfl hconvert).1
      cases hlvalue

end Outcome

namespace ImplicitOutcomes

variable {o : ImplicitOutcomes} {s : Synthesis} {draft : Draft} {isVirtual : Bool} {r : Record}
  {q : Program} {e : Effects}

/-- Implicit constructors take nothing, or copy or move. -/
theorem Give.copiesOnly (h : o.Give s draft isVirtual r) (hid : r.id = draft.record.id) :
    r.CopiesOnly := by
  intro f hf
  rw [h.constructors, ImplicitOutcomes.constructors, List.mem_cons, List.mem_cons] at hf
  rcases hf with rfl | rfl | hmove
  · exact ⟨rfl, by simp [Outcome.implicitly, Outcome.apply]⟩
  · refine ⟨rfl, fun param hparam => ?_⟩
    cases List.mem_singleton.mp hparam
    cases s.copiesConst
    · exact ⟨_, _, rfl, hid ▸ rfl⟩
    · exact ⟨_, _, rfl, hid ▸ rfl⟩
  · split at hmove
    · cases hmove
    · cases List.mem_singleton.mp hmove
      refine ⟨rfl, fun param hparam => ?_⟩
      cases List.mem_singleton.mp hparam
      exact ⟨_, _, rfl, hid ▸ rfl⟩

/-- What constructs an object of the class from nothing is the default constructor. -/
theorem Give.default_of_directInit (h : o.Give s draft isVirtual r)
    (hr : q.completeRecord? draft.type = some r) (he : (q.directInit draft.type []).Returns e) :
    o.default.deleted = false ∧ e ≤ o.default.effects := by
  obtain ⟨r', hr', _, f, hf, hcalls⟩ := calls_of_directInit rfl (by simp) he
  cases hr.symm.trans hr'
  have hmem : f ∈ r.constructorsTaking 0 :=
    List.mem_filter.mpr ⟨hf, (h.accepts_iff hf).mp hcalls.offers.accepts⟩
  rw [h.constructorsTaking] at hmem
  cases List.mem_singleton.mp hmem
  refine Outcome.of_calls rfl ?_ hcalls
  exact o.default.effects_apply_le { params := [], origin := .implicit }

/-- What copies an object of the class is the copy constructor. -/
theorem Give.copy_of_constructCopy (h : o.Give s draft isVirtual r)
    (hr : q.completeRecord? draft.type = some r) (he : (q.constructCopy draft.type).Returns e) :
    s.copiesConst = true ∧ o.copy.deleted = false ∧ e ≤ o.copy.effects := by
  obtain ⟨r', hr', _, f, hf, hcalls⟩ := calls_of_directInit rfl (by simp [Expr.lvalue]) he
  cases hr.symm.trans hr'
  have hmem : f ∈ r.constructorsTaking 1 :=
    List.mem_filter.mpr ⟨hf, (h.accepts_iff hf).mp hcalls.offers.accepts⟩
  rw [h.constructorsTaking] at hmem
  exact Outcome.copy_of_calls hmem hcalls

/-- What assigns a copy to an object of the class is the copy assignment. -/
theorem Give.copyAssignment_of_assignCopy (h : o.Give s draft isVirtual r)
    (hr : q.completeRecord? draft.type = some r) (he : (q.assignCopy draft.type).Returns e) :
    s.assignsConst = true ∧ o.copyAssignment.deleted = false ∧ e ≤ o.copyAssignment.effects := by
  obtain ⟨r', hr', f, hf, hcalls⟩ := calls_of_assign rfl he
  cases hr.symm.trans hr'
  rw [h.assignments] at hf
  exact Outcome.copy_of_calls hf hcalls

theorem Give.destroy_eq_ok_iff (h : o.Give s draft false r)
    (hr : q.completeRecord? draft.type = some r) :
    q.destroy draft.type = .ok e ↔ o.destructor.deleted = false ∧ e = o.destructor.effects := by
  have hdestroy : q.destroy draft.type = if o.destructor.deleted then .error .deleted else
      .ok ⟨o.destructor.noexcept, o.destructor.trivial && !o.destructor.deleted⟩ := by
    change q.destroyClass draft.type = _
    rw [Program.destroyClass, hr]
    dsimp only
    rw [Record.destruction, h.destructor]
    rfl
  rw [hdestroy]
  cases hdeleted : o.destructor.deleted with
  | true => simp
  | false => simp [Outcome.effects, eq_comm]

end ImplicitOutcomes

/-! ### What was said of the members -/

/-- What is not deleted is possible. -/
theorem Outcome.of_not_deleted {o : Outcome} {P : Prop}
    (h : o = .impossible ∨ o.deleted = false ∧ P) (ho : o.deleted = false) : P := by
  rcases h with rfl | h
  · cases ho
  · exact h.2

/-- What each step keeps, and none of which makes the member impossible, holds of the outcome. -/
theorem Outcome.holds_through {step : Outcome → MemberObject → Check (Option Outcome)}
    {objects : List MemberObject} {o result : Outcome} {Q : Outcome → Prop}
    (hstep : ∀ m ∈ objects, ∀ o next?, Q o → (step o m).Returns next? →
      ∃ next, next? = some next ∧ Q next)
    (ho : Q o) (h : (through step o objects).Returns result) : Q result := by
  induction objects generalizing o with
  | nil => exact Check.returns_pure.mp h ▸ ho
  | cons m rest ih =>
    obtain ⟨next?, hnext, h⟩ := h.bind
    obtain ⟨next, rfl, hQ⟩ := hstep m List.mem_cons_self o next? ho hnext
    exact ih (fun m hm => hstep m (List.mem_cons_of_mem _ hm)) hQ h

/-- A destructor is as good as the destruction of each member is. -/
theorem Synthesis.meets_destructor {s : Synthesis} {o : Outcome} {strength : Strength}
    (hclass : s.isUnion = false) (ho : s.destructor.Returns o)
    (hall : ∀ m ∈ s.objects, m.reference = none →
      ∃ e, s.program.destroy m.type = .ok e ∧ strength.meets e = true) :
    o.deleted = false ∧ strength.meets o.effects = true := by
  refine Outcome.holds_through
    (Q := fun o => o.deleted = false ∧ strength.meets o.effects = true) ?_ ?_ ho
  · rintro m hm o next? ⟨hdeleted, hmeets⟩ hnext
    unfold destroyStep at hnext
    split at hnext
    · exact ⟨o, (Check.returns_pure.mp hnext).symm, hdeleted, hmeets⟩
    · rename_i hreference
      obtain ⟨e, he, hmember⟩ := hall m hm (by simpa using hreference)
      simp only [he, hclass, Bool.false_and, Bool.false_eq_true, if_false] at hnext
      refine ⟨o.absorb e, (Check.returns_pure.mp hnext).symm, hdeleted, ?_⟩
      have hand : (o.absorb e).effects = o.effects.and e := rfl
      rw [hand, strength.meets_and, hmeets, hmember]
      rfl
  · cases strength <;> exact ⟨rfl, rfl⟩

namespace Program

variable {p : Program}

/-- Whether a type is that of objects does not depend on what is declared. -/
theorem isObject_category_eq (p q : Program) (t : Ty) :
    (p.category t).isObject = (q.category t).isObject := by
  induction t using Ty.inductionOn with
  | qualified t cv ih => exact ih
  | record id =>
    unfold category
    split <;> split <;> rfl
  | _ => rfl

/-- A data member that is no reference is defined from the type of its elements. -/
theorem memberObject_of_not_isReference {m : DataMember} (h : m.type.isReference = false) :
    memberObject m =
      { type := m.type.element, isBase := false, hasInitializer := m.hasInitializer } := by
  have hreferent : m.type.referent? = none := by simpa [Ty.isReference] using h
  simp [memberObject, h, hreferent]

/-- Without bases the special members are defined from the data members alone. -/
theorem objects_of_bases_nil {r : Record} (h : r.bases = []) :
    (p.synthesis r).objects = r.members.map memberObject := by
  simp [synthesis, memberObjects, baseObjects, h]

end Program

namespace Development

/-- A class without bases that declares no constructor, assignment operator or destructor is
completed as the type `t` of the program `q`, and no check that defines its special members is
denied for the number of steps. -/
structure CompletesImplicitly (d : Development) (draft : Draft) (q : Program) (t : Ty) : Prop where
  drafted : draft ∈ d.drafts
  bare : draft.IsBare
  bases : draft.record.bases = []
  isClass : draft.record.isUnion = false
  finished : d.program.finishRecord draft = .ok (q, t)
  inLimits : (d.program.completion draft).InLimits (.fresh .initialization)

/-- The class without bases `r` is completed with the special members that come out as `o`, which
their checks settled before. -/
structure CompletesWith (d : Development) (draft : Draft) (r : Record) (o : ImplicitOutcomes) :
    Prop where
  completes : d.Completes draft r
  awaitsRoot : d.program.AwaitsRoot r
  bases : draft.record.bases = []
  isClass : draft.record.isUnion = false
  settles : (d.program.synthesis draft.record).Implicit (fun _ c a => c.Settles a) o
  gives : o.Give (d.program.synthesis draft.record) draft false r

variable {d : Development} {draft : Draft}

theorem CompletesImplicitly.completesWith {q : Program} {t : Ty}
    (hc : d.CompletesImplicitly draft q t) (h : d.Reachable) :
    ∃ r o, d.CompletesWith draft r o ∧ q = d.program.defineRecord r ∧ t = draft.type := by
  obtain ⟨bases, r, hbases, hmembers, hr, rfl, rfl⟩ := finishRecord_eq_ok.mp hc.finished
  have hnone : bases = [] := by
    simpa [checkBases, hc.bases, pure, Except.pure, eq_comm] using hbases
  have hdraft : { draft with record := { draft.record with bases } } = draft := by
    rw [hnone, ← hc.bases]
  have hcompletes := h.valid.completes hc.drafted hbases hmembers hr
  rw [hdraft] at hcompletes
  obtain ⟨o, ho, hgive⟩ := implicit_of_inLimits hcompletes.completed hc.bare hc.inLimits
  have hvirtual : (d.program.baseRecords draft.record).any (·.facts.virtualDestructor) = false := by
    simp [baseRecords, hc.bases]
  rw [hvirtual] at hgive
  refine ⟨r, o, ?_, rfl, by rw [Record.type, hcompletes.kept.id]; rfl⟩
  exact
    { completes := hcompletes
      awaitsRoot := hcompletes.awaitsRoot h (hcompletes.kept.bases.trans hc.bases)
      bases := hc.bases
      isClass := hc.isClass
      settles := ho
      gives := hgive }

/-- The elements of a data member are complete objects, and none is of the class itself. -/
theorem Completes.element_of_member {r : Record} {m : DataMember} (hc : d.Completes draft r)
    (hm : m ∈ draft.record.members) (hreference : m.type.isReference = false) :
    m.type.element.isNormal = true ∧ (∀ p : Program, (p.category m.type.element).isObject = true) ∧
      m.type.element.recordId? ≠ some r.id := by
  have hnormal := hc.normal _ (Record.mem_types.mpr (Or.inr (Or.inl ⟨m, hm, rfl⟩)))
  have hobject := (checkMembers_eq_ok.mp hc.members m hm).resolve_left (by simp [hreference])
  have helement : ∀ t : Ty, d.program.isCompleteObject t = true →
      d.program.isCompleteObject t.element = true := by
    intro t
    induction t using Ty.inductionOn with
    | array t b ih =>
      intro h
      exact ih (Bool.and_eq_true_iff.mp h).2
    | _ => exact id
  refine ⟨isNormal_element hnormal, fun p => ?_, fun hid => ?_⟩
  · rw [isObject_category_eq p d.program]
    exact isObject_of_isCompleteObject (isNormal_element hnormal) (helement _ hobject)
  · obtain ⟨s, hs, hcomplete⟩ := isCompleteRecord_iff.mp (isCompleteRecord_of_element hobject hid)
    obtain ⟨old, hold, hincomplete⟩ := hc.replaced
    cases hold.symm.trans hs
    simp [hcomplete] at hincomplete

namespace CompletesWith

variable {r : Record} {o : ImplicitOutcomes} {m : DataMember} {s : Strength}
  (h : d.CompletesWith draft r o)

include h

theorem completeRecord?_type : (d.program.defineRecord r).completeRecord? draft.type = some r :=
  (h.awaitsRoot.completeRecord?_of_eq (by rw [h.completes.kept.id]; rfl)).2

theorem mem_objects (hm : m ∈ draft.record.members) (hreference : m.type.isReference = false) :
    { type := m.type.element, isBase := false, hasInitializer := m.hasInitializer } ∈
      (d.program.synthesis draft.record).objects := by
  rw [objects_of_bases_nil h.bases, ← memberObject_of_not_isReference hreference]
  exact List.mem_map_of_mem hm

omit h in
theorem isObject_type : ((d.program.defineRecord r).category draft.type).isObject = true := by
  rw [Draft.type, Record.type, category]
  split <;> rfl

theorem not_isReference_element (hm : m ∈ draft.record.members)
    (hreference : m.type.isReference = false) : m.type.element.isReference = false :=
  not_isReference_of_isObject ((h.completes.element_of_member hm hreference).2.1 d.program)

theorem element_ne (hm : m ∈ draft.record.members) (hreference : m.type.isReference = false) :
    m.type.element.element.recordId? ≠ some r.id := by
  rw [element_element]
  exact (h.completes.element_of_member hm hreference).2.2

theorem destroy_element (hm : m ∈ draft.record.members) (hreference : m.type.isReference = false) :
    (d.program.defineRecord r).destroy m.type.element = d.program.destroy m.type.element :=
  h.awaitsRoot.destroy_eq (h.element_ne hm hreference)

/-- Only a conversion function that returns the class turns a member into it. -/
theorem avoids_element (hm : m ∈ draft.record.members) (hreference : m.type.isReference = false)
    (hconverts : ¬(d.program.defineRecord r).ConvertsTo m.type.element r.id) :
    d.program.Avoids r.id (.lvalue (m.type.element.qualify .const)) true := by
  obtain ⟨hnormal, _, hother⟩ := h.completes.element_of_member hm hreference
  exact avoids_lvalue hnormal hother (mt (h.awaitsRoot.convertsTo_iff hother).mpr hconverts) .const

/-- The class is destroyed as well as all its members are. -/
theorem has_destruction_iff : (d.program.defineRecord r).Has (.destruction s) draft.type ↔
    ∀ m ∈ draft.record.members, m.type.isReference = false →
      (d.program.defineRecord r).Has (.destruction s) m.type.element := by
  have htells := (d.program.synthesis draft.record).tells_settles
  have hmember : ∀ m ∈ draft.record.members, m.type.isReference = false →
      ((d.program.defineRecord r).Has (.destruction s) m.type.element ↔
        ∃ e, d.program.destroy m.type.element = .ok e ∧ s.meets e = true) := by
    intro m hm hreference
    rw [has_destruction (h.not_isReference_element hm hreference), h.destroy_element hm hreference]
  rw [has_destruction rfl]
  simp only [h.gives.destroy_eq_ok_iff h.completeRecord?_type]
  constructor
  · rintro ⟨_, ⟨hpossible, rfl⟩, hmeets⟩ m hm hreference
    have hall := Outcome.of_not_deleted (htells.destructor_cases h.settles.destructor) hpossible
    obtain ⟨e, he, hle⟩ := hall _ (h.mem_objects hm hreference) rfl
    exact (hmember m hm hreference).mpr ⟨e, he, s.meets_mono hle hmeets⟩
  · intro hall
    obtain ⟨hpossible, hmeets⟩ := Synthesis.meets_destructor h.isClass h.settles.destructor.returns
      fun object hobject hreference => by
        rw [objects_of_bases_nil h.bases] at hobject
        obtain ⟨m, hm, rfl⟩ := List.mem_map.mp hobject
        have hplain : m.type.isReference = false := by
          simpa [memberObject, Ty.isReference] using hreference
        rw [memberObject_of_not_isReference hplain]
        exact (hmember m hm hplain).mp (hall m hm hplain)
    exact ⟨_, ⟨hpossible, rfl⟩, hmeets⟩

/-- Each member without an initializer is constructed from nothing at least as well as the class. -/
theorem has_defaultConstruction
    (hclass : (d.program.defineRecord r).Has (.defaultConstruction s) draft.type)
    (hm : m ∈ draft.record.members) (hreference : m.type.isReference = false)
    (hinitializer : m.hasInitializer = false) :
    (d.program.defineRecord r).Has (.defaultConstruction s) m.type.element := by
  have htells := (d.program.synthesis draft.record).tells_settles
  obtain ⟨⟨e, he, hmeets⟩, _⟩ := (Program.has_defaultConstruction rfl).mp hclass
  obtain ⟨hpossible, hle⟩ :=
    h.gives.default_of_directInit h.completeRecord?_type (.of_result he)
  have hall := Outcome.of_not_deleted
    (htells.defaultConstructor_cases h.isClass h.settles.default) hpossible
  obtain ⟨⟨e', he', hle'⟩, hdestructible⟩ :=
    (hall _ (h.mem_objects hm hreference)).resolve_left (by simp [hinitializer])
  refine (Program.has_defaultConstruction (h.not_isReference_element hm hreference)).mpr
    ⟨⟨e', ?_, s.meets_mono (le_trans hle hle') hmeets⟩, ?_⟩
  · rw [h.awaitsRoot.directInit_noArguments_eq (h.element_ne hm hreference)]
    exact he'.result
  · rw [h.destroy_element hm hreference]
    exact hdestructible

/-- Each member that is not turned into the class is copied at least as well as the class. -/
theorem has_copyConstruction
    (hclass : (d.program.defineRecord r).Has (.copyConstruction s) draft.type)
    (hm : m ∈ draft.record.members) (hreference : m.type.isReference = false)
    (hconverts : ¬(d.program.defineRecord r).ConvertsTo m.type.element r.id)
    (hlimits : ((d.program.defineRecord r).constructCopy m.type.element).InLimits
      (.fresh .initialization)) :
    (d.program.defineRecord r).Has (.copyConstruction s) m.type.element := by
  have htells := (d.program.synthesis draft.record).tells_settles
  obtain ⟨_, hobject, _⟩ := h.completes.element_of_member hm hreference
  obtain ⟨⟨e, he, hmeets⟩, _⟩ := (Program.has_copyConstruction isObject_type).mp hclass
  obtain ⟨hconst, hpossible, hle⟩ :=
    h.gives.copy_of_constructCopy h.completeRecord?_type (.of_result he)
  have hall := Outcome.of_not_deleted
    (htells.constructFrom_cases h.isClass h.settles.copy) hpossible
  obtain ⟨⟨e', he', hle'⟩, hdestructible⟩ := hall _ (h.mem_objects hm hreference) rfl
  rw [hconst] at he'
  have hagree := h.awaitsRoot.agree_directInit (h.gives.copiesOnly h.completes.kept.id)
    (h.element_ne hm hreference)
    (List.forall_mem_singleton.mpr (h.avoids_element hm hreference hconverts))
  refine (Program.has_copyConstruction (hobject _)).mpr
    ⟨⟨e', hagree.result_of_settles he' hlimits, s.meets_mono (le_trans hle hle') hmeets⟩, ?_⟩
  rw [h.destroy_element hm hreference]
  exact hdestructible

/-- Each member that is not turned into the class is assigned at least as well as the class. -/
theorem has_copyAssignment
    (hclass : (d.program.defineRecord r).Has (.copyAssignment s) draft.type)
    (hm : m ∈ draft.record.members) (hreference : m.type.isReference = false)
    (hconverts : ¬(d.program.defineRecord r).ConvertsTo m.type.element r.id)
    (hlimits : ((d.program.defineRecord r).assignCopy m.type.element).InLimits
      (.fresh .initialization)) :
    (d.program.defineRecord r).Has (.copyAssignment s) m.type.element := by
  have htells := (d.program.synthesis draft.record).tells_settles
  obtain ⟨hnormal, hobject, hother⟩ := h.completes.element_of_member hm hreference
  obtain ⟨e, he, hmeets⟩ := (Program.has_copyAssignment isObject_type).mp hclass
  obtain ⟨hconst, hpossible, hle⟩ :=
    h.gives.copyAssignment_of_assignCopy h.completeRecord?_type (.of_result he)
  have hall := Outcome.of_not_deleted
    (htells.assignFrom_cases h.isClass h.settles.copyAssignment) hpossible
  obtain ⟨e', he', hle'⟩ := hall _ (h.mem_objects hm hreference)
  rw [hconst] at he'
  have htarget : ¬(Expr.lvalue m.type.element).type.IsOf r.id :=
    (Ty.recordId?_unqualified hnormal).trans_ne hother
  have hagree := h.awaitsRoot.agree_assign (h.gives.copiesOnly h.completes.kept.id) htarget
    (h.avoids_element hm hreference hconverts)
  exact (Program.has_copyAssignment (hobject _)).mpr
    ⟨e', hagree.result_of_settles he' hlimits, s.meets_mono (le_trans hle hle') hmeets⟩

end CompletesWith

/-- Implicit members promise no more than the data members give. Right after its completion a class
is destroyed as well as all its members are, and constructed from nothing no better than each of
those that have no initializer. It is copied no better than each member that no conversion function
turns into the class, as far as the check of that member comes to no limit itself. -/
theorem implicitMembers_promise (h : d.Reachable) {q : Program} {t : Ty}
    (hc : d.CompletesImplicitly draft q t) (s : Strength) :
    (q.Has (.destruction s) t ↔ ∀ m ∈ draft.record.members, m.type.isReference = false →
      q.Has (.destruction s) m.type.element) ∧
    ∀ m ∈ draft.record.members, m.type.isReference = false →
      (m.hasInitializer = false → q.Has (.defaultConstruction s) t →
        q.Has (.defaultConstruction s) m.type.element) ∧
      (¬q.ConvertsTo m.type.element draft.record.id →
        ((q.constructCopy m.type.element).InLimits (.fresh .initialization) →
          q.Has (.copyConstruction s) t → q.Has (.copyConstruction s) m.type.element) ∧
        ((q.assignCopy m.type.element).InLimits (.fresh .initialization) →
          q.Has (.copyAssignment s) t → q.Has (.copyAssignment s) m.type.element)) := by
  obtain ⟨r, o, hwith, rfl, rfl⟩ := hc.completesWith h
  refine ⟨hwith.has_destruction_iff, fun m hm hreference =>
    ⟨fun hinitializer hclass => hwith.has_defaultConstruction hclass hm hreference hinitializer,
      fun hconverts => ?_⟩⟩
  rw [← hwith.completes.kept.id] at hconverts
  exact ⟨fun hlimits hclass => hwith.has_copyConstruction hclass hm hreference hconverts hlimits,
    fun hlimits hclass => hwith.has_copyAssignment hclass hm hreference hconverts hlimits⟩

/-- A class with a member of class type and an array of two more, before its completion. -/
def wholeOfParts : Development :=
  run .lp64
    [.start "Part" .struct,
      .write ⟨1⟩ (.member "count" (.builtin .int)),
      .finish ⟨1⟩,
      .start "Whole" .struct,
      .write ⟨2⟩ (.member "first" (.record ⟨1⟩)),
      .write ⟨2⟩ (.member "others" (.array (.record ⟨1⟩) (some 2)))]

theorem reachable_wholeOfParts : wholeOfParts.Reachable := by
  refine (Reachable.fresh .lp64).performAll ?_
  intro a ha
  simp only [List.mem_cons, List.not_mem_nil, or_false] at ha
  rcases ha with rfl | rfl | rfl | rfl | rfl | rfl
  all_goals first | trivial | exact RecordStep.isWritten_of_types rfl (by decide)

/-- What a program computes of a completion. -/
theorem exists_completesImplicitly {t : Ty} {P : Draft → Program → Prop}
    [∀ draft q, Decidable (P draft q)]
    (h : (d.drafts.any fun draft => (d.program.finishRecord draft).toOption.any fun (q, u) =>
      decide (u = t ∧ draft.record.constructors = [] ∧ draft.record.assignments = [] ∧
        draft.record.destructor = none ∧ draft.record.bases = [] ∧ draft.record.isUnion = false ∧
        (d.program.completion draft).InLimits (.fresh .initialization) ∧ P draft q)) = true) :
    ∃ draft q, d.CompletesImplicitly draft q t ∧ P draft q := by
  obtain ⟨draft, hdraft, h⟩ := List.any_eq_true.mp h
  obtain ⟨⟨q, u⟩, hfinish, h⟩ := (Option.any_eq_true _ _).mp h
  obtain ⟨rfl, hconstructors, hassignments, hdestructor, hbases, hclass, hlimits, hP⟩ :=
    of_decide_eq_true h
  have hfinished : d.program.finishRecord draft = .ok (q, u) := by
    cases hresult : d.program.finishRecord draft with
    | error _ => simp [hresult, Except.toOption] at hfinish
    | ok result => simpa [hresult, Except.toOption] using hfinish
  exact ⟨draft, q,
    ⟨hdraft, ⟨hconstructors, hassignments, hdestructor⟩, hbases, hclass, hfinished, hlimits⟩, hP⟩

/-- The class is trivially copied, and so is its part, which does not convert to it. -/
theorem implicitMembers_promise_wholeOfParts : wholeOfParts.Reachable ∧
    ∃ draft q, wholeOfParts.CompletesImplicitly draft q (.record ⟨2⟩) ∧
      (∃ m ∈ draft.record.members, m.type = .record ⟨1⟩) ∧
      q.Has (.copyConstruction .trivial) (.record ⟨2⟩) ∧
      q.Has (.copyConstruction .trivial) (.record ⟨1⟩) := by
  have hcheck : ∃ draft q, wholeOfParts.CompletesImplicitly draft q (.record ⟨2⟩) ∧
      (∃ m ∈ draft.record.members, m.type = .record ⟨1⟩) ∧
      ¬q.ConvertsTo (.record ⟨1⟩) draft.record.id ∧
      (q.constructCopy (.record ⟨1⟩)).InLimits (.fresh .initialization) ∧
      q.Has (.copyConstruction .trivial) (.record ⟨2⟩) :=
    exists_completesImplicitly (by decide +kernel)
  obtain ⟨draft, q, hcompletes, ⟨m, hm, htype⟩, hconverts, hlimits, hwhole⟩ := hcheck
  have hpromise := (implicitMembers_promise reachable_wholeOfParts hcompletes .trivial).2 m hm
    (by rw [htype]; rfl)
  rw [htype] at hpromise
  exact ⟨reachable_wholeOfParts, draft, q, hcompletes, ⟨m, hm, htype⟩, hwhole,
    (hpromise.2 hconverts).1 hlimits hwhole⟩

/-- A class with a `volatile` member that converts to `int` and to the class, and that is
constructed from either. -/
def convertibleMember : Development :=
  run .lp64
    [.start "Whole" .struct,
      .start "Part" .struct,
      .write ⟨2⟩ (.constructor
        (.declare [.lvalueRef (.qualified (.record ⟨2⟩) .const)] .void [])),
      .write ⟨2⟩ (.constructor (.declare [.builtin .int] .void [])),
      .write ⟨2⟩ (.constructor (.declare [.record ⟨1⟩] .void [])),
      .write ⟨2⟩ (.conversion (.declare [] (.builtin .int) [.cv .constVolatile])),
      .write ⟨2⟩ (.conversion (.declare [] (.record ⟨1⟩) [.cv .constVolatile])),
      .finish ⟨2⟩,
      .write ⟨1⟩ (.member "part" (.qualified (.record ⟨2⟩) .volatile))]

theorem reachable_convertibleMember : convertibleMember.Reachable := by
  refine (Reachable.fresh .lp64).performAll ?_
  intro a ha
  simp only [List.mem_cons, List.not_mem_nil, or_false] at ha
  rcases ha with rfl | rfl | rfl | rfl | rfl | rfl | rfl | rfl | rfl
  case inl | inr.inl | inr.inr.inr.inr.inr.inr.inr.inl => trivial
  case inr.inr.inr.inr.inr.inr.inr.inr => exact RecordStep.isWritten_of_types rfl (by decide)
  all_goals exact RecordStep.isWritten_of_declare rfl (by decide)

/-- A member that converts to the class may promise less than the class does. While the class is
incomplete, only its conversion to `int` constructs a copy, and afterwards the copy is ambiguous. -/
theorem convertsTo_convertibleMember : convertibleMember.Reachable ∧
    ∃ draft q, convertibleMember.CompletesImplicitly draft q (.record ⟨1⟩) ∧
      (∃ m ∈ draft.record.members, m.type = .qualified (.record ⟨2⟩) .volatile) ∧
      q.ConvertsTo (.qualified (.record ⟨2⟩) .volatile) draft.record.id ∧
      (q.constructCopy (.qualified (.record ⟨2⟩) .volatile)).InLimits (.fresh .initialization) ∧
      q.Has (.copyConstruction .possible) (.record ⟨1⟩) ∧
      ¬q.Has (.copyConstruction .possible) (.qualified (.record ⟨2⟩) .volatile) :=
  ⟨reachable_convertibleMember, exists_completesImplicitly (by decide +kernel)⟩

end Development
end TypeTraits
