import TypeTraits.Proofs.Program.Development

/-!
# The last destructor of a class

Each declaration of a destructor takes the place of the one before. What remains of those that were
replaced is whether one of them throws: then a destructor that the user provides throws as well. So
the earlier declarations may be left out, but for the exception specification of the last one.
-/

namespace TypeTraits

namespace RecordStep

/-- The destructor that the step declares. -/
def destructor? : RecordStep → Option FunctionDecl
  | .destructor f => some f
  | .throwingDestructor => some { params := [] }
  | .virtualDestructor => some { params := [], isVirtual := true }
  | _ => none

/-- Whether the step declares that the destructor throws. -/
def declaresThrowing : RecordStep → Bool
  | .throwingDestructor => true
  | _ => false

/-- The destructor that stands after the steps. -/
def lastDestructor? (steps : List RecordStep) : Option FunctionDecl :=
  (steps.filterMap destructor?).getLast?

/-- The steps without the destructors that a later one replaces. -/
def keepLastDestructor : List RecordStep → List RecordStep
  | [] => []
  | step :: rest =>
    if step.destructor?.isSome && rest.any (·.destructor?.isSome) then keepLastDestructor rest
    else step :: keepLastDestructor rest

/-- A destructor is declared to throw, and the last one is provided by the user. -/
def leavesThrowing (steps : List RecordStep) : Bool :=
  steps.any declaresThrowing && (lastDestructor? steps).any (·.origin == .userProvided)

variable {step : RecordStep} {steps : List RecordStep}

theorem declaresThrowing_of_none (h : step.destructor? = none) : step.declaresThrowing = false := by
  cases step <;> first | rfl | cases h

theorem filterMap_destructor_eq_nil :
    steps.filterMap destructor? = [] ↔ steps.any (·.destructor?.isSome) = false := by
  simp [List.filterMap_eq_nil_iff]

/-- A class that declares a destructor to throw has a last one. -/
theorem exists_lastDestructor (h : steps.any declaresThrowing = true) :
    ∃ f, lastDestructor? steps = some f := by
  obtain ⟨step, hmem, hthrows⟩ := List.any_eq_true.mp h
  refine ⟨_, List.getLast?_eq_some_getLast fun hnil => ?_⟩
  have hnone := List.filterMap_eq_nil_iff.mp hnil step hmem
  rw [declaresThrowing_of_none hnone] at hthrows
  cases hthrows

theorem keepLastDestructor_sublist (steps : List RecordStep) :
    (keepLastDestructor steps).Sublist steps := by
  induction steps with
  | nil => exact List.Sublist.slnil
  | cons step rest ih =>
    rw [keepLastDestructor]
    split
    · exact ih.cons step
    · exact ih.cons_cons step

/-- The last destructor is kept. -/
@[simp] theorem lastDestructor?_keepLastDestructor :
    lastDestructor? (keepLastDestructor steps) = lastDestructor? steps := by
  unfold lastDestructor?
  induction steps with
  | nil => rfl
  | cons step rest ih =>
    rw [keepLastDestructor]
    split
    · next h =>
      simp only [Bool.and_eq_true] at h
      obtain ⟨f, hf⟩ := Option.isSome_iff_exists.mp h.1
      have hrest : rest.filterMap destructor? ≠ [] := by
        intro hnil
        simp [filterMap_destructor_eq_nil.mp hnil] at h
      rw [ih, List.filterMap_cons_some hf, List.getLast?_cons_of_ne_nil hrest]
    · simp only [List.filterMap_cons]
      split
      · exact ih
      · rw [List.getLast?_cons, List.getLast?_cons, ih]

/-- Steps that declare no destructor are kept. -/
@[simp] theorem filter_keepLastDestructor :
    (keepLastDestructor steps).filter (·.destructor?.isNone) =
      steps.filter (·.destructor?.isNone) := by
  induction steps with
  | nil => rfl
  | cons step rest ih =>
    rw [keepLastDestructor]
    split
    · next h =>
      simp only [Bool.and_eq_true] at h
      rw [ih, List.filter_cons_of_neg (by simp [Option.isSome_iff_ne_none.mp h.1])]
    · rw [List.filter_cons, List.filter_cons, ih]

end RecordStep

namespace Draft

/-- The draft with this declaration of its destructor. -/
def withDestructor (d : Draft) (declared : Option FunctionDecl) (throwing : Bool) : Draft :=
  { record := { d.record with destructor := declared }, throwing }

variable {d : Draft} {step : RecordStep} {steps : List RecordStep}

@[simp] theorem withDestructor_withDestructor {f g : Option FunctionDecl} {b c : Bool} :
    (d.withDestructor f b).withDestructor g c = d.withDestructor g c := rfl

/-- A step that declares a destructor replaces the one before, and the draft still throws if it did
before. -/
theorem apply_of_destructor {f : FunctionDecl} (h : step.destructor? = some f) :
    d.apply step = d.withDestructor (some f) (d.throwing || step.declaresThrowing) := by
  cases step <;> cases h <;>
    simp [apply, setDestructor, withDestructor, RecordStep.declaresThrowing]

/-- The other steps neither see the destructor nor change it. -/
theorem apply_withDestructor (h : step.destructor? = none) (f : Option FunctionDecl) (b : Bool) :
    (d.withDestructor f b).apply step = (d.apply step).withDestructor f b := by
  cases step <;> first | rfl | cases h

theorem apply_of_none (h : step.destructor? = none) :
    (d.apply step).record.destructor = d.record.destructor ∧
      (d.apply step).throwing = d.throwing := by
  have hsame := apply_withDestructor (d := d) h d.record.destructor d.throwing
  have hd : d.withDestructor d.record.destructor d.throwing = d := rfl
  rw [hd] at hsame
  rw [hsame]
  exact ⟨rfl, rfl⟩

theorem applyAll_withDestructor (h : ∀ step ∈ steps, step.destructor? = none)
    (f : Option FunctionDecl) (b : Bool) :
    (d.withDestructor f b).applyAll steps = (d.applyAll steps).withDestructor f b := by
  induction steps generalizing d with
  | nil => rfl
  | cons step rest ih =>
    obtain ⟨hstep, hrest⟩ := List.forall_mem_cons.mp h
    change ((d.withDestructor f b).apply step).applyAll rest = _
    rw [apply_withDestructor hstep, ih hrest]
    rfl

/-- A list of steps comes to its other steps, with the last destructor declared, and throws if one
of the destructors was declared to. -/
theorem applyAll_eq_withDestructor (d : Draft) (steps : List RecordStep) :
    d.applyAll steps = (d.applyAll (steps.filter (·.destructor?.isNone))).withDestructor
      ((RecordStep.lastDestructor? steps).or d.record.destructor)
      (d.throwing || steps.any (·.declaresThrowing)) := by
  induction steps generalizing d with
  | nil => simp [RecordStep.lastDestructor?, applyAll, withDestructor]
  | cons step rest ih =>
    change (d.apply step).applyAll rest = _
    rw [ih]
    cases hstep : step.destructor? with
    | none =>
      have hthrowing := RecordStep.declaresThrowing_of_none hstep
      obtain ⟨hdestructor, hdraft⟩ := apply_of_none (d := d) hstep
      rw [hdestructor, hdraft, List.filter_cons_of_pos (by simp [hstep]), List.any_cons, hthrowing,
        Bool.false_or, RecordStep.lastDestructor?, RecordStep.lastDestructor?,
        List.filterMap_cons_none hstep]
      rfl
    | some f =>
      have hothers : ∀ other ∈ rest.filter (·.destructor?.isNone), other.destructor? = none := by
        intro other hother
        simpa using (List.mem_filter.mp hother).2
      rw [apply_of_destructor hstep, applyAll_withDestructor hothers, withDestructor_withDestructor,
        List.filter_cons_of_neg (by simp [hstep]), RecordStep.lastDestructor?,
        RecordStep.lastDestructor?, List.filterMap_cons_some hstep, List.getLast?_cons,
        List.any_cons]
      cases (List.filterMap RecordStep.destructor? rest).getLast? <;>
        simp [withDestructor, Bool.or_assoc]

/-- Leaving out the destructors that are replaced leaves the declaration as it is. -/
theorem record_applyAll_keepLastDestructor (d : Draft) (steps : List RecordStep) :
    (d.applyAll (RecordStep.keepLastDestructor steps)).record = (d.applyAll steps).record := by
  rw [applyAll_eq_withDestructor, applyAll_eq_withDestructor d steps,
    RecordStep.filter_keepLastDestructor, RecordStep.lastDestructor?_keepLastDestructor]
  rfl

theorem throwing_applyAll (d : Draft) (steps : List RecordStep) :
    (d.applyAll steps).throwing = (d.throwing || steps.any (·.declaresThrowing)) := by
  rw [applyAll_eq_withDestructor]
  rfl

/-- Where no destructor is declared to throw, the draft is the same. -/
theorem applyAll_keepLastDestructor (h : steps.any (·.declaresThrowing) = false) :
    d.applyAll (RecordStep.keepLastDestructor steps) = d.applyAll steps := by
  have hkept : (RecordStep.keepLastDestructor steps).any (·.declaresThrowing) = false := by
    rw [List.any_eq_false] at h ⊢
    exact fun step hmem => h step ((RecordStep.keepLastDestructor_sublist steps).subset hmem)
  have hthrowing : (d.applyAll (RecordStep.keepLastDestructor steps)).throwing =
      (d.applyAll steps).throwing := by
    rw [throwing_applyAll, throwing_applyAll, h, hkept]
  have hrecord := d.record_applyAll_keepLastDestructor steps
  cases hfull : d.applyAll steps
  cases hkept : d.applyAll (RecordStep.keepLastDestructor steps)
  simp_all

theorem applyAll_id (d : Draft) (steps : List RecordStep) :
    (d.applyAll steps).record.id = d.record.id := by
  induction steps generalizing d with
  | nil => rfl
  | cons step rest ih => exact (ih (d.apply step)).trans (apply_id step)

theorem destructor_applyAll {f : FunctionDecl} (h : RecordStep.lastDestructor? steps = some f) :
    (d.applyAll steps).record.destructor = some f := by
  rw [applyAll_eq_withDestructor, h]
  rfl

end Draft

namespace FunctionDecl

/-- The function, allowed to throw. -/
def mayThrow (f : FunctionDecl) : FunctionDecl := { f with noexcept := false }

end FunctionDecl

namespace Record

/-- The record, its destructor allowed to throw. -/
def mayThrow (r : Record) : Record := { r with destructor := r.destructor.map (·.mayThrow) }

variable {r : Record} {f : FunctionDecl}

theorem mayThrow_eq_self_iff (h : r.destructor = some f) : r.mayThrow = r ↔ f.noexcept = false := by
  constructor
  · intro heq
    have hdestructor := congrArg Record.destructor heq
    rw [mayThrow, h] at hdestructor
    exact (congrArg FunctionDecl.noexcept (Option.some.inj hdestructor)).symm
  · intro hthrows
    have hsame : f.mayThrow = f := by
      rw [FunctionDecl.mayThrow, ← hthrows]
    rw [mayThrow, h, Option.map_some, hsame, ← h]

theorem facts_mayThrow (p : Program) (r : Record) (polymorphic hasVirtualBases : Bool) :
    p.facts r.mayThrow polymorphic hasVirtualBases = p.facts r polymorphic hasVirtualBases := by
  have htrivial : r.mayThrow.hasTrivialDestructor = r.hasTrivialDestructor := by
    simp only [mayThrow, hasTrivialDestructor, Option.any_map]
    rfl
  have hvirtual : r.mayThrow.destructor.any (·.isVirtual) = r.destructor.any (·.isVirtual) := by
    simp only [mayThrow, Option.any_map]
    rfl
  have hcopyable : r.mayThrow.isTriviallyCopyable = r.isTriviallyCopyable := by
    unfold isTriviallyCopyable
    rw [htrivial]
    rfl
  unfold Program.facts
  rw [htrivial, hvirtual, hcopyable]
  rfl

end Record

namespace Synthesis

variable (s : Synthesis) {r : Record} {throwing inheritsVirtual : Bool}

/-- A destructor of the user throws if one was declared to. -/
theorem completeDestructor_throwing {f : FunctionDecl} (hf : r.destructor = some f)
    (horigin : f.origin = .userProvided) :
    s.completeDestructor ⟨r, true⟩ inheritsVirtual =
      FunctionDecl.mayThrow <$> s.completeDestructor ⟨r, throwing⟩ inheritsVirtual := by
  unfold completeDestructor
  rw [map_bind]
  congr 1
  funext outcome
  simp only [hf, horigin, map_pure]
  congr 1
  cases inheritsVirtual <;> cases hv : f.isVirtual <;> simp [FunctionDecl.mayThrow]

theorem complete_throwing {f : FunctionDecl} (hf : r.destructor = some f)
    (horigin : f.origin = .userProvided) :
    s.complete ⟨r, true⟩ inheritsVirtual =
      Record.mayThrow <$> s.complete ⟨r, throwing⟩ inheritsVirtual := by
  unfold complete
  rw [s.completeDestructor_throwing hf horigin]
  simp only [map_bind, bind_map_left, map_pure]
  rfl

/-- Whether a destructor was declared to throw matters only where the user provides the last. -/
theorem complete_of_not_userProvided (h : r.destructor.any (·.origin == .userProvided) = false)
    (throwing' : Bool) :
    s.complete ⟨r, throwing⟩ inheritsVirtual = s.complete ⟨r, throwing'⟩ inheritsVirtual := by
  have hdestructor : s.completeDestructor ⟨r, throwing⟩ inheritsVirtual =
      s.completeDestructor ⟨r, throwing'⟩ inheritsVirtual := by
    unfold completeDestructor
    cases hf : r.destructor with
    | none => rfl
    | some f =>
      simp only [hf, Option.any_some, beq_eq_false_iff_ne] at h
      cases horigin : f.origin with
      | userProvided => exact absurd horigin h
      | _ => simp only [horigin]
  unfold complete
  rw [hdestructor]
  rfl

end Synthesis

namespace Program

variable {p : Program} {r : Record} {throwing : Bool}

theorem completeRecord_throwing {f : FunctionDecl} (hf : r.destructor = some f)
    (horigin : f.origin = .userProvided) :
    p.completeRecord ⟨r, true⟩ = (p.completeRecord ⟨r, throwing⟩).map Record.mayThrow := by
  obtain ⟨done, hdone, heq⟩ := p.completeRecord_eq ⟨r, throwing⟩
  obtain ⟨done', hdone', heq'⟩ := p.completeRecord_eq ⟨r, true⟩
  have hthrows : p.completion ⟨r, true⟩ = Record.mayThrow <$> p.completion ⟨r, throwing⟩ :=
    (p.synthesis r).complete_throwing hf horigin
  rw [hthrows, Check.result_map, hdone] at hdone'
  obtain rfl : done.mayThrow = done' := Except.ok.inj hdone'
  rw [heq, heq', Option.map_map]
  congr 1
  funext layout
  simp only [completed, Function.comp_apply, Record.facts_mayThrow]
  rfl

theorem completeRecord_of_not_userProvided
    (h : r.destructor.any (·.origin == .userProvided) = false) (throwing' : Bool) :
    p.completeRecord ⟨r, throwing⟩ = p.completeRecord ⟨r, throwing'⟩ := by
  obtain ⟨done, hdone, heq⟩ := p.completeRecord_eq ⟨r, throwing⟩
  obtain ⟨done', hdone', heq'⟩ := p.completeRecord_eq ⟨r, throwing'⟩
  have hsame : p.completion ⟨r, throwing⟩ = p.completion ⟨r, throwing'⟩ :=
    (p.synthesis r).complete_of_not_userProvided h throwing'
  rw [hsame, hdone'] at hdone
  rw [heq, heq', Except.ok.inj hdone]

/-- Two drafts of one declaration are refused with one error, or both finished, and the records
differ as those that completing gives. -/
theorem finishRecord_alike {d d' : Draft} {g : Record → Record} (hrecord : d'.record = d.record)
    (hcomplete : ∀ r : Record, r.destructor = d.record.destructor →
      p.completeRecord ⟨r, d'.throwing⟩ = (p.completeRecord ⟨r, d.throwing⟩).map g) :
    (∃ e, p.finishRecord d = .error e ∧ p.finishRecord d' = .error e) ∨
      ∃ r f, r.id = d.record.id ∧ r.destructor = some f ∧
        p.finishRecord d = .ok (p.defineRecord r, r.type) ∧
        p.finishRecord d' = .ok (p.defineRecord (g r), (g r).type) := by
  unfold finishRecord
  rw [hrecord]
  cases p.checkBases d.record with
  | error e => exact Or.inl ⟨e, rfl, rfl⟩
  | ok bases =>
    cases p.checkMembers d.record with
    | error e => exact Or.inl ⟨e, rfl, rfl⟩
    | ok _ =>
      have hsame := hcomplete { d.record with bases } rfl
      cases hr : p.completeRecord ⟨{ d.record with bases }, d.throwing⟩ with
      | none =>
        rw [hr] at hsame
        simp only [bind, Except.bind, hr, hsame]
        exact Or.inl ⟨_, rfl, rfl⟩
      | some r =>
        have hid := (kept_of_completeRecord hr).id
        have hdestructor : ∃ f, r.destructor = some f := by
          obtain ⟨_, _, hdone, _, rfl⟩ := completeRecord_eq_some hr
          obtain ⟨_, _, destructor, rfl, _⟩ := Synthesis.complete_returns hdone
          exact ⟨destructor, rfl⟩
        obtain ⟨f, hf⟩ := hdestructor
        rw [hr] at hsame
        simp only [bind, Except.bind, hr, hsame]
        exact Or.inr ⟨r, f, hid, hf, rfl, rfl⟩

theorem defineRecord_inj {r r' : Record} (hdeclared : (p.record? r.id).isSome)
    (hid : r'.id = r.id) : p.defineRecord r' = p.defineRecord r ↔ r' = r := by
  refine ⟨fun h => ?_, fun h => h ▸ rfl⟩
  have hstored := congrArg (Program.record? · r.id) h
  rw [record?_defineRecord (by rwa [hid]), record?_defineRecord hdeclared, if_pos hid.symm,
    if_pos rfl] at hstored
  exact Option.some.inj hstored

open RecordStep

/-- Where a declaration that throws was replaced by a destructor of the user, the record is
completed with a destructor that may throw. -/
theorem completeRecord_keepLastDestructor {d : Draft} {steps : List RecordStep}
    (hr : r.destructor = (d.applyAll steps).record.destructor) :
    p.completeRecord ⟨r, (d.applyAll steps).throwing⟩ =
      (p.completeRecord ⟨r, (d.applyAll (keepLastDestructor steps)).throwing⟩).map
        (if leavesThrowing steps then Record.mayThrow else id) := by
  by_cases hthrowing : steps.any (·.declaresThrowing) = true
  · obtain ⟨f, hf⟩ := exists_lastDestructor hthrowing
    rw [Draft.destructor_applyAll hf] at hr
    rw [Draft.throwing_applyAll, leavesThrowing, hthrowing, hf, Option.any_some, Bool.true_and,
      Bool.or_true]
    split
    · next horigin => exact completeRecord_throwing hr (by simpa using horigin)
    · next horigin =>
      rw [Option.map_id]
      exact completeRecord_of_not_userProvided (by simpa [hr] using horigin) _
  · rw [Bool.not_eq_true] at hthrowing
    rw [leavesThrowing, hthrowing, Bool.false_and, if_neg Bool.false_ne_true, Option.map_id,
      Draft.applyAll_keepLastDestructor hthrowing]
    rfl

/-- The destructors that a later one replaces may be left out: a record is refused with the same
error, or finished as the same record. The one difference is that a destructor which the user
provides may throw, where one of those that it replaces was declared to throw. -/
theorem finishRecord_keepLastDestructor {p : Program} {d : Draft}
    (h : (p.record? d.record.id).isSome) (steps : List RecordStep) :
    let full := p.finishRecord (d.applyAll steps)
    let kept := p.finishRecord (d.applyAll (keepLastDestructor steps))
    (∃ e, kept = .error e ∧ full = .error e) ∨
      ∃ r f, r.id = d.record.id ∧ r.destructor = some f ∧
        kept = .ok (p.defineRecord r, r.type) ∧
        full = .ok (p.defineRecord (if leavesThrowing steps then r.mayThrow else r), r.type) ∧
        (full = kept ↔ (leavesThrowing steps = true → f.noexcept = false)) := by
  intro full kept
  have hrecord := d.record_applyAll_keepLastDestructor steps
  rcases finishRecord_alike hrecord.symm fun r hr => completeRecord_keepLastDestructor (p := p)
    (hr.trans (congrArg Record.destructor hrecord)) with herror | ⟨r, f, hid, hf, hkept, hfull⟩
  · exact Or.inl herror
  · rw [Draft.applyAll_id] at hid
    have hdeclared : (p.record? r.id).isSome := by rwa [hid]
    refine Or.inr ⟨r, f, hid, hf, hkept, ?_⟩
    split
    · next hleaves =>
      rw [if_pos hleaves] at hfull
      refine ⟨hfull, ?_⟩
      have hid : r.mayThrow.id = r.id := rfl
      have hsame : full = kept ↔ r.mayThrow = r := by
        rw [← defineRecord_inj hdeclared hid]
        simp [full, kept, hfull, hkept, Record.mayThrow, Record.type]
      rw [hsame, Record.mayThrow_eq_self_iff hf]
      exact ⟨fun hthrows _ => hthrows, fun hthrows => hthrows hleaves⟩
    · next hleaves =>
      rw [if_neg hleaves] at hfull
      exact ⟨hfull, by simp [hleaves, full, kept, hfull, hkept]⟩

/-- `struct S { ~S() noexcept(false); virtual ~S(); };` with both declarations written in turn. -/
def replacedThrowing : List RecordStep := [.throwingDestructor, .virtualDestructor]

/-- The virtual destructor alone does not throw. -/
theorem finishRecord_keepLastDestructor_replacedThrowing :
    let start := startRecord { target := .lp64 } "S" .struct
    let full := start.1.finishRecord (start.2.applyAll replacedThrowing)
    let kept := start.1.finishRecord (start.2.applyAll (keepLastDestructor replacedThrowing))
    (start.1.record? start.2.record.id).isSome = true ∧ full ≠ kept ∧
      ∃ r f, r.destructor = some f ∧ f.noexcept = true ∧
        kept = .ok (start.1.defineRecord r, r.type) ∧
        full = .ok (start.1.defineRecord r.mayThrow, r.type) := by
  intro start full kept
  have hdeclared : (start.1.record? start.2.record.id).isSome = true := by decide
  have hleaves : leavesThrowing replacedThrowing = true := by decide
  have hnoexcept : kept.toOption.any (fun finished =>
      (finished.1.record? start.2.record.id).any (·.destructor.any (·.noexcept))) = true := by
    decide +kernel
  rcases finishRecord_keepLastDestructor hdeclared replacedThrowing with
    ⟨e, herror, _⟩ | ⟨r, f, hid, hf, hkept, hfull, hsame⟩
  · rw [show kept = .error e from herror] at hnoexcept
    cases hnoexcept
  · rw [if_pos hleaves] at hfull
    rw [show kept = .ok _ from hkept] at hnoexcept
    simp only [Except.toOption, Option.any_some] at hnoexcept
    rw [record?_defineRecord (by rw [hid]; exact hdeclared), if_pos hid.symm, Option.any_some, hf,
      Option.any_some] at hnoexcept
    have hne : full ≠ kept := fun heq => by
      have hthrows := hsame.mp heq hleaves
      rw [hnoexcept] at hthrows
      cases hthrows
    exact ⟨hdeclared, hne, r, f, hf, hnoexcept, hkept, hfull⟩

end Program
end TypeTraits
