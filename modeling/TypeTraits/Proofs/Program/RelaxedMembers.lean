import TypeTraits.Proofs.Program.BarredBases
import TypeTraits.Proofs.Record.Facts

/-!
# Members that relaxing a class leaves as they are

-/

namespace TypeTraits

/-- Steps that leave the guard alone make a member that does. -/
theorem Outcome.through_eq_pure {step : Outcome → MemberObject → Check (Option Outcome)}
    (hstep : ∀ o m, ∃ next, step o m = pure next) (o : Outcome) (objects : List MemberObject) :
    ∃ result, through step o objects = pure result := by
  induction objects generalizing o with
  | nil => exact ⟨o, rfl⟩
  | cons m rest ih =>
    obtain ⟨next, hnext⟩ := hstep o m
    rw [through, hnext, pure_bind]
    cases next with
    | none => exact ⟨_, rfl⟩
    | some next => exact ih next

namespace Synthesis

variable {s t : Synthesis}

theorem destructor_eq_pure (s : Synthesis) : ∃ o, s.destructor = pure o := by
  refine Outcome.through_eq_pure (fun o m => ?_) _ _
  unfold destroyStep
  split
  · exact ⟨_, rfl⟩
  · cases s.program.destroy m.type <;> exact ⟨_, rfl⟩

/-- A destructor goes by how the subobjects are destroyed. -/
theorem completeDestructor_congr {draft : Draft} {inheritsVirtual : Bool} {f g : FunctionDecl}
    (hobjects : t.objects = s.objects) (hunion : t.isUnion = s.isUnion)
    (hdestroy : t.program.destroy = s.program.destroy)
    (hf : (s.completeDestructor draft inheritsVirtual).Returns f)
    (hg : (t.completeDestructor draft inheritsVirtual).Returns g) : g = f := by
  have hsame : t.destructor = s.destructor := by
    have hstep : t.destroyStep = s.destroyStep := by
      funext o m
      rw [destroyStep, destroyStep, hunion, hdestroy]
    rw [destructor, destructor, hobjects, hstep]
  unfold completeDestructor at hf hg
  obtain ⟨o, ho⟩ := s.destructor_eq_pure
  rw [ho, pure_bind] at hf
  rw [hsame, ho, pure_bind] at hg
  exact (Check.returns_pure.mp hg).symm.trans (Check.returns_pure.mp hf)

/-- A default constructor goes by how the subobjects are default-initialized and destroyed. -/
theorem defaultConstructor_congr (hobjects : t.objects = s.objects)
    (hunion : t.isUnion = s.isUnion) (hdynamic : t.dynamic = s.dynamic)
    (hinit : ∀ u, t.program.directInit u [] = s.program.directInit u [])
    (huser : t.hasUserDefaultConstructor = s.hasUserDefaultConstructor)
    (hdestroy : t.program.destroy = s.program.destroy) :
    t.defaultConstructor = s.defaultConstructor := by
  have hstep : t.defaultStep = s.defaultStep := by
    funext o m
    simp only [defaultStep, isDestructible, hinit, huser, hdestroy]
    rfl
  simp only [defaultConstructor, unionDefaultConstructor, hobjects, hunion, hdynamic, hinit, hstep]

end Synthesis

/-- The default constructor that the compiler declares is the only one. -/
theorem ImplicitOutcomes.Give.onlyDefault {s : Synthesis} {o : ImplicitOutcomes} {draft : Draft}
    {isVirtual : Bool} {r : Record} (h : o.Give s draft isVirtual r) :
    ∃ constexpr, r.constructorsTaking 0 = [{ o.default.implicitly [] with constexpr }] ∧
      (r.constructors.filter fun f => f.params.isEmpty && !f.hidden) =
        [{ o.default.implicitly [] with constexpr }] ∧
      (r.constructors.any fun f => f.takes 0 && f.isUserProvided) = false := by
  refine ⟨_, h.constructorsTaking 0, ?_⟩
  rw [h.constructors, ImplicitOutcomes.constructors]
  constructor <;> cases o.move.deleted <;>
    simp [FunctionDecl.takes, FunctionDecl.isUserProvided, Outcome.implicitly, Outcome.apply]

/-- What a record leaves pure goes by what its bases do and by its own functions. -/
theorem Program.unresolvedPure_congr {p q : Program} {r s : Record}
    (hbases : (q.baseRecords s).map (·.facts.unresolvedPure) =
      (p.baseRecords r).map (·.facts.unresolvedPure))
    (hvirtual : s.virtualFunctions = r.virtualFunctions) :
    q.unresolvedPure s = p.unresolvedPure r := by
  have hinherited : ∀ bases : List Record,
      (bases.flatMap fun base => base.facts.unresolvedPure.filter fun name =>
        !r.virtualFunctions.any (·.name == name)) =
      (bases.map (·.facts.unresolvedPure)).flatMap fun names => names.filter fun name =>
        !r.virtualFunctions.any (·.name == name) := by
    intro bases
    rw [List.flatMap_map]
  rw [unresolvedPure, unresolvedPure, hvirtual, hinherited, hinherited, hbases]

namespace Development

variable {b : RecordId} {d e : Development} {draft : Draft} {r s : Record} {target : Target}
  {actions : List Action}

/-- What related records have in common programs in step tell of every class. -/
theorem InStep.map_completeRecord? {related : Record → Record → Prop} (h : InStep b d e)
    (hrelated : Related related d.program e.program) {α : Type} {f : Record → α}
    (hf : ∀ r s, related r s → f s = f r) (t : Ty) :
    (e.program.completeRecord? t).map f = (d.program.completeRecord? t).map f := by
  have hoptions : (e.program.completeRecord? t).map Record.outline =
      (d.program.completeRecord? t).map Record.outline := by
    rw [← Program.completeRecord?_outline, ← Program.completeRecord?_outline, h.outline]
  cases hr : d.program.completeRecord? t with
  | none => simpa [hr] using hoptions
  | some r =>
    rw [hr] at hoptions
    obtain ⟨s, hs, _⟩ := Option.map_eq_some_iff.mp hoptions
    obtain ⟨id, hid, hrecord, hc⟩ := Program.completeRecord?_eq_some.mp hr
    obtain ⟨_, hid', hrecord', _⟩ := Program.completeRecord?_eq_some.mp hs
    cases hid.symm.trans hid'
    rw [hs, Option.map_some, Option.map_some, hf r s (hrelated id r s hrecord hc hrecord')]

/-- Destructors are the same where those of the objects are. -/
theorem Completes.destructor_eq (h : d.Completes draft r) (hs : e.Completes draft s)
    (hp : e.program.outline = d.program.outline)
    (hdestroy : e.program.destroy = d.program.destroy) : s.destructor = r.destructor := by
  have halike : draft.record.Alike draft.record := ⟨rfl, rfl, rfl⟩
  obtain ⟨_, _, hdone, _, rfl⟩ := Program.completeRecord_eq_some h.completed
  obtain ⟨_, _, hdone', _, rfl⟩ := Program.completeRecord_eq_some hs.completed
  obtain ⟨_, _, f, rfl, _, _, hf⟩ := Synthesis.complete_returns hdone
  obtain ⟨_, _, g, rfl, _, _, hg⟩ := Synthesis.complete_returns hdone'
  rw [Program.synthesis_of_alike hp halike,
    Program.any_baseRecords_of_outline hp halike.outline (·.virtualDestructor) fun _ => rfl] at hg
  have hsame : g = f := by
    refine Synthesis.completeDestructor_congr ?_ ?_ ?_ hf hg
    · rfl
    · rfl
    · exact hdestroy
  change some g = some f
  rw [hsame]

theorem relaxed_destructor_eq {f : Option FunctionDecl} (h : ∀ g, f = some g → g.access ≠ .prot) :
    f.map FunctionDecl.relaxed = f := by
  cases f with
  | none => rfl
  | some g => exact congrArg some (FunctionDecl.relaxed_of_access (h g rfl))

/-- Relaxing a class whose destructor is not protected leaves all destructors as they are. -/
theorem related_destructor (hwritten : ∀ a ∈ actions, a.IsWritten)
    (hopen : ∀ c, (run target actions).program.record? b = some c → ∀ f, c.destructor = some f →
      f.access ≠ .prot) :
    Related (fun r s => s.destructor = r.destructor) (run target actions).program
      (run target (actions.map (·.relaxed b))).program := by
  refine related_run hwritten ?_
  intro first _ draft r s hold hr hs hfinal _
  have hstep := inStep_run b target first
  by_cases hid : draft.record.id = b
  · have hincomplete : (run target first).program.isCompleteRecord b = false := by
      obtain ⟨old, hold, hincomplete⟩ := hr.incomplete
      rw [← hid, Program.isCompleteRecord, hold]
      simpa using hincomplete
    obtain ⟨_, _, hdestructor⟩ := hr.relaxed hs (program_eq_of_incomplete hincomplete) hid
    rw [hdestructor]
    refine relaxed_destructor_eq (hopen r ?_)
    rw [← hid, ← hr.kept.id]
    exact hfinal
  · rw [Draft.relaxed, if_neg hid] at hs
    have hdestruction := hstep.map_completeRecord? hold (f := Record.destruction)
      fun r s hsame => by rw [Record.destruction, Record.destruction, hsame]
    exact hr.destructor_eq hs hstep.outline
      (funext fun t => Program.destroy_congr (hdestruction t.element))

/-- What is related after all actions is so after the first ones. -/
theorem Related.before {related : Record → Record → Prop} {first : List Action}
    (hfirst : first <+: actions) (h : Related related (run target actions).program
      (run target (actions.map (·.relaxed b))).program) :
    Related related (run target first).program (run target (first.map (·.relaxed b))).program := by
  obtain ⟨later, rfl⟩ := hfirst
  intro id r s hr hc hs
  obtain ⟨s', hs', houtline⟩ := (inStep_run b target first).exists_record hr
  cases hs.symm.trans hs'
  have hcomplete : s.complete = true := (congrArg Record.complete houtline :).trans hc
  rw [List.map_append, run_append, run_append] at h
  exact h id r s ((extends_performAll (drafted_run _ _) later).record id r hr hc) hc
    ((extends_performAll (drafted_run _ _) _).record id s hs hcomplete)

theorem Completes.abstract_eq (h : d.Completes draft r) :
    r.facts.abstract = !r.facts.unresolvedPure.isEmpty := by
  obtain ⟨_, _, _, _, rfl⟩ := Program.completeRecord_eq_some h.completed
  rfl

/-- Relaxing a class that is not abstract leaves all classes as abstract as they are. -/
theorem related_abstract (hwritten : ∀ a ∈ actions, a.IsWritten)
    (hconcrete : ∀ c, (run target actions).program.record? b = some c → c.facts.abstract = false) :
    Related (fun r s => s.facts.abstract = r.facts.abstract ∧
        s.facts.unresolvedPure = r.facts.unresolvedPure)
      (run target actions).program (run target (actions.map (·.relaxed b))).program := by
  refine related_run hwritten ?_
  intro first _ draft r s hold hr hs hfinal _
  have hvirtual : (draft.relaxed b).record.virtualFunctions = draft.record.virtualFunctions := by
    by_cases hid : draft.record.id = b
    · have habstract := hconcrete r (by rw [← hid, ← hr.kept.id]; exact hfinal)
      rw [hr.abstract_eq, Bool.not_eq_false', List.isEmpty_iff, hr.unresolvedPure,
        Program.unresolvedPure_eq_nil_iff] at habstract
      rw [Draft.relaxed, if_pos hid]
      refine (List.map_congr_left fun f hf => ?_).trans (List.map_id _)
      rw [id, ← habstract.2 f hf]
    · rw [Draft.relaxed, if_neg hid]
  have hpure : s.facts.unresolvedPure = r.facts.unresolvedPure := by
    have hbases := (Record.kept_of_outline (draft.alike_relaxed (b := b)).outline).bases
    have hmap := (inStep_run b target first).map_completeRecord? hold
      (f := (·.facts.unresolvedPure)) fun r s hsame => hsame.2
    rw [hr.unresolvedPure, hs.unresolvedPure]
    refine Program.unresolvedPure_congr ?_ hvirtual
    rw [Program.baseRecords, Program.baseRecords, hbases, List.map_filterMap, List.map_filterMap]
    congr 1
    funext base
    exact hmap base.type
  exact ⟨by rw [hr.abstract_eq, hs.abstract_eq, hpure], hpure⟩

/-- Records whose objects are default-initialized alike. -/
structure SameDefault (r s : Record) : Prop where
  construction : s.defaultConstruction = r.defaultConstruction
  userProvided : (s.constructors.any fun f => f.takes 0 && f.isUserProvided) =
    r.constructors.any fun f => f.takes 0 && f.isUserProvided

/-- Implicit default constructors are the same where those of the objects are. -/
theorem Completes.default_eq (h : d.Completes draft r) (hs : e.Completes draft s)
    (hbare : draft.IsBare) (hp : e.program.outline = d.program.outline)
    (habstract : s.facts.abstract = r.facts.abstract)
    (hinit : ∀ t, e.program.directInit t [] = d.program.directInit t [])
    (huser : ∀ t, (e.program.completeRecord? t).map (fun r =>
        r.constructors.any fun f => f.takes 0 && f.isUserProvided) =
      (d.program.completeRecord? t).map fun r =>
        r.constructors.any fun f => f.takes 0 && f.isUserProvided)
    (hdestroy : e.program.destroy = d.program.destroy) :
    SameDefault r s ∧ (s.constructorsTaking 0).map FunctionDecl.flags =
      (r.constructorsTaking 0).map FunctionDecl.flags := by
  obtain ⟨o, ho, _, hgive⟩ := Program.implicit_of_completeRecord h.completed hbare
  obtain ⟨o', ho', _, hgive'⟩ := Program.implicit_of_completeRecord hs.completed hbare
  obtain ⟨constexpr, htaking, hempty, huserProvided⟩ := hgive.onlyDefault
  obtain ⟨constexpr', htaking', hempty', huserProvided'⟩ := hgive'.onlyDefault
  have hsynthesis : e.program.synthesis draft.record =
      { d.program.synthesis draft.record with program := e.program } :=
    Program.synthesis_of_alike hp ⟨rfl, rfl, rfl⟩
  have huser : ({ d.program.synthesis draft.record with
      program := e.program } : Synthesis).hasUserDefaultConstructor =
        (d.program.synthesis draft.record).hasUserDefaultConstructor := by
    funext t
    have hany := congrArg (Option.any id) (huser t)
    rw [Option.any_map, Option.any_map] at hany
    exact hany
  have houtcome : o'.default = o.default := by
    have hsame := Synthesis.defaultConstructor_congr (s := d.program.synthesis draft.record)
      (t := { d.program.synthesis draft.record with program := e.program }) rfl rfl rfl hinit huser
      hdestroy
    rw [hsynthesis, hsame, ho] at ho'
    exact (Except.ok.inj ho').symm
  refine ⟨⟨?_, huserProvided'.trans huserProvided.symm⟩, ?_⟩
  · rw [Record.defaultConstruction, Record.defaultConstruction, hempty, hempty', houtcome, habstract]
  · rw [htaking, htaking', houtcome]
    rfl

/-- A class that code outside may default-initialize is default-initialized like its relaxation. -/
theorem sameDefault_relaxed (h : ¬r.Barred 0) (hs : s.facts.abstract = r.facts.abstract)
    (hconstructors : s.constructors = r.constructors.map FunctionDecl.relaxed) :
    SameDefault r s := by
  simp only [Record.Barred, not_or, not_forall, not_not] at h
  obtain ⟨habstract, ⟨f, hf, hoffers⟩, _⟩ := h
  have hparams : f.params.isEmpty = true := by
    rcases hoffers.accepts with hlength | ⟨_, hlength⟩
    · simpa using hlength
    · omega
  have hmem : f ∈ r.constructors.filter fun f => f.params.isEmpty && !f.hidden :=
    List.mem_filter.mpr ⟨hf, by simp [hparams, hoffers.hidden]⟩
  constructor
  · have hfilter : (s.constructors.filter fun f => f.params.isEmpty && !f.hidden) =
        (r.constructors.filter fun f => f.params.isEmpty && !f.hidden).map FunctionDecl.relaxed := by
      rw [hconstructors, List.filter_map]
      rfl
    have hpublic : f.relaxed = f := by
      refine FunctionDecl.relaxed_of_access fun hprot => ?_
      simpa [FunctionDecl.isUsable, hprot] using hoffers.usable
    rw [Record.defaultConstruction, Record.defaultConstruction, hfilter, hs]
    -- One constructor takes no arguments, and then it is `f`, or the call is ambiguous.
    generalize (r.constructors.filter fun f => f.params.isEmpty && !f.hidden) = empty at hmem
    rcases empty with _ | ⟨g, _ | ⟨g', rest⟩⟩
    · simp at hmem
    · rw [← List.mem_singleton.mp hmem, List.map_singleton, hpublic]
    · rfl
  · rw [hconstructors, List.any_map]
    rfl

/-- Relaxing a class that code outside may default-initialize leaves all default constructors as
they are. -/
theorem related_default (hwritten : ∀ a ∈ actions, a.IsWritten) (hdeclares : DeclaresOnly b actions)
    (hopen : ∀ c, (run target actions).program.record? b = some c → ¬c.Barred 0) :
    Related (fun r s => SameDefault r s ∧
        (r.id ≠ b → (s.constructorsTaking 0).map FunctionDecl.flags =
          (r.constructorsTaking 0).map FunctionDecl.flags))
      (run target actions).program (run target (actions.map (·.relaxed b))).program := by
  have habstract := related_abstract hwritten fun c hc => by
    by_contra habstract
    exact hopen c hc (Or.inl (by simpa using habstract))
  have hdestructor := related_destructor hwritten fun c hc f hf hprot => by
    refine hopen c hc (Or.inr (Or.inr fun g hg => ?_))
    cases hf.symm.trans hg
    simp [FunctionDecl.isUsable, hprot]
  refine related_run hwritten ?_
  intro first hfirst draft r s hold hr hs hfinal hfinal'
  obtain ⟨hsame, _⟩ := habstract r.id r s hfinal hr.complete hfinal'
  by_cases hid : draft.record.id = b
  · have hincomplete : (run target first).program.isCompleteRecord b = false := by
      obtain ⟨old, hold, hincomplete⟩ := hr.incomplete
      rw [← hid, Program.isCompleteRecord, hold]
      simpa using hincomplete
    obtain ⟨hconstructors, _⟩ := hr.relaxed hs (program_eq_of_incomplete hincomplete) hid
    refine ⟨sameDefault_relaxed (hopen r ?_) hsame hconstructors, fun hne => ?_⟩
    · rw [← hid, ← hr.kept.id]
      exact hfinal
    · exact absurd (hr.kept.id.trans hid) hne
  · have hstep := inStep_run b target first
    obtain ⟨declared, hdeclared, hdraft⟩ := hr.drafted
    have hbare : draft.IsBare := by
      obtain ⟨hconstructors, hassignments, hdestructor⟩ := isBare_of_mem_drafts
        (fun id step hmem => hdeclares id step (hfirst.subset hmem)) declared hdeclared
        (by rwa [hdraft] at hid)
      rw [hdraft]
      exact ⟨hconstructors, hassignments, hdestructor⟩
    rw [Draft.relaxed, if_neg hid] at hs
    refine (hr.default_eq hs hbare hstep.outline hsame ?_ ?_ ?_).imp_right fun h _ => h
    · exact fun t => Program.directInit_noArguments_congr
        (hstep.map_completeRecord? hold (fun r s hsame => hsame.1.construction) t.element)
    · exact hstep.map_completeRecord? hold fun r s hsame => hsame.1.userProvided
    · exact funext fun t => Program.destroy_congr (hstep.map_completeRecord?
        (hdestructor.before hfirst)
        (fun r s hsame => by rw [Record.destruction, Record.destruction, hsame]) t.element)

end Development
end TypeTraits
