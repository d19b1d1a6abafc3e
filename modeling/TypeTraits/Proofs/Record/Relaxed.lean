import TypeTraits.Proofs.Program.Development
import TypeTraits.Proofs.Record.Outline

/-!
# Relaxed classes

A class is relaxed by declaring its protected members public and its pure virtual functions without
being pure. The compiler defines the members of a relaxed class as it does without.
-/

namespace TypeTraits

namespace FunctionDecl

/-- The function, public if it was protected. -/
def relaxed (f : FunctionDecl) : FunctionDecl :=
  { f with access := if f.access = .prot then .pub else f.access }

theorem relaxed_of_access {f : FunctionDecl} (h : f.access ≠ .prot) : f.relaxed = f := by
  simp [relaxed, h]

theorem relaxed_specify (f : FunctionDecl) (s : FunctionSpecifier) :
    (f.specify s).relaxed =
      f.relaxed.specify (if s = .access .prot then .access .pub else s) := by
  cases s with
  | access access => cases access <;> rfl
  | _ => rfl

theorem relaxed_declare (params : List Ty) (result : Ty) (specifiers : List FunctionSpecifier) :
    (declare params result specifiers).relaxed = declare params result
      (specifiers.map fun s => if s = .access .prot then .access .pub else s) := by
  unfold declare
  have hstart : ({ params, result } : FunctionDecl).relaxed = { params, result } := rfl
  generalize ({ params, result } : FunctionDecl) = f at hstart
  rw [List.foldl_map]
  conv_rhs => rw [← hstart]
  clear hstart
  induction specifiers generalizing f with
  | nil => rfl
  | cons s rest ih =>
    rw [List.foldl_cons, List.foldl_cons, ih, relaxed_specify]

end FunctionDecl

namespace RecordStep

/-- The step with its constructor, assignment operator or destructor public instead of protected, or
its function virtual without being pure. -/
def relaxed : RecordStep → RecordStep
  | .constructor f => .constructor f.relaxed
  | .assignment f => .assignment f.relaxed
  | .destructor f => .destructor f.relaxed
  | .pureVirtual name => .virtualFunction name
  | step => step

theorem IsWritten.relaxed {step : RecordStep} (h : step.IsWritten) : step.relaxed.IsWritten := by
  cases step with
  | constructor f | assignment f | destructor f =>
    obtain ⟨params, result, specifiers, rfl⟩ := h.functions f (by simp [RecordStep.functions])
    have hsignature := h.signatures _ (List.mem_singleton.mpr rfl)
    obtain ⟨hparams, hresult⟩ := FunctionDecl.declare_signature params result specifiers
    rw [hparams, hresult] at hsignature
    rw [RecordStep.relaxed, FunctionDecl.relaxed_declare]
    exact isWritten_of_declare rfl hsignature
  | pureVirtual name => exact isWritten_of_types rfl (by simp [RecordStep.relaxed, RecordStep.types])
  | _ => exact h

end RecordStep

def Record.relaxed (r : Record) : Record :=
  { r with
    constructors := r.constructors.map FunctionDecl.relaxed
    assignments := r.assignments.map FunctionDecl.relaxed
    destructor := r.destructor.map FunctionDecl.relaxed
    virtualFunctions := r.virtualFunctions.map fun f => { f with pure := false } }

namespace Draft

/-- The draft, relaxed if it is of the class `b`. -/
def relaxed (b : RecordId) (d : Draft) : Draft :=
  if d.record.id = b then { d with record := d.record.relaxed } else d

variable {b : RecordId}

@[simp] theorem relaxed_id (d : Draft) : (d.relaxed b).record.id = d.record.id := by
  unfold relaxed
  split <;> rfl

theorem relaxed_apply (d : Draft) (step : RecordStep) :
    (d.apply step).relaxed b =
      (d.relaxed b).apply (if d.record.id = b then step.relaxed else step) := by
  unfold relaxed
  rw [apply_id]
  split
  · cases step with
    | assignment f =>
      simp only [apply, RecordStep.relaxed, Record.relaxed, List.map_append, List.map_cons,
        List.map_nil, FunctionDecl.relaxed, lvalueRef, type, Record.type]
      split <;> rfl
    | _ => simp [apply, RecordStep.relaxed, Record.relaxed, addBase, addMember, setDestructor,
        addConversion, addVirtual, FunctionDecl.relaxed]
  · rfl

theorem alike_relaxed (d : Draft) : d.record.Alike (d.relaxed b).record := by
  unfold relaxed
  split
  · exact ⟨rfl, by simp [Record.relaxed], by simp [Record.relaxed, FunctionDecl.relaxed, Option.any_map]⟩
  · exact ⟨rfl, rfl, rfl⟩

end Draft

namespace Synthesis

variable (s : Synthesis) {draft : Draft} {inheritsVirtual : Bool}

theorem defineConstructor_relaxed (r : Record) (f : FunctionDecl) :
    s.defineConstructor r.relaxed f.relaxed = FunctionDecl.relaxed <$> s.defineConstructor r f := by
  have hspecial : r.relaxed.specialConstructor? f.relaxed = r.specialConstructor? f := rfl
  have horigin : f.relaxed.origin = f.origin := rfl
  simp only [defineConstructor, hspecial, horigin]
  split
  · rfl
  · cases r.specialConstructor? f with
    | none => rfl
    | some kind => cases kind <;> simp [FunctionDecl.relaxed, Outcome.apply, FunctionDecl.takesConst]

theorem defineAssignment_relaxed (r : Record) (f : FunctionDecl) :
    s.defineAssignment r.relaxed f.relaxed = FunctionDecl.relaxed <$> s.defineAssignment r f := by
  have hspecial : r.relaxed.specialAssignment? f.relaxed = r.specialAssignment? f := rfl
  have horigin : f.relaxed.origin = f.origin := rfl
  simp only [defineAssignment, hspecial, horigin]
  split
  · rfl
  · cases r.specialAssignment? f with
    | none => rfl
    | some kind => cases kind <;> simp [FunctionDecl.relaxed, Outcome.apply, FunctionDecl.takesConst]

theorem mapM_relaxed {define define' : FunctionDecl → Check FunctionDecl}
    (h : ∀ f, define' f.relaxed = FunctionDecl.relaxed <$> define f) (fs : List FunctionDecl) :
    (fs.map FunctionDecl.relaxed).mapM define' = List.map FunctionDecl.relaxed <$> fs.mapM define := by
  induction fs with
  | nil => simp
  | cons f fs ih => simp [h, ih]

theorem ofRecord_relaxed (r : Record) : Declared.ofRecord r.relaxed = Declared.ofRecord r := by
  have hconstructors : ∀ k, (r.relaxed.constructors.any fun f =>
      r.relaxed.specialConstructor? f == some k) =
      r.constructors.any fun f => r.specialConstructor? f == some k := by
    intro k
    simp only [Record.relaxed, List.any_map]
    rfl
  have hassignments : ∀ k, (r.relaxed.assignments.any fun f =>
      r.relaxed.specialAssignment? f == some k) =
      r.assignments.any fun f => r.specialAssignment? f == some k := by
    intro k
    simp only [Record.relaxed, List.any_map]
    rfl
  simp only [Declared.ofRecord, hconstructors, hassignments]
  simp [Record.relaxed]

/-- Public functions are as they are. -/
theorem map_relaxed_of_public {c : Check Outcome} {implicit : Outcome → List FunctionDecl}
    (h : ∀ o, ∀ f ∈ implicit o, f.access = .pub) :
    List.map FunctionDecl.relaxed <$> (do return implicit (← c) : Check (List FunctionDecl)) =
      (do return implicit (← c)) := by
  have hsame : ∀ o, (implicit o).map FunctionDecl.relaxed = implicit o := by
    intro o
    refine (List.map_congr_left fun f hf => ?_).trans (List.map_id _)
    exact FunctionDecl.relaxed_of_access (by simp [h o f hf])
  simp [hsame]

theorem completeDestructor_relaxed :
    s.completeDestructor { draft with record := draft.record.relaxed } inheritsVirtual =
      FunctionDecl.relaxed <$> s.completeDestructor draft inheritsVirtual := by
  have hrelaxed : draft.record.relaxed.destructor =
      draft.record.destructor.map FunctionDecl.relaxed := rfl
  unfold completeDestructor
  dsimp only
  rw [hrelaxed, map_bind]
  congr 1
  funext o
  cases draft.record.destructor with
  | none => cases inheritsVirtual <;> rfl
  | some f =>
    have horigin : f.relaxed.origin = f.origin := rfl
    have hvirtual : f.relaxed.isVirtual = f.isVirtual := rfl
    simp only [Option.map_some, horigin, map_pure]
    congr 1
    cases f.origin <;> cases inheritsVirtual <;> cases hv : f.isVirtual <;>
      simp [FunctionDecl.relaxed, Outcome.apply, hv]

theorem implicitDefault_relaxed (d : Declared) :
    List.map FunctionDecl.relaxed <$> s.implicitDefault d = s.implicitDefault d := by
  unfold implicitDefault
  split
  · rfl
  · exact map_relaxed_of_public (by simp [Outcome.implicitly, Outcome.apply])

theorem implicitCopyConstructor_relaxed (d : Declared) :
    s.implicitCopyConstructor { draft with record := draft.record.relaxed } d =
      List.map FunctionDecl.relaxed <$> s.implicitCopyConstructor draft d := by
  simp only [implicitCopyConstructor]
  split
  · rfl
  · split <;> exact (map_relaxed_of_public (by simp [Outcome.implicitly, Outcome.apply])).symm

theorem implicitMoveConstructor_relaxed (d : Declared) :
    s.implicitMoveConstructor { draft with record := draft.record.relaxed } d =
      List.map FunctionDecl.relaxed <$> s.implicitMoveConstructor draft d := by
  unfold implicitMoveConstructor
  split
  · rfl
  · exact (map_relaxed_of_public (by simp [Outcome.implicitly, Outcome.apply])).symm

theorem implicitCopyAssignment_relaxed (d : Declared) :
    s.implicitCopyAssignment { draft with record := draft.record.relaxed } d =
      List.map FunctionDecl.relaxed <$> s.implicitCopyAssignment draft d := by
  simp only [implicitCopyAssignment]
  split
  · rfl
  · split <;> exact (map_relaxed_of_public (by simp [Outcome.implicitly, Outcome.apply])).symm

theorem implicitMoveAssignment_relaxed (d : Declared) :
    s.implicitMoveAssignment { draft with record := draft.record.relaxed } d =
      List.map FunctionDecl.relaxed <$> s.implicitMoveAssignment draft d := by
  unfold implicitMoveAssignment
  split
  · rfl
  · exact (map_relaxed_of_public (by simp [Outcome.implicitly, Outcome.apply])).symm

/-- The members of a relaxed class are those of the class, relaxed. -/
theorem complete_relaxed :
    s.complete { draft with record := draft.record.relaxed } inheritsVirtual =
      Record.relaxed <$> s.complete draft inheritsVirtual := by
  have hconstructors : draft.record.relaxed.constructors.mapM
      (s.defineConstructor draft.record.relaxed) = List.map FunctionDecl.relaxed <$>
        draft.record.constructors.mapM (s.defineConstructor draft.record) :=
    mapM_relaxed (s.defineConstructor_relaxed draft.record) draft.record.constructors
  have hassignments : draft.record.relaxed.assignments.mapM
      (s.defineAssignment draft.record.relaxed) = List.map FunctionDecl.relaxed <$>
        draft.record.assignments.mapM (s.defineAssignment draft.record) :=
    mapM_relaxed (s.defineAssignment_relaxed draft.record) draft.record.assignments
  unfold complete
  dsimp only
  rw [hconstructors, hassignments, ofRecord_relaxed, implicitCopyConstructor_relaxed,
    implicitMoveConstructor_relaxed, implicitCopyAssignment_relaxed,
    implicitMoveAssignment_relaxed, completeDestructor_relaxed]
  conv_lhs => rw [← implicitDefault_relaxed]
  simp only [map_bind, bind_map_left, map_pure]
  simp [Record.relaxed]

end Synthesis
end TypeTraits
