import Mathlib.Data.List.Basic
import Mathlib.Data.List.Induction
import TypeTraits.Proofs.Program.Store
import TypeTraits.Proofs.Record.Completion

/-!
# Programs under development

Records are started, written step by step and finished, in any interleaving, next to records that
stay incomplete and to enumerations. Whatever the order, each record keeps its number, a draft is
of a record that is incomplete, and the bases of a complete record were completed before it. What
holds of each record at its completion, and does not cease to hold, holds of all complete records.
-/

namespace TypeTraits

/-- What a user may declare: the compiler alone makes functions trivial, hidden or implicit. -/
structure FunctionDecl.IsUserWritten (f : FunctionDecl) : Prop where
  trivial : f.trivial = false
  hidden : f.hidden = false
  origin : f.origin ≠ .implicit

theorem FunctionDecl.isUserWritten_declare (params : List Ty) (result : Ty)
    (specifiers : List FunctionSpecifier) :
    (declare params result specifiers).IsUserWritten := by
  have hspecify : ∀ (f : FunctionDecl) (s : FunctionSpecifier), f.IsUserWritten →
      (f.specify s).IsUserWritten := by
    intro f s ⟨ht, hh, ho⟩
    cases s <;> exact ⟨ht, hh, by simp_all [specify]⟩
  unfold declare
  have hstart : ({ params, result } : FunctionDecl).IsUserWritten := ⟨rfl, rfl, by simp⟩
  generalize ({ params, result } : FunctionDecl) = f at hstart
  induction specifiers generalizing f with
  | nil => exact hstart
  | cons s rest ih => exact ih (f.specify s) (hspecify f s hstart)

theorem FunctionDecl.declare_signature (params : List Ty) (result : Ty)
    (specifiers : List FunctionSpecifier) :
    (declare params result specifiers).params = params ∧
      (declare params result specifiers).result = result := by
  have hspecify : ∀ (f : FunctionDecl) (s : FunctionSpecifier),
      (f.specify s).params = f.params ∧ (f.specify s).result = f.result := by
    intro f s
    cases s <;> exact ⟨rfl, rfl⟩
  unfold declare
  generalize hstart : ({ params, result } : FunctionDecl) = f
  have hf : f.params = params ∧ f.result = result := by simp [← hstart]
  clear hstart
  induction specifiers generalizing f with
  | nil => exact hf
  | cons s rest ih =>
    exact ih (f.specify s) ⟨(hspecify f s).1.trans hf.1, (hspecify f s).2.trans hf.2⟩

namespace RecordStep

/-- The functions that a step names. -/
def functions : RecordStep → List FunctionDecl
  | .constructor f | .assignment f | .destructor f | .conversion f | .callOperator f
  | .indirection f | .swap f => [f]
  | _ => []

/-- The types that a step names itself, those of its function left out. -/
def types : RecordStep → List Ty
  | .base t | .baseWith t _ _ | .virtualBase t | .member _ t | .memberWith _ t _
  | .initializedMember _ t | .mutableMember _ t | .wraps t => [t]
  | _ => []

/-- Steps as they can be written: functions are declared by their specifiers, and types are in
normal form. -/
structure IsWritten (step : RecordStep) : Prop where
  functions : ∀ f ∈ step.functions, ∃ params result specifiers,
    f = FunctionDecl.declare params result specifiers
  signatures : ∀ f ∈ step.functions, ∀ t ∈ f.params ++ [f.result], t.isNormal = true
  types : ∀ t ∈ step.types, t.isNormal = true

theorem isWritten_of_types {step : RecordStep} (hfunctions : step.functions = [])
    (htypes : ∀ t ∈ step.types, t.isNormal = true) : step.IsWritten :=
  ⟨by simp [hfunctions], by simp [hfunctions], htypes⟩

theorem isWritten_of_declare {step : RecordStep} {params : List Ty} {result : Ty}
    {specifiers : List FunctionSpecifier}
    (hfunctions : step.functions = [FunctionDecl.declare params result specifiers])
    (hsignature : ∀ t ∈ params ++ [result], t.isNormal = true) : step.IsWritten where
  functions := by
    rw [hfunctions]
    intro f hf
    exact ⟨params, result, specifiers, List.mem_singleton.mp hf⟩
  signatures := by
    rw [hfunctions]
    intro f hf
    obtain ⟨hparams, hresult⟩ := FunctionDecl.declare_signature params result specifiers
    rw [List.mem_singleton.mp hf, hparams, hresult]
    exact hsignature
  types := by
    cases step <;> simp_all [RecordStep.functions, RecordStep.types]

end RecordStep

theorem Record.mem_types {r : Record} {t : Ty} :
    t ∈ r.types ↔ (∃ b ∈ r.bases, b.type = t) ∨ (∃ m ∈ r.members, m.type = t) ∨
      (∃ f ∈ r.allFunctions, t ∈ f.params ++ [f.result]) ∨ r.wraps = some t := by
  simp only [types, List.append_assoc, List.mem_append, List.mem_map, List.mem_flatMap,
    Option.mem_toList]

namespace Draft

variable {d : Draft} {step : RecordStep}

/-- The functions that a step adds to a draft. -/
def written (d : Draft) : RecordStep → List FunctionDecl
  | .assignment f => [if f.result = .void then { f with result := d.lvalueRef } else f]
  | .throwingDestructor => [{ params := [] }]
  | .virtualDestructor => [{ params := [], isVirtual := true }]
  | .wraps t => [{ params := [], result := t.lvalueRefTo, cv := .const, noexcept := true }]
  | step => step.functions

@[simp] theorem apply_id (step : RecordStep) : (d.apply step).record.id = d.record.id := by
  cases step <;> rfl

@[simp] theorem apply_key (step : RecordStep) : (d.apply step).record.key = d.record.key := by
  cases step <;> rfl

theorem mem_allFunctions_apply {f : FunctionDecl} (h : f ∈ (d.apply step).record.allFunctions) :
    f ∈ d.record.allFunctions ∨ f ∈ d.written step := by
  cases step <;>
    simp_all only [apply, written, RecordStep.functions, Record.allFunctions, addBase, addMember,
      setDestructor, addConversion, addVirtual, List.mem_append, List.mem_singleton,
      Option.toList_some] <;>
    grind

theorem mem_types_apply {t : Ty} (h : t ∈ (d.apply step).record.types) :
    t ∈ d.record.types ∨ t ∈ step.types ∨ ∃ f ∈ d.written step, t ∈ f.params ++ [f.result] := by
  rcases Record.mem_types.mp h with ⟨b, hb, rfl⟩ | ⟨m, hm, rfl⟩ | ⟨f, hf, ht⟩ | hw
  · have hbase : b ∈ d.record.bases ∨ b.type ∈ step.types := by
      cases step <;> simp_all [apply, RecordStep.types, addBase, addMember, setDestructor,
        addConversion, addVirtual] <;> grind
    exact hbase.imp (fun hb => Record.mem_types.mpr (Or.inl ⟨b, hb, rfl⟩)) Or.inl
  · have hmember : m ∈ d.record.members ∨ m.type ∈ step.types := by
      cases step <;> simp_all [apply, RecordStep.types, addBase, addMember, setDestructor,
        addConversion, addVirtual] <;> grind
    exact hmember.imp (fun hm => Record.mem_types.mpr (Or.inr (Or.inl ⟨m, hm, rfl⟩))) Or.inl
  · rcases mem_allFunctions_apply hf with hf | hf
    · exact Or.inl (Record.mem_types.mpr (Or.inr (Or.inr (Or.inl ⟨f, hf, ht⟩))))
    · exact Or.inr (Or.inr ⟨f, hf, ht⟩)
  · have hwraps : d.record.wraps = some t ∨ t ∈ step.types := by
      cases step <;> simp_all [apply, RecordStep.types, addBase, addMember, setDestructor,
        addConversion, addVirtual]
    exact hwraps.imp (fun hw => Record.mem_types.mpr (Or.inr (Or.inr (Or.inr hw)))) Or.inl

theorem isUserWritten_of_mem_written (hstep : step.IsWritten) :
    ∀ f ∈ d.written step, f.IsUserWritten := by
  have hfunctions : ∀ f ∈ step.functions, f.IsUserWritten := by
    intro f hf
    obtain ⟨params, result, specifiers, rfl⟩ := hstep.functions f hf
    exact FunctionDecl.isUserWritten_declare params result specifiers
  intro f hf
  cases step with
  | assignment g =>
    have hg := hfunctions g (by simp [RecordStep.functions])
    simp only [written, List.mem_singleton] at hf
    subst hf
    split
    · exact ⟨hg.trivial, hg.hidden, hg.origin⟩
    · exact hg
  | throwingDestructor | virtualDestructor | wraps t =>
    simp only [written, List.mem_singleton] at hf
    subst hf
    exact ⟨rfl, rfl, by simp⟩
  | _ => exact hfunctions f hf

theorem isNormal_of_mem_written (hstep : step.IsWritten) :
    ∀ f ∈ d.written step, ∀ t ∈ f.params ++ [f.result], t.isNormal = true := by
  intro f hf t ht
  cases step with
  | assignment g =>
    have hg := hstep.signatures g (by simp [RecordStep.functions])
    simp only [written, List.mem_singleton] at hf
    subst hf
    split at ht
    · simp only [List.mem_append, List.mem_singleton] at ht
      rcases ht with ht | rfl
      · exact hg t (by simp [ht])
      · rfl
    · exact hg t ht
  | throwingDestructor | virtualDestructor =>
    simp only [written, List.mem_singleton] at hf
    subst hf
    simp only [List.nil_append, List.mem_singleton] at ht
    subst ht
    rfl
  | wraps u =>
    simp only [written, List.mem_singleton] at hf
    subst hf
    simp only [List.nil_append, List.mem_singleton] at ht
    subst ht
    exact Ty.isNormal_lvalueRefTo (hstep.types u (by simp [RecordStep.types]))
  | _ => exact hstep.signatures f hf t ht

end Draft

/-- A program with the records that are being written, and those that are complete in the order of
their completion. -/
structure Development where
  program : Program
  drafts : List Draft := []
  completed : List RecordId := []

/-- One thing that is done to a program under development. -/
inductive Action where
  | start (name : String) (key : ClassKey)
  | write (id : RecordId) (step : RecordStep)
  /-- Completes a record, or gives its draft up. -/
  | finish (id : RecordId)
  /-- Declares a record that is never written. -/
  | incomplete (name : String) (key : ClassKey)
  | enumeration (e : Enumeration)

/-- Actions of which everything that is written can be written. -/
def Action.IsWritten : Action → Prop
  | .write _ step => step.IsWritten
  | .enumeration e => ∀ t, e.fixedUnderlying = some t → t.isNormal = true
  | _ => True

namespace Development

/-- The development after one action. -/
def perform (d : Development) : Action → Development
  | .start name key =>
    { d with
      program := (d.program.startRecord name key).1
      drafts := (d.program.startRecord name key).2 :: d.drafts }
  | .write id step =>
    { d with
      drafts := d.drafts.map fun draft =>
        if draft.record.id = id then draft.apply step else draft }
  | .finish id =>
    match d.drafts.find? (·.record.id = id) with
    | none => d
    | some draft =>
      let drafts := d.drafts.filter (·.record.id ≠ id)
      match d.program.finishRecord draft with
      | .error _ => { d with drafts }
      | .ok (program, _) => { program, drafts, completed := d.completed ++ [id] }
  | .incomplete name key => { d with program := (d.program.declareRecord name key).1 }
  | .enumeration e => { d with program := (d.program.declareEnum e).1 }

/-- The developments that actions that can be written lead to from nothing. -/
inductive Reachable : Development → Prop
  | fresh (target : Target) : Reachable { program := { target } }
  | perform {d : Development} {a : Action} :
      Reachable d → a.IsWritten → Reachable (d.perform a)

/-- The development after some actions, one after the other. -/
def performAll (d : Development) (actions : List Action) : Development := actions.foldl perform d

/-- The development that actions lead to from nothing. -/
def run (target : Target) (actions : List Action) : Development :=
  performAll { program := { target } } actions

theorem run_append (target : Target) (first later : List Action) :
    run target (first ++ later) = (run target first).performAll later :=
  List.foldl_append

theorem run_snoc (target : Target) (actions : List Action) (a : Action) :
    run target (actions ++ [a]) = (run target actions).perform a :=
  List.foldl_append

theorem Reachable.performAll {d : Development} (h : d.Reachable) {actions : List Action}
    (ha : ∀ a ∈ actions, a.IsWritten) : (d.performAll actions).Reachable := by
  induction actions generalizing d with
  | nil => exact h
  | cons a rest ih =>
    exact ih (h.perform (ha a List.mem_cons_self)) fun b hb => ha b (List.mem_cons_of_mem _ hb)

/-- Every draft is of a record that is declared and not complete. -/
def Drafted (d : Development) : Prop :=
  ∀ draft ∈ d.drafts, ∃ r, d.program.record? draft.record.id = some r ∧ r.complete = false

/-- What holds of every development: see `Reachable.valid`. -/
structure Valid (d : Development) : Prop where
  id : ∀ id r, d.program.record? id = some r → r.id = id
  drafted : d.Drafted
  written : ∀ draft ∈ d.drafts, ∀ f ∈ draft.record.allFunctions, f.IsUserWritten
  normal : ∀ draft ∈ d.drafts, ∀ t ∈ draft.record.types, t.isNormal = true
  completed : ∀ id, id ∈ d.completed ↔ d.program.isCompleteRecord id = true
  bases : ∀ id r, d.program.record? id = some r → r.complete = true →
    (r.isUnion = true → r.bases = []) ∧ ∀ base ∈ r.bases, d.program.IsProperBase id base ∧
      ∀ b, base.type = .record b → d.completed.idxOf b < d.completed.idxOf id

theorem drafted_fresh (target : Target) : Drafted { program := { target } } := by simp [Drafted]

theorem valid_fresh (target : Target) : Valid { program := { target } } where
  id id r h := by simp [Program.record?] at h
  drafted := drafted_fresh target
  written := by simp
  normal := by simp
  completed id := by simp [Program.isCompleteRecord, Program.record?]
  bases id r h := by simp [Program.record?] at h

/-- The completion of a draft whose bases and members have been checked. -/
structure Completes (d : Development) (draft : Draft) (r : Record) : Prop where
  drafted : ∃ declared ∈ d.drafts,
    draft = { declared with record := { declared.record with bases := draft.record.bases } }
  incomplete : ∃ old, d.program.record? draft.record.id = some old ∧ old.complete = false
  written : ∀ f ∈ draft.record.allFunctions, f.IsUserWritten
  normal : ∀ t ∈ draft.record.types, t.isNormal = true
  noBases : draft.record.isUnion = true → draft.record.bases = []
  bases : ∀ base ∈ draft.record.bases, d.program.IsProperBase draft.record.id base
  members : d.program.checkMembers draft.record = .ok ()
  completed : d.program.completeRecord draft = some r

namespace Completes

variable {d : Development} {draft : Draft} {r : Record}

theorem kept (h : d.Completes draft r) : Program.Kept draft.record r :=
  Program.kept_of_completeRecord h.completed

theorem complete (h : d.Completes draft r) : r.complete = true :=
  Program.complete_of_completeRecord h.completed

theorem replaced (h : d.Completes draft r) :
    ∃ old, d.program.record? r.id = some old ∧ old.complete = false := by
  rw [h.kept.id]
  exact h.incomplete

theorem declared (h : d.Completes draft r) : (d.program.record? r.id).isSome := by
  obtain ⟨old, hold, _⟩ := h.replaced
  simp [hold]

/-- The record that is completed was incomplete, so no complete record is replaced. -/
theorem extends_defineRecord (h : d.Completes draft r) :
    d.program.Extends (d.program.defineRecord r) :=
  Program.extends_defineRecord h.replaced

theorem continues_defineRecord (h : d.Completes draft r) :
    d.program.Continues (d.program.defineRecord r) :=
  ⟨h.extends_defineRecord, Program.enums_defineRecord r ▸ List.prefix_rfl⟩

end Completes

variable {d : Development} {a : Action}

/-- Finishing a record checks and completes its draft, or only gives it up. -/
theorem perform_finish (d : Development) (id : RecordId) :
    ((d.perform (.finish id)).program = d.program ∧
      (d.perform (.finish id)).completed = d.completed ∧
      (d.perform (.finish id)).drafts ⊆ d.drafts) ∨
    ∃ draft ∈ d.drafts, ∃ bases r, draft.record.id = id ∧
      d.program.checkBases draft.record = .ok bases ∧
      d.program.checkMembers draft.record = .ok () ∧
      d.program.completeRecord { draft with record := { draft.record with bases } } = some r ∧
      (d.perform (.finish id)).program = d.program.defineRecord r ∧
      (d.perform (.finish id)).completed = d.completed ++ [id] ∧
      ∀ other ∈ (d.perform (.finish id)).drafts, other ∈ d.drafts ∧ other.record.id ≠ id := by
  cases hfind : d.drafts.find? (·.record.id = id) with
  | none =>
    left
    simp [perform, hfind]
  | some draft =>
    have hmem : draft ∈ d.drafts := List.mem_of_find?_eq_some hfind
    have hid : draft.record.id = id := by simpa using List.find?_some hfind
    cases hfinish : d.program.finishRecord draft with
    | error e =>
      left
      refine ⟨by simp [perform, hfind, hfinish], by simp [perform, hfind, hfinish], ?_⟩
      intro other hother
      simp only [perform, hfind, hfinish, List.mem_filter] at hother
      exact hother.1
    | ok result =>
      right
      obtain ⟨q, t⟩ := result
      obtain ⟨bases, r, hbases, hmembers, hr, rfl, rfl⟩ := Program.finishRecord_eq_ok.mp hfinish
      refine ⟨draft, hmem, bases, r, hid, hbases, hmembers, hr, ?_, ?_, ?_⟩ <;>
        simp [perform, hfind, hfinish]

/-- A draft that passes all checks is completed. -/
theorem Valid.completes (h : d.Valid) {draft : Draft} {bases : List BaseClass} {r : Record}
    (hmem : draft ∈ d.drafts) (hbases : d.program.checkBases draft.record = .ok bases)
    (hmembers : d.program.checkMembers draft.record = .ok ())
    (hr : d.program.completeRecord { draft with record := { draft.record with bases } } = some r) :
    d.Completes { draft with record := { draft.record with bases } } r := by
  obtain ⟨hunion, hproper⟩ := Program.isProperBase_of_checkBases (h.normal draft hmem) hbases
  exact
    { drafted := ⟨draft, hmem, rfl⟩
      incomplete := h.drafted draft hmem
      written := h.written draft hmem
      normal := by
        intro t ht
        rcases Record.mem_types.mp ht with ⟨b, hb, rfl⟩ | hrest
        · obtain ⟨_, _, hb, _⟩ := hproper b hb
          rw [hb]
          rfl
        · exact h.normal draft hmem t (Record.mem_types.mpr (Or.inr hrest))
      noBases := hunion
      bases := hproper
      members := hmembers
      completed := hr }

/-- Finishing a record completes its draft, or only gives it up. -/
theorem perform_finish_cases (h : d.Valid) (id : RecordId) :
    ((d.perform (.finish id)).program = d.program ∧
      (d.perform (.finish id)).completed = d.completed ∧
      (d.perform (.finish id)).drafts ⊆ d.drafts) ∨
    ∃ draft r, d.Completes draft r ∧ r.id = id ∧
      (d.perform (.finish id)).program = d.program.defineRecord r ∧
      (d.perform (.finish id)).completed = d.completed ++ [id] ∧
      ∀ other ∈ (d.perform (.finish id)).drafts, other ∈ d.drafts ∧ other.record.id ≠ id := by
  refine (perform_finish d id).imp_right ?_
  rintro ⟨draft, hmem, bases, r, hid, hbases, hmembers, hr, hresult⟩
  have hc := h.completes hmem hbases hmembers hr
  exact ⟨_, r, hc, hc.kept.id.trans hid, hresult⟩

/-- An action keeps the complete records. -/
theorem extends_perform (h : d.Drafted) (a : Action) :
    d.program.Extends (d.perform a).program := by
  cases a with
  | start name key | incomplete name key =>
    exact ⟨rfl, fun id r hr _ => Program.record?_declareRecord_of_record? hr⟩
  | write id step => exact .refl _
  | enumeration e => exact ⟨rfl, fun id r hr _ => hr⟩
  | finish id =>
    rcases perform_finish d id with ⟨hp, _⟩ | ⟨draft, hmem, _, r, _, _, _, hr, hp, _⟩ <;> rw [hp]
    · exact .refl _
    · have hid : r.id = draft.record.id := (Program.kept_of_completeRecord hr).id
      exact Program.extends_defineRecord (hid ▸ h draft hmem)

/-- An action keeps the enumerations, too. -/
theorem continues_perform (h : d.Drafted) (a : Action) :
    d.program.Continues (d.perform a).program := by
  refine ⟨extends_perform h a, ?_⟩
  cases a with
  | start name key | incomplete name key | write id step => exact List.prefix_rfl
  | enumeration e => exact ⟨[_], (Array.toList_push ..).symm⟩
  | finish id =>
    rcases perform_finish d id with ⟨hp, _⟩ | ⟨_, _, _, r, _, _, _, _, hp, _⟩
    · exact hp ▸ List.prefix_rfl
    · have henums : (d.perform (.finish id)).program.enums = d.program.enums := by
        rw [hp, Program.enums_defineRecord]
      exact henums ▸ List.prefix_rfl

/-- A record after an action was there before it, or was declared by the action and is incomplete,
or was completed by it. -/
theorem record?_perform_cases (h : d.Valid) {id : RecordId} {r : Record}
    (hr : (d.perform a).program.record? id = some r) :
    d.program.record? id = some r ∨ (r.complete = false ∧ r.id = id) ∨
      ∃ draft, d.Completes draft r ∧ r.id = id ∧
        (d.perform a).program = d.program.defineRecord r ∧
        (d.perform a).completed = d.completed ++ [id] := by
  cases a with
  | start name key | incomplete name key =>
    replace hr : (d.program.declareRecord name key).1.record? id = some r := hr
    rw [Program.record?_declareRecord] at hr
    split at hr
    · rename_i hid
      cases hr
      exact Or.inr (Or.inl ⟨rfl, hid.symm⟩)
    · exact Or.inl hr
  | write _ _ | enumeration _ => exact Or.inl hr
  | finish id' =>
    rcases perform_finish_cases h id' with ⟨hp, _⟩ | ⟨draft, r', hc, rfl, hp, hcompleted, _⟩
    · exact Or.inl (hp ▸ hr)
    · rw [hp, Program.record?_defineRecord hc.declared] at hr
      split at hr
      · rename_i hid
        cases hr
        exact Or.inr (Or.inr ⟨draft, hc, hid.symm, hp, hid ▸ hcompleted⟩)
      · exact Or.inl hr

/-- A relation between each draft and its declared record, which starting a record establishes and
writing to it keeps. -/
theorem forall_draft_perform {rel : Draft → Record → Prop}
    (start : ∀ id name key, rel { record := { id, name, key } } { id, name, key })
    (write : ∀ draft step r, rel draft r → rel (draft.apply step) r)
    (h : ∀ draft ∈ d.drafts, ∃ r, d.program.record? draft.record.id = some r ∧ rel draft r)
    (a : Action) : ∀ draft ∈ (d.perform a).drafts,
      ∃ r, (d.perform a).program.record? draft.record.id = some r ∧ rel draft r := by
  intro draft hdraft
  cases a with
  | start name key =>
    rcases List.mem_cons.mp hdraft with rfl | hdraft
    · exact ⟨_, (Program.record?_declareRecord name key _).trans (if_pos rfl), start ..⟩
    · obtain ⟨r, hr, hrel⟩ := h draft hdraft
      exact ⟨r, Program.record?_declareRecord_of_record? hr, hrel⟩
  | incomplete name key =>
    obtain ⟨r, hr, hrel⟩ := h draft hdraft
    exact ⟨r, Program.record?_declareRecord_of_record? hr, hrel⟩
  | enumeration e => exact h draft hdraft
  | write id step =>
    obtain ⟨old, hold, rfl⟩ := List.mem_map.mp hdraft
    obtain ⟨r, hr, hrel⟩ := h old hold
    split
    · exact ⟨r, (Draft.apply_id step).symm ▸ hr, write old step r hrel⟩
    · exact ⟨r, hr, hrel⟩
  | finish id =>
    rcases perform_finish d id with ⟨hp, _, hsub⟩ |
      ⟨done, hdone, _, r, rfl, _, _, hr, hp, _, hothers⟩
    · rw [hp]
      exact h draft (hsub hdraft)
    · obtain ⟨hmem, hne⟩ := hothers draft hdraft
      obtain ⟨old, hold, hrel⟩ := h draft hmem
      obtain ⟨replaced, hreplaced, _⟩ := h done hdone
      have hid : r.id = done.record.id := (Program.kept_of_completeRecord hr).id
      have hdeclared : (d.program.record? r.id).isSome := by simp [hid, hreplaced]
      refine ⟨old, ?_, hrel⟩
      rw [hp, Program.record?_defineRecord hdeclared, hid, if_neg hne, hold]

theorem Drafted.perform (h : d.Drafted) (a : Action) : (d.perform a).Drafted :=
  forall_draft_perform (fun _ _ _ => rfl) (fun _ _ _ h => h) h a

theorem drafted_run (target : Target) (actions : List Action) : (run target actions).Drafted := by
  have hrun : ∀ {d : Development}, d.Drafted → (d.performAll actions).Drafted := by
    induction actions with
    | nil => exact fun h => h
    | cons a rest ih => exact fun h => ih (h.perform a)
  exact hrun (drafted_fresh target)

/-- What holds of the functions and types that steps write holds of those of every draft. -/
theorem draft_perform (h : d.Valid) (ha : a.IsWritten) : ∀ draft ∈ (d.perform a).drafts,
    (∀ f ∈ draft.record.allFunctions, f.IsUserWritten) ∧
      ∀ t ∈ draft.record.types, t.isNormal = true := by
  intro draft hdraft
  cases a with
  | start name key =>
    rcases List.mem_cons.mp hdraft with rfl | hdraft
    · simp [Program.startRecord, Record.allFunctions, Record.types]
    · exact ⟨h.written draft hdraft, h.normal draft hdraft⟩
  | incomplete name key => exact ⟨h.written draft hdraft, h.normal draft hdraft⟩
  | enumeration e => exact ⟨h.written draft hdraft, h.normal draft hdraft⟩
  | write id step =>
    obtain ⟨old, hold, rfl⟩ := List.mem_map.mp hdraft
    split
    · constructor
      · intro f hf
        rcases Draft.mem_allFunctions_apply hf with hf | hf
        · exact h.written old hold f hf
        · exact Draft.isUserWritten_of_mem_written ha f hf
      · intro t ht
        rcases Draft.mem_types_apply ht with ht | ht | ⟨f, hf, ht⟩
        · exact h.normal old hold t ht
        · exact ha.types t ht
        · exact Draft.isNormal_of_mem_written ha f hf t ht
    · exact ⟨h.written old hold, h.normal old hold⟩
  | finish id =>
    rcases perform_finish_cases h id with ⟨_, _, hsub⟩ | ⟨_, _, _, _, _, _, hothers⟩
    · exact ⟨h.written draft (hsub hdraft), h.normal draft (hsub hdraft)⟩
    · have hmem := (hothers draft hdraft).1
      exact ⟨h.written draft hmem, h.normal draft hmem⟩

theorem completed_perform (h : d.Valid) (id : RecordId) :
    id ∈ (d.perform a).completed ↔ (d.perform a).program.isCompleteRecord id = true := by
  have hdeclared : ∀ name key, (d.program.declareRecord name key).1.isCompleteRecord id =
      d.program.isCompleteRecord id := by
    intro name key
    simp only [Program.isCompleteRecord, Program.record?_declareRecord]
    split
    · rename_i hid
      cases hr : d.program.record? id with
      | none => simp
      | some r =>
        have hlt := (Program.record?_lt hr).2
        simp only [hid] at hlt
        omega
    · rfl
  cases a with
  | start name key => exact (h.completed id).trans (by rw [← hdeclared name key]; rfl)
  | incomplete name key => exact (h.completed id).trans (by rw [← hdeclared name key]; rfl)
  | write _ _ | enumeration _ => exact h.completed id
  | finish id' =>
    rcases perform_finish_cases h id' with ⟨hp, hcompleted, _⟩ |
      ⟨draft, r, hc, rfl, hp, hcompleted, _⟩
    · rw [hp, hcompleted]
      exact h.completed id
    · rw [hp, hcompleted, List.mem_append, List.mem_singleton, h.completed id]
      simp only [Program.isCompleteRecord, Program.record?_defineRecord hc.declared]
      split
      · rename_i hid
        simp [hid, hc.complete]
      · rename_i hid
        simp [hid]

theorem isProperBase_extends {p q : Program} {owner : RecordId} {base : BaseClass}
    (hpq : p.Extends q) (h : p.IsProperBase owner base) : q.IsProperBase owner base := by
  obtain ⟨id, b, ht, hne, hb, hc, hu⟩ := h
  exact ⟨id, b, ht, hne, hpq.record id b hb hc, hc, hu⟩

theorem mem_completed (h : d.Valid) {id : RecordId} {r : Record}
    (hr : d.program.record? id = some r) (hc : r.complete = true) : id ∈ d.completed := by
  rw [h.completed, Program.isCompleteRecord, hr]
  simpa using hc

/-- The order of completion goes on as it was. -/
theorem idxOf_perform (h : d.Valid) {id : RecordId} (hid : id ∈ d.completed) :
    (d.perform a).completed.idxOf id = d.completed.idxOf id := by
  cases a with
  | finish id' =>
    rcases perform_finish_cases h id' with ⟨_, hcompleted, _⟩ | ⟨_, _, _, _, _, hcompleted, _⟩
    · rw [hcompleted]
    · rw [hcompleted, List.idxOf_append_of_mem hid]
  | _ => rfl

theorem bases_perform (h : d.Valid) {id : RecordId} {r : Record}
    (hr : (d.perform a).program.record? id = some r) (hc : r.complete = true) :
    (r.isUnion = true → r.bases = []) ∧ ∀ base ∈ r.bases,
      (d.perform a).program.IsProperBase id base ∧ ∀ b, base.type = .record b →
        (d.perform a).completed.idxOf b < (d.perform a).completed.idxOf id := by
  have hextends := extends_perform h.drafted a
  have hbase : ∀ owner base b, d.program.IsProperBase owner base → base.type = .record b →
      b ∈ d.completed := by
    intro owner base b ⟨_, _, ht, _, hb, hcb, _⟩ ht'
    cases ht.symm.trans ht'
    exact mem_completed h hb hcb
  rcases record?_perform_cases h hr with hold | ⟨hincomplete, _⟩ |
    ⟨draft, hcompletes, rfl, hp, hcompleted⟩
  · obtain ⟨hunion, hbases⟩ := h.bases id r hold hc
    refine ⟨hunion, fun base hmem => ?_⟩
    obtain ⟨hproper, horder⟩ := hbases base hmem
    refine ⟨isProperBase_extends hextends hproper, fun b hb => ?_⟩
    rw [idxOf_perform h (hbase id base b hproper hb), idxOf_perform h (mem_completed h hold hc)]
    exact horder b hb
  · simp [hc] at hincomplete
  · have hnot : r.id ∉ d.completed := by
      obtain ⟨old, hold, hincomplete⟩ := hcompletes.incomplete
      rw [h.completed, Program.isCompleteRecord, hcompletes.kept.id, hold]
      simp [hincomplete]
    constructor
    · intro hu
      rw [hcompletes.kept.bases]
      exact hcompletes.noBases (by simpa [Record.isUnion, hcompletes.kept.key] using hu)
    · intro base hmem
      rw [hcompletes.kept.bases] at hmem
      have hproper := hcompletes.bases base hmem
      rw [← hcompletes.kept.id] at hproper
      refine ⟨isProperBase_extends hextends hproper, fun b hb => ?_⟩
      have hmem := hbase r.id base b hproper hb
      rw [hcompleted, List.idxOf_append_of_mem hmem, List.idxOf_append_of_notMem hnot]
      have := List.idxOf_lt_length_of_mem hmem
      omega

theorem Valid.perform (h : d.Valid) (ha : a.IsWritten) : (d.perform a).Valid where
  id id r hr := by
    rcases record?_perform_cases h hr with hold | ⟨_, hid⟩ | ⟨_, _, hid, _⟩
    · exact h.id id r hold
    · exact hid
    · exact hid
  drafted := h.drafted.perform _
  written draft hdraft := (draft_perform h ha draft hdraft).1
  normal draft hdraft := (draft_perform h ha draft hdraft).2
  completed := completed_perform h
  bases id r := bases_perform h

theorem Reachable.valid (h : d.Reachable) : d.Valid := by
  induction h with
  | fresh target => exact valid_fresh target
  | perform _ ha ih => exact ih.perform ha

/-- A draft is of the kind that its record was declared as. -/
theorem Reachable.key_draft (h : d.Reachable) :
    ∀ draft ∈ d.drafts, ∃ r, d.program.record? draft.record.id = some r ∧
      r.key = draft.record.key := by
  induction h with
  | fresh target => simp
  | @perform d a _ _ ih =>
    exact forall_draft_perform (fun _ _ _ => rfl) (fun _ step _ h => h.trans (by simp)) ih a

theorem reachable_run {target : Target} {actions : List Action} (h : ∀ a ∈ actions, a.IsWritten) :
    (run target actions).Reachable :=
  (Reachable.fresh target).performAll h

theorem Reachable.exists_run (h : d.Reachable) :
    ∃ target actions, (∀ a ∈ actions, a.IsWritten) ∧ d = run target actions := by
  induction h with
  | fresh target => exact ⟨target, [], by simp, rfl⟩
  | @perform d a _ ha ih =>
    obtain ⟨target, actions, hactions, rfl⟩ := ih
    refine ⟨target, actions ++ [a], ?_, (run_snoc target actions a).symm⟩
    intro a' ha'
    rcases List.mem_append.mp ha' with ha' | ha'
    · exact hactions a' ha'
    · exact List.mem_singleton.mp ha' ▸ ha

/-- What holds of each record at its completion, given that it holds of the complete records
before, holds of every complete record, if it lasts. The completion is that of a first part of the
actions. -/
theorem forall_complete_run {target : Target} {actions : List Action}
    {Q : Program → Record → Prop} (hwritten : ∀ a ∈ actions, a.IsWritten)
    (lasts : ∀ p q r, p.Continues q → Q p r → Q q r)
    (completes : ∀ first, first <+: actions → ∀ draft r,
      (∀ id r, (run target first).program.record? id = some r → r.complete = true →
        Q (run target first).program r) →
      (run target first).Completes draft r → Q ((run target first).program.defineRecord r) r) :
    ∀ id r, (run target actions).program.record? id = some r → r.complete = true →
      Q (run target actions).program r := by
  induction actions using List.reverseRecOn with
  | nil =>
    intro id r hr
    simp [run, performAll, Program.record?] at hr
  | append_singleton actions a ih =>
    obtain ⟨hactions, _⟩ := List.forall_mem_append.mp hwritten
    have hvalid := (@reachable_run target _ hactions).valid
    have hold := ih hactions fun first hfirst =>
      completes first (hfirst.trans (List.prefix_append _ _))
    intro id r hr hc
    rw [run_snoc] at hr ⊢
    rcases record?_perform_cases hvalid hr with hr | ⟨hincomplete, _⟩ | ⟨draft, hcompletes, _, hp, _⟩
    · exact lasts _ _ _ (continues_perform hvalid.drafted a) (hold id r hr hc)
    · simp [hc] at hincomplete
    · rw [hp]
      exact completes actions (List.prefix_append _ _) draft r hold hcompletes

/-- What holds of each record at its completion holds of every complete record, if it lasts as the
program goes on. -/
theorem Reachable.forall_complete_of_continues {Q : Program → Record → Prop}
    (lasts : ∀ p q r, p.Continues q → Q p r → Q q r)
    (completes : ∀ (d : Development) (draft : Draft) (r : Record), d.Valid →
      (∀ id r, d.program.record? id = some r → r.complete = true → Q d.program r) →
      d.Completes draft r → Q (d.program.defineRecord r) r)
    (h : d.Reachable) :
    ∀ id r, d.program.record? id = some r → r.complete = true → Q d.program r := by
  obtain ⟨target, actions, hwritten, rfl⟩ := h.exists_run
  refine forall_complete_run hwritten lasts ?_
  intro first hfirst draft r hcomplete hcompletes
  have hvalid := (@reachable_run target _ fun a ha => hwritten a (hfirst.subset ha)).valid
  exact completes _ draft r hvalid hcomplete hcompletes

theorem Reachable.forall_complete {Q : Program → Record → Prop}
    (lasts : ∀ p q r, p.Extends q → Q p r → Q q r)
    (completes : ∀ (d : Development) (draft : Draft) (r : Record), d.Valid →
      (∀ id r, d.program.record? id = some r → r.complete = true → Q d.program r) →
      d.Completes draft r → Q (d.program.defineRecord r) r)
    (h : d.Reachable) :
    ∀ id r, d.program.record? id = some r → r.complete = true → Q d.program r :=
  h.forall_complete_of_continues (fun p q r hpq => lasts p q r hpq.toExtends) completes

/-- Every complete record was completed in an earlier state of the program. -/
theorem Reachable.completion (h : d.Reachable) {id : RecordId} {r : Record}
    (hr : d.program.record? id = some r) (hc : r.complete = true) :
    ∃ (before : Development) (draft : Draft), before.Valid ∧
      before.program.Extends d.program ∧ before.Completes draft r := by
  refine Reachable.forall_complete (Q := fun p r => ∃ (before : Development) (draft : Draft),
    before.Valid ∧ before.program.Extends p ∧ before.Completes draft r) ?_ ?_ h id r hr hc
  · rintro p q r hpq ⟨before, draft, hvalid, hextends, hcompletes⟩
    exact ⟨before, draft, hvalid, hextends.trans hpq, hcompletes⟩
  · intro before draft r hvalid _ hcompletes
    exact ⟨before, draft, hvalid, hcompletes.extends_defineRecord, hcompletes⟩

end Development
end TypeTraits
