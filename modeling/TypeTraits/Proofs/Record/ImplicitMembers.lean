import TypeTraits.Proofs.Expr.Selection
import TypeTraits.Proofs.Expr.Steady
import TypeTraits.Proofs.Record.Completion

/-!
# Implicit special members and the bases that bar them

A class that declares no constructor, assignment operator or destructor gets all of them from the
compiler. Each comes out impossible as soon as one subobject cannot be constructed, assigned or
destroyed, and what is impossible looks the same whatever made it so. A base is treated like any
other object here: one whose class is abstract, or whose members are not public, bars the members of
the class that derives from it, which is barred in turn.
-/

namespace TypeTraits

/-- What is recorded about how a special member came out. -/
structure MemberFlags where
  deleted : Bool
  trivial : Bool
  noexcept : Bool
  hidden : Bool
  deriving DecidableEq, Repr

namespace FunctionDecl

def flags (f : FunctionDecl) : MemberFlags := ⟨f.deleted, f.trivial, f.noexcept, f.hidden⟩

/-- Implicit functions of one kind: the first is declared always, and deleted only where it is
impossible, and the others are declared only where they are not deleted. -/
def AreImplicit (fs : List FunctionDecl) : Prop :=
  ∃ f rest, fs = f :: rest ∧ (f.deleted = true → f.flags = ⟨true, false, true, false⟩) ∧
    ∀ g ∈ rest, g.deleted = false

/-- Implicit functions that are all deleted look like others exactly if those are deleted too. -/
theorem AreImplicit.flags_eq_iff {fs fs' : List FunctionDecl} (h : AreImplicit fs)
    (h' : AreImplicit fs') (hdeleted : ∀ f ∈ fs, f.deleted = true) :
    fs.map flags = fs'.map flags ↔ ∀ f ∈ fs', f.deleted = true := by
  obtain ⟨f, rest, rfl, hf, hrest⟩ := h
  obtain ⟨f', rest', rfl, hf', hrest'⟩ := h'
  have hnone : ∀ {rest : List FunctionDecl}, (∀ g ∈ rest, g.deleted = false) →
      (∀ g ∈ rest, g.deleted = true) → rest = [] := by
    intro rest hno hyes
    refine List.eq_nil_iff_forall_not_mem.mpr fun g hg => ?_
    exact absurd (hyes g hg) (by simp [hno g hg])
  rw [List.forall_mem_cons] at hdeleted ⊢
  obtain rfl := hnone hrest hdeleted.2
  constructor
  · intro heq
    obtain ⟨hfirst, htail⟩ := List.cons_eq_cons.mp heq
    have hlater : rest' = [] := List.map_eq_nil_iff.mp htail.symm
    have hsame : f.deleted = f'.deleted := congrArg MemberFlags.deleted hfirst
    exact ⟨hsame ▸ hdeleted.1, by simp [hlater]⟩
  · rintro ⟨hfirst, hlater⟩
    obtain rfl := hnone hrest' hlater
    simp [hf hdeleted.1, hf' hfirst]

end FunctionDecl

namespace Record

/-- The constructors that take exactly so many arguments. -/
def constructorsTaking (r : Record) (n : Nat) : List FunctionDecl :=
  r.constructors.filter (·.takes n)

/-- Code outside the class cannot destroy its objects. -/
def Undestroyable (r : Record) : Prop := ∀ f, r.destructor = some f → f.isUsable = false

/-- Code outside the class cannot construct an object from so many arguments. -/
def Barred (r : Record) (n : Nat) : Prop :=
  r.facts.abstract = true ∨ (∀ f ∈ r.constructors, ¬f.Offers n) ∨ r.Undestroyable

/-- Code outside the class cannot assign to its objects. -/
def Unassignable (r : Record) : Prop := ∀ f ∈ r.assignments, ¬f.Offers 1

/-- The special members of a class that declares none. -/
structure IsImplicit (r : Record) : Prop where
  constructors : ∀ n, if n ≤ 1 then FunctionDecl.AreImplicit (r.constructorsTaking n)
    else r.constructorsTaking n = []
  arity : ∀ f ∈ r.constructors, ∀ n, f.Accepts n → f.takes n = true
  assignments : FunctionDecl.AreImplicit r.assignments
  destructor : ∃ f, r.destructor = some f ∧
    (f.deleted = true → f.flags = ⟨true, false, true, false⟩)

/-- What a base bars is deleted in the class that derives from it. -/
structure BarredBy (r b : Record) : Prop where
  constructors : ∀ n, b.Barred n → ∀ f ∈ r.constructorsTaking n, f.deleted = true
  assignments : b.Unassignable → ∀ f ∈ r.assignments, f.deleted = true
  destructor : b.Undestroyable → ∀ f, r.destructor = some f → f.deleted = true

/-- A class that a base bars is barred itself. -/
theorem BarredBy.barred {r b : Record} (h : r.BarredBy b) (hr : r.IsImplicit) {n : Nat}
    (hb : b.Barred n) : r.Barred n := by
  refine Or.inr (Or.inl fun f hf hoffers => ?_)
  have htakes := hr.arity f hf n hoffers.accepts
  have hdeleted := h.constructors n hb f (List.mem_filter.mpr ⟨hf, htakes⟩)
  simpa [FunctionDecl.isUsable, hdeleted] using hoffers.usable

theorem BarredBy.unassignable {r b : Record} (h : r.BarredBy b) (hb : b.Unassignable) :
    r.Unassignable := by
  intro f hf hoffers
  simpa [FunctionDecl.isUsable, h.assignments hb f hf] using hoffers.usable

theorem BarredBy.undestroyable {r b : Record} (h : r.BarredBy b) (hb : b.Undestroyable) :
    r.Undestroyable := by
  intro f hf
  simp [FunctionDecl.isUsable, h.destructor hb f hf]

theorem BarredBy.trans {r c b : Record} (h : r.BarredBy c) (hc : c.IsImplicit)
    (hb : c.BarredBy b) : r.BarredBy b where
  constructors n hbarred := h.constructors n (hb.barred hc hbarred)
  assignments hunassignable := h.assignments (hb.unassignable hunassignable)
  destructor hundestroyable := h.destructor (hb.undestroyable hundestroyable)

end Record

/-- No constructor, assignment operator or destructor is declared. -/
structure Draft.IsBare (d : Draft) : Prop where
  constructors : d.record.constructors = []
  assignments : d.record.assignments = []
  destructor : d.record.destructor = none

namespace Outcome

/-- What the outcome promises of the operations that it has absorbed. -/
def effects (o : Outcome) : Effects := ⟨o.noexcept, o.trivial⟩

/-- A function promises no more than its outcome. -/
theorem effects_apply_le (o : Outcome) (f : FunctionDecl) : (o.apply f).effects ≤ o.effects :=
  ⟨id, fun h => (Bool.and_eq_true_iff.mp h).1⟩

end Outcome

namespace Synthesis

theorem tells_settles (s : Synthesis) :
    s.Tells (fun _ c => c.Steady) fun _ c a => c.Settles a where
  pure := .pure
  bind := .bind
  directInit _ _ := (s.program.steady_directInit _ _).attempt
  assign _ _ := (s.program.steady_assign _ _).attempt
  of_pure h := Check.returns_pure.mp h.returns
  of_bind := Check.Settles.bind
  of_directInit := .attempt (s.program.steady_directInit _ _)
  of_assign := .attempt (s.program.steady_assign _ _)

variable {s : Synthesis} {P : ∀ α : Type, Check α → Prop} {R : ∀ α : Type, Check α → α → Prop}
  {o : Outcome} {arg : Ty → Expr}

namespace Tells

variable (h : s.Tells P R)

include h

/-- Either some subobject makes the member impossible, or each of them has let it pass, and said no
less than the member promises. -/
theorem through_cases {step : Outcome → MemberObject → Check (Option Outcome)}
    {objects : List MemberObject} {result : Outcome} {q : MemberObject → Effects → Prop}
    (hq : ∀ m e e', q m e → e' ≤ e → q m e') (hP : ∀ o m, P _ (step o m))
    (hstep : ∀ o m next, R _ (step o m) (some next) →
      next.deleted = o.deleted ∧ next.effects ≤ o.effects ∧ q m next.effects)
    (hresult : R _ (Outcome.through step o objects) result) (ho : o.deleted = false) :
    result = .impossible ∨
      result.deleted = false ∧ result.effects ≤ o.effects ∧ ∀ m ∈ objects, q m result.effects := by
  induction objects generalizing o with
  | nil =>
    cases h.of_pure hresult
    exact Or.inr ⟨ho, le_refl _, by simp⟩
  | cons m rest ih =>
    obtain ⟨next, hnext, hresult⟩ := h.of_bind (hP o m) (fun next => by
      cases next with
      | none => exact h.pure _
      | some next => exact h.through hP next rest) hresult
    cases next with
    | none => exact Or.inl (h.of_pure hresult).symm
    | some next =>
      obtain ⟨hdeleted, hle, hm⟩ := hstep o m next hnext
      refine (ih hresult (hdeleted.trans ho)).imp_right ?_
      rintro ⟨hpossible, hle', hrest⟩
      exact ⟨hpossible, le_trans hle' hle,
        List.forall_mem_cons.mpr ⟨hq m _ _ hm hle', hrest⟩⟩

/-- What a default constructor says of the subobjects. -/
theorem defaultConstructor_cases (hclass : s.isUnion = false)
    (ho : R _ s.defaultConstructor o) :
    o = .impossible ∨ o.deleted = false ∧ ∀ m ∈ s.objects, m.hasInitializer = true ∨
      (∃ e, R _ (s.program.directInit m.type []) e ∧ o.effects ≤ e) ∧
        s.isDestructible m.type = true := by
  unfold Synthesis.defaultConstructor at ho
  rw [if_neg (by simp [hclass])] at ho
  refine (h.through_cases (q := fun m effects => m.hasInitializer = true ∨
      (∃ e, R _ (s.program.directInit m.type []) e ∧ effects ≤ e) ∧
        s.isDestructible m.type = true) ?_ h.defaultStep ?_ ho rfl).imp_right fun ho =>
      ⟨ho.1, ho.2.2⟩
  · rintro m e e' (hinitializer | ⟨⟨e'', he'', hle⟩, hdestructible⟩) hle'
    · exact Or.inl hinitializer
    · exact Or.inr ⟨⟨e'', he'', le_trans hle' hle⟩, hdestructible⟩
  · intro o m next hnext
    rcases h.defaultStep_cases hnext with ⟨hinitializer, rfl⟩ | ⟨_, e, he, hdestructible, rfl⟩
    · exact ⟨rfl, ⟨id, by simp [Outcome.effects]⟩, Or.inl hinitializer⟩
    · exact ⟨rfl, o.effects.and_le_left e,
        Or.inr ⟨⟨e, he, o.effects.and_le_right e⟩, hdestructible⟩⟩

/-- What a copy or move constructor says of the subobjects. -/
theorem constructFrom_cases {copies : Bool} (hclass : s.isUnion = false)
    (ho : R _ (s.constructFrom copies arg) o) :
    o = .impossible ∨ o.deleted = false ∧ ∀ m ∈ s.objects, m.reference = none →
      (∃ e, R _ (s.program.directInit m.type [arg m.type]) e ∧ o.effects ≤ e) ∧
        s.isDestructible m.type = true := by
  refine (h.through_cases (q := fun m effects => m.reference = none →
      (∃ e, R _ (s.program.directInit m.type [arg m.type]) e ∧ effects ≤ e) ∧
        s.isDestructible m.type = true) ?_ (h.constructStep copies arg) ?_ ho rfl).imp_right
      fun ho => ⟨ho.1, ho.2.2⟩
  · intro m e e' hm hle' hreference
    obtain ⟨⟨e'', he'', hle⟩, hdestructible⟩ := hm hreference
    exact ⟨⟨e'', he'', le_trans hle' hle⟩, hdestructible⟩
  · intro o m next hnext
    rcases h.constructStep_cases hnext with
      ⟨hreference, rfl⟩ | ⟨_, e, he, ⟨hunion, _⟩ | ⟨_, hdestructible, rfl⟩⟩
    · exact ⟨rfl, le_refl _, fun hnone => by simp [hnone] at hreference⟩
    · simp [hunion] at hclass
    · exact ⟨rfl, o.effects.and_le_left e,
        fun _ => ⟨⟨e, he, o.effects.and_le_right e⟩, hdestructible⟩⟩

/-- What a copy or move assignment says of the subobjects. -/
theorem assignFrom_cases (hclass : s.isUnion = false) (ho : R _ (s.assignFrom arg) o) :
    o = .impossible ∨ o.deleted = false ∧ ∀ m ∈ s.objects,
      ∃ e, R _ (s.program.assign (.lvalue m.type) (arg m.type)) e ∧ o.effects ≤ e := by
  refine (h.through_cases (q := fun m effects =>
      ∃ e, R _ (s.program.assign (.lvalue m.type) (arg m.type)) e ∧ effects ≤ e) ?_
      (h.assignStep arg) ?_ ho rfl).imp_right fun ho => ⟨ho.1, ho.2.2⟩
  · rintro m e e' ⟨e'', he'', hle⟩ hle'
    exact ⟨e'', he'', le_trans hle' hle⟩
  · intro o m next hnext
    obtain ⟨_, e, he, ⟨hunion, _⟩ | ⟨_, rfl⟩⟩ := h.assignStep_cases hnext
    · simp [hunion] at hclass
    · exact ⟨rfl, o.effects.and_le_left e, e, he, o.effects.and_le_right e⟩

/-- What a destructor says of the subobjects. -/
theorem destructor_cases (ho : R _ s.destructor o) :
    o = .impossible ∨ o.deleted = false ∧ ∀ m ∈ s.objects, m.reference = none →
      ∃ e, s.program.destroy m.type = .ok e ∧ o.effects ≤ e := by
  refine (h.through_cases (q := fun m effects => m.reference = none →
      ∃ e, s.program.destroy m.type = .ok e ∧ effects ≤ e) ?_ h.destroyStep ?_ ho rfl).imp_right
      fun ho => ⟨ho.1, ho.2.2⟩
  · intro m e e' hm hle' hreference
    obtain ⟨e'', he'', hle⟩ := hm hreference
    exact ⟨e'', he'', le_trans hle' hle⟩
  · intro o m next hnext
    rcases h.destroyStep_cases hnext with ⟨hreference, rfl⟩ | ⟨_, e, he, rfl⟩
    · exact ⟨rfl, le_refl _, fun hnone => by simp [hnone] at hreference⟩
    · exact ⟨rfl, o.effects.and_le_left e, fun _ => ⟨e, he, o.effects.and_le_right e⟩⟩

end Tells
end Synthesis

/-- How the special members of a class come out that declares none. -/
structure ImplicitOutcomes where
  default : Outcome
  copy : Outcome
  move : Outcome
  copyAssignment : Outcome
  moveAssignment : Outcome
  destructor : Outcome

namespace ImplicitOutcomes

variable (o : ImplicitOutcomes) (s : Synthesis) (draft : Draft)

/-- The constructors of the class. A move constructor that would be deleted is left out. -/
def constructors : List FunctionDecl :=
  { o.default.implicitly [] with constexpr := !o.default.deleted && s.constexprDefault } ::
    o.copy.implicitly [if s.copiesConst then draft.constRef else draft.lvalueRef] ::
      if o.move.deleted then [] else [o.move.implicitly [draft.rvalueRef]]

/-- The assignment operators of the class. A move assignment that would be deleted is left out. -/
def assignments : List FunctionDecl :=
  o.copyAssignment.implicitly [if s.assignsConst then draft.constRef else draft.lvalueRef]
      draft.lvalueRef ::
    if o.moveAssignment.deleted then []
    else [o.moveAssignment.implicitly [draft.rvalueRef] draft.lvalueRef]

/-- The destructor of the class. -/
def destroys (isVirtual : Bool) : FunctionDecl :=
  { o.destructor.implicitly [] with
    isVirtual
    trivial := !isVirtual && (o.destructor.trivial && !o.destructor.deleted) }

/-- The class has the special members that come out so. -/
structure Give (o : ImplicitOutcomes) (s : Synthesis) (draft : Draft) (isVirtual : Bool)
    (r : Record) : Prop where
  constructors : r.constructors = o.constructors s draft
  assignments : r.assignments = o.assignments s draft
  destructor : r.destructor = some (o.destroys isVirtual)

end ImplicitOutcomes

namespace Synthesis

variable {s : Synthesis} {P : ∀ α : Type, Check α → Prop} {R : ∀ α : Type, Check α → α → Prop}
  {o : ImplicitOutcomes} {draft : Draft} {isVirtual : Bool} {r : Record}

/-- What each special member of a class that declares none comes to, as `R` has it. -/
structure Implicit (s : Synthesis) (R : ∀ α : Type, Check α → α → Prop) (o : ImplicitOutcomes) :
    Prop where
  default : R _ s.defaultConstructor o.default
  copy : R _ (s.copyConstructor s.copiesConst) o.copy
  move : R _ s.moveConstructor o.move
  copyAssignment : R _ (s.copyAssignment s.assignsConst) o.copyAssignment
  moveAssignment : R _ s.moveAssignment o.moveAssignment
  destructor : R _ s.destructor o.destructor

/-- Completes a class that declares no special member, once its default constructor is defined. -/
def completeAfterDefault (s : Synthesis) (draft : Draft) (isVirtual : Bool) (default : Outcome) :
    Check Record := do
  let copy ← s.copyConstructor s.copiesConst
  let move ← s.moveConstructor
  let copyAssignment ← s.copyAssignment s.assignsConst
  let moveAssignment ← s.moveAssignment
  let destructor ← s.destructor
  let o : ImplicitOutcomes := { default, copy, move, copyAssignment, moveAssignment, destructor }
  return { draft.record with
    constructors := o.constructors s draft
    assignments := o.assignments s draft
    destructor := some (o.destroys isVirtual) }

theorem complete_of_isBare (h : draft.IsBare) :
    s.complete draft isVirtual =
      s.defaultConstructor >>= s.completeAfterDefault draft isVirtual := by
  let none : Declared := ⟨false, false, false, false, false, false⟩
  have hdeclared : Declared.ofRecord draft.record = none := by
    simp [Declared.ofRecord, none, h.constructors, h.assignments, h.destructor]
  have hdestructor : s.completeDestructor draft isVirtual = do
      let o ← s.destructor
      return { o.implicitly [] with
        isVirtual, trivial := !isVirtual && (o.trivial && !o.deleted) } := by
    unfold completeDestructor
    rw [h.destructor]
    cases isVirtual <;> rfl
  have hdefault : s.implicitDefault none = do
      let o ← s.defaultConstructor
      return [{ o.implicitly [] with constexpr := !o.deleted && s.constexprDefault }] := rfl
  have hcopy : s.implicitCopyConstructor draft none = do
      let o ← s.copyConstructor s.copiesConst
      return [o.implicitly [if s.copiesConst then draft.constRef else draft.lvalueRef]] := rfl
  have hmove : s.implicitMoveConstructor draft none = do
      let o ← s.moveConstructor
      return if o.deleted then [] else [o.implicitly [draft.rvalueRef]] := rfl
  have hcopyAssignment : s.implicitCopyAssignment draft none = do
      let o ← s.copyAssignment s.assignsConst
      return [o.implicitly [if s.assignsConst then draft.constRef else draft.lvalueRef]
        draft.lvalueRef] := rfl
  have hmoveAssignment : s.implicitMoveAssignment draft none = do
      let o ← s.moveAssignment
      return if o.deleted then [] else [o.implicitly [draft.rvalueRef] draft.lvalueRef] := rfl
  unfold complete
  simp only [hdeclared, h.constructors, h.assignments, List.mapM_nil, pure_bind, bind_assoc,
    hdefault, hcopy, hmove, hcopyAssignment, hmoveAssignment, hdestructor]
  rfl

theorem Tells.completeAfterDefault (h : s.Tells P R) (draft : Draft) (isVirtual : Bool)
    (default : Outcome) : P _ (s.completeAfterDefault draft isVirtual default) := by
  refine h.bind (h.constructFrom _ _) fun _ => h.bind (h.constructFrom _ _) fun _ => ?_
  refine h.bind (h.assignFrom _) fun _ => h.bind (h.assignFrom _) fun _ => ?_
  exact h.bind h.destructor fun _ => h.pure _

/-- The members of a class that declares none come out as their checks do. -/
theorem Tells.implicit_of_completeAfterDefault (h : s.Tells P R) {default : Outcome}
    (hdefault : R _ s.defaultConstructor default)
    (hr : R _ (s.completeAfterDefault draft isVirtual default) r) :
    ∃ o, o.default = default ∧ s.Implicit R o ∧ o.Give s draft isVirtual r := by
  have hdestructor : ∀ f : Outcome → Record, P _ (do return f (← s.destructor)) :=
    fun _ => h.bind h.destructor fun _ => h.pure _
  have hassign : ∀ f : Outcome → Outcome → Record, P _ (do
      return f (← s.moveAssignment) (← s.destructor)) :=
    fun _ => h.bind (h.assignFrom _) fun _ => hdestructor _
  have hassigns : ∀ f : Outcome → Outcome → Outcome → Record, P _ (do
      return f (← s.copyAssignment s.assignsConst) (← s.moveAssignment) (← s.destructor)) :=
    fun _ => h.bind (h.assignFrom _) fun _ => hassign _
  have hmoves : ∀ f : Outcome → Outcome → Outcome → Outcome → Record, P _ (do
      return f (← s.moveConstructor) (← s.copyAssignment s.assignsConst) (← s.moveAssignment)
        (← s.destructor)) :=
    fun _ => h.bind (h.constructFrom _ _) fun _ => hassigns _
  obtain ⟨copy, hcopy, hr⟩ := h.of_bind (h.constructFrom _ _) (fun _ => hmoves _) hr
  obtain ⟨move, hmove, hr⟩ := h.of_bind (h.constructFrom _ _) (fun _ => hassigns _) hr
  obtain ⟨copyAssignment, hcopyAssignment, hr⟩ := h.of_bind (h.assignFrom _) (fun _ => hassign _) hr
  obtain ⟨moveAssignment, hmoveAssignment, hr⟩ :=
    h.of_bind (h.assignFrom _) (fun _ => hdestructor _) hr
  obtain ⟨destructor, hdestroy, hr⟩ := h.of_bind h.destructor (fun _ => h.pure _) hr
  cases h.of_pure hr
  exact ⟨{ default, copy, move, copyAssignment, moveAssignment, destructor }, rfl,
    ⟨hdefault, hcopy, hmove, hcopyAssignment, hmoveAssignment, hdestroy⟩, ⟨rfl, rfl, rfl⟩⟩

end Synthesis

namespace Program

variable {p : Program} {draft : Draft} {r : Record}

/-- A completed class that declares no special member has those that its completion returns. -/
theorem implicit_of_completeRecord (h : p.completeRecord draft = some r) (hbare : draft.IsBare) :
    ∃ o : ImplicitOutcomes, (p.synthesis draft.record).defaultConstructor.result = .ok o.default ∧
      (p.synthesis draft.record).Implicit (fun _ c a => c.Returns a) o ∧
      o.Give (p.synthesis draft.record) draft
        ((p.baseRecords draft.record).any (·.facts.virtualDestructor)) r := by
  obtain ⟨done, hdone, heq⟩ := p.completeRecord_eq draft
  obtain ⟨layout, _, rfl⟩ := Option.map_eq_some_iff.mp (heq.symm.trans h)
  rw [completion, Synthesis.complete_of_isBare hbare] at hdone
  obtain ⟨default, hdefault, hrest⟩ := Check.result_bind hdone
  have htells := (p.synthesis draft.record).tells_returns
  obtain ⟨o, rfl, ho, hgive⟩ := htells.implicit_of_completeAfterDefault (.of_result hdefault) hrest
  exact ⟨o, hdefault, ho, hgive.constructors, hgive.assignments, hgive.destructor⟩

/-- Within the limits, it has those that the completion would come to in any place. -/
theorem implicit_of_inLimits (h : p.completeRecord draft = some r) (hbare : draft.IsBare)
    (hlimits : (p.completion draft).InLimits (.fresh .initialization)) :
    ∃ o : ImplicitOutcomes, (p.synthesis draft.record).Implicit (fun _ c a => c.Settles a) o ∧
      o.Give (p.synthesis draft.record) draft
        ((p.baseRecords draft.record).any (·.facts.virtualDestructor)) r := by
  have htells := (p.synthesis draft.record).tells_settles
  obtain ⟨done, hdone, heq⟩ := p.completeRecord_eq draft
  obtain ⟨layout, _, rfl⟩ := Option.map_eq_some_iff.mp (heq.symm.trans h)
  have hsettles := Check.Settles.of_result (htells.complete _ _) hlimits hdone
  rw [Synthesis.complete_of_isBare hbare] at hsettles
  obtain ⟨default, hdefault, hrest⟩ := htells.of_bind htells.defaultConstructor
    (fun _ => htells.completeAfterDefault draft _ _) hsettles
  obtain ⟨o, _, ho, hgive⟩ := htells.implicit_of_completeAfterDefault hdefault hrest
  exact ⟨o, ho, hgive.constructors, hgive.assignments, hgive.destructor⟩

end Program

namespace Synthesis

theorem areImplicit_cons {o : Outcome} {f : FunctionDecl} {rest : List FunctionDecl}
    (ho : o = .impossible ∨ o.deleted = false)
    (hf : f.flags = ⟨o.deleted, o.trivial && !o.deleted, o.noexcept, false⟩)
    (hrest : ∀ g ∈ rest, g.deleted = false) : FunctionDecl.AreImplicit (f :: rest) := by
  refine ⟨f, rest, rfl, fun hdeleted => ?_, hrest⟩
  rcases ho with rfl | ho
  · exact hf
  · have hsame : f.deleted = o.deleted := congrArg MemberFlags.deleted hf
    simp [hsame, ho] at hdeleted

/-- A move operation that would be deleted is left out. -/
theorem deleted_of_mem_move {o : Outcome} {params : List Ty} {result : Ty} {f : FunctionDecl}
    (h : f ∈ if o.deleted then [] else [o.implicitly params result]) : f.deleted = false := by
  split at h
  · simp at h
  · rename_i hkept
    rw [List.mem_singleton.mp h]
    exact Bool.eq_false_iff.mpr hkept

end Synthesis

namespace ImplicitOutcomes

variable {s : Synthesis} {o : ImplicitOutcomes} {draft : Draft} {isVirtual : Bool} {r : Record}

theorem Give.constructorsTaking (h : o.Give s draft isVirtual r) (n : Nat) :
    r.constructorsTaking n = match n with
      | 0 => [{ o.default.implicitly [] with
          constexpr := !o.default.deleted && s.constexprDefault }]
      | 1 => (o.constructors s draft).tail
      | _ => [] := by
  rw [Record.constructorsTaking, h.constructors, ImplicitOutcomes.constructors]
  rcases n with _ | _ | n <;> cases hdeleted : o.move.deleted <;>
    simp [FunctionDecl.takes, Outcome.implicitly, Outcome.apply]

/-- No implicit function is variadic. -/
theorem Give.accepts_iff (h : o.Give s draft isVirtual r) {f : FunctionDecl}
    (hf : f ∈ r.constructors) {n : Nat} : f.Accepts n ↔ f.takes n = true := by
  have hvariadic : f.variadic = false := by
    rw [h.constructors, ImplicitOutcomes.constructors, List.mem_cons, List.mem_cons] at hf
    rcases hf with rfl | rfl | hlast
    · rfl
    · rfl
    · split at hlast
      · cases hlast
      · cases List.mem_singleton.mp hlast
        rfl
  simp [FunctionDecl.Accepts, FunctionDecl.takes, hvariadic]

theorem Give.isImplicit (h : o.Give s draft isVirtual r) (hclass : s.isUnion = false)
    (ho : s.Implicit (fun _ c a => c.Returns a) o) : r.IsImplicit := by
  have htells := s.tells_returns
  constructor
  · intro n
    rw [h.constructorsTaking]
    rcases n with _ | _ | n
    · exact Synthesis.areImplicit_cons
        ((htells.defaultConstructor_cases hclass ho.default).imp_right (·.1)) rfl (by simp)
    · exact Synthesis.areImplicit_cons
        ((htells.constructFrom_cases hclass ho.copy).imp_right (·.1)) rfl
        fun _ => Synthesis.deleted_of_mem_move
    · rfl
  · exact fun f hf n haccepts => (h.accepts_iff hf).mp haccepts
  · rw [h.assignments]
    exact Synthesis.areImplicit_cons
      ((htells.assignFrom_cases hclass ho.copyAssignment).imp_right (·.1)) rfl
      fun _ => Synthesis.deleted_of_mem_move
  · refine ⟨_, h.destructor, fun hdeleted => ?_⟩
    rcases htells.destructor_cases ho.destructor with himpossible | ⟨hpossible, _⟩
    · simp [FunctionDecl.flags, destroys, himpossible, Outcome.implicitly, Outcome.apply,
        Outcome.impossible]
    · exact absurd (hpossible.symm.trans hdeleted) (by simp)

end ImplicitOutcomes

namespace Synthesis

variable {s : Synthesis} {o : Outcome} {id : RecordId} {b : Record} {arg : Ty → Expr}

theorem not_undestroyable_of_destroy (hb : s.program.completeRecord? (.record id) = some b)
    (h : ∃ e, s.program.destroy (.record id) = .ok e) : ¬b.Undestroyable := by
  obtain ⟨e, he⟩ := h
  obtain ⟨c, f, hc, hf, hdeleted, haccess, _⟩ := Program.destroy_eq_ok rfl he
  cases hb.symm.trans hc
  intro hnone
  simpa [FunctionDecl.isUsable, hdeleted, haccess] using hnone f hf

/-- No object of a barred class is constructed and destroyed. -/
theorem not_barred_of_directInit {args : List Expr}
    (hb : s.program.completeRecord? (.record id) = some b)
    (hargs : ∀ arg ∈ args, arg.category ≠ .prvalue) {e : Effects}
    (he : (s.program.directInit (.record id) args).Returns e)
    (hdestructible : s.isDestructible (.record id) = true) : ¬b.Barred args.length := by
  obtain ⟨c, hc, habstract, f, hf, hcalls⟩ := Program.calls_of_directInit rfl hargs he
  cases hb.symm.trans hc
  rintro (habstract' | hnone | hnone)
  · simp [habstract] at habstract'
  · exact hnone f hf hcalls.offers
  · refine not_undestroyable_of_destroy hb ?_ hnone
    cases hd : s.program.destroy (.record id) with
    | error _ => simp [isDestructible, hd, Except.isOk, Except.toBool] at hdestructible
    | ok e => exact ⟨e, rfl⟩

theorem deleted_of_constructFrom {copies : Bool} (hclass : s.isUnion = false)
    (hobject : { type := .record id, isBase := true } ∈ s.objects)
    (hb : s.program.completeRecord? (.record id) = some b) (hbarred : b.Barred 1)
    (harg : (arg (.record id)).category ≠ .prvalue) (h : (s.constructFrom copies arg).Returns o) :
    o.deleted = true := by
  rcases s.tells_returns.constructFrom_cases hclass h with rfl | ⟨_, hall⟩
  · rfl
  · obtain ⟨⟨e, he, _⟩, hdestructible⟩ := hall _ hobject rfl
    refine absurd hbarred (not_barred_of_directInit hb ?_ he hdestructible)
    intro a ha
    rw [List.mem_singleton.mp ha]
    exact harg

theorem deleted_of_assignFrom (hclass : s.isUnion = false)
    (hobject : { type := .record id, isBase := true } ∈ s.objects)
    (hb : s.program.completeRecord? (.record id) = some b) (hunassignable : b.Unassignable)
    (h : (s.assignFrom arg).Returns o) : o.deleted = true := by
  rcases s.tells_returns.assignFrom_cases hclass h with rfl | ⟨_, hall⟩
  · rfl
  · obtain ⟨e, he, _⟩ := hall _ hobject
    obtain ⟨c, hc, f, hf, hcalls⟩ := Program.calls_of_assign rfl he
    cases hb.symm.trans hc
    exact absurd hcalls.offers (hunassignable f hf)

end Synthesis

/-- What a base bars, the compiler deletes. -/
theorem ImplicitOutcomes.Give.barredBy {s : Synthesis} {o : ImplicitOutcomes} {draft : Draft}
    {isVirtual : Bool} {r b : Record} {id : RecordId} (h : o.Give s draft isVirtual r)
    (ho : s.Implicit (fun _ c a => c.Returns a) o) (hclass : s.isUnion = false)
    (hobject : { type := .record id, isBase := true } ∈ s.objects)
    (hb : s.program.completeRecord? (.record id) = some b) : r.BarredBy b := by
  have htells := s.tells_returns
  constructor
  · intro n hbarred f hf
    rw [h.constructorsTaking] at hf
    rcases n with _ | _ | n
    · cases List.mem_singleton.mp hf
      rcases htells.defaultConstructor_cases hclass ho.default with himpossible | ⟨_, hall⟩
      · simp [himpossible, Outcome.implicitly, Outcome.apply, Outcome.impossible]
      · obtain ⟨⟨e, he, _⟩, hdestructible⟩ := (hall _ hobject).resolve_left (by simp)
        exact absurd hbarred (Synthesis.not_barred_of_directInit hb (by simp) he hdestructible)
    · rcases List.mem_cons.mp hf with rfl | hlast
      · exact Synthesis.deleted_of_constructFrom hclass hobject hb hbarred
          (by simp [Synthesis.copyArgument, Expr.lvalue]) ho.copy
      · split at hlast
        · simp at hlast
        · cases List.mem_singleton.mp hlast
          exact Synthesis.deleted_of_constructFrom hclass hobject hb hbarred
            (by simp [Expr.xvalue]) ho.move
    · simp at hf
  · intro hunassignable f hf
    rw [h.assignments, ImplicitOutcomes.assignments, List.mem_cons] at hf
    rcases hf with rfl | hlast
    · exact Synthesis.deleted_of_assignFrom hclass hobject hb hunassignable ho.copyAssignment
    · split at hlast
      · simp at hlast
      · cases List.mem_singleton.mp hlast
        exact Synthesis.deleted_of_assignFrom hclass hobject hb hunassignable ho.moveAssignment
  · intro hundestroyable f hf
    cases h.destructor.symm.trans hf
    rcases htells.destructor_cases ho.destructor with himpossible | ⟨_, hall⟩
    · simp [ImplicitOutcomes.destroys, himpossible, Outcome.implicitly, Outcome.apply,
        Outcome.impossible]
    · obtain ⟨e, he, _⟩ := hall _ hobject rfl
      exact absurd hundestroyable (Synthesis.not_undestroyable_of_destroy hb ⟨e, he⟩)

end TypeTraits
