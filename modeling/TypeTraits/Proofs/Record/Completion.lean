import Mathlib.Data.List.Forall2
import TypeTraits.Proofs.Expr.Returns
import TypeTraits.Proofs.Ty.NormalForm
import TypeTraits.Record.Completion

/-!
# What completing a record gives

Completing keeps what was declared. Only constructors, assignment operators and the destructor are
defined or added, and the facts and the layout are filled in. The bases of the completed record are
unqualified classes that were complete before.
-/

namespace TypeTraits

namespace Synthesis

variable {s : Synthesis} {draft : Draft} {d : Declared} {inheritsVirtual : Bool} {r : Record}
  {f : FunctionDecl} {added : List FunctionDecl}

/-- The outcomes that each special member may come out with. -/
inductive Yields (s : Synthesis) : Special → Outcome → Prop
  | impossible {kind : Special} : Yields s kind .impossible
  | default {o : Outcome} (h : s.defaultConstructor.Returns o) : Yields s .defaultConstructor o
  | construct {o : Outcome} {kind : Special} (copies : Bool) (arg : Ty → Expr)
      (hkind : kind.isCopyOrMove = true) (h : (s.constructFrom copies arg).Returns o) :
      Yields s kind o
  | assign {o : Outcome} {kind : Special} (arg : Ty → Expr) (hkind : kind.isCopyOrMove = true)
      (h : (s.assignFrom arg).Returns o) : Yields s kind o

/-- The compiler defines `f`, a special member of some kind, from the declaration `base`. -/
def Defines (s : Synthesis) (kind : Special) (f base : FunctionDecl) : Prop :=
  ∃ o constexpr hidden, s.Yields kind o ∧ f = { o.apply base with constexpr, hidden }

variable {kind : Special}

theorem defines_implicitly {o : Outcome} (ho : s.Yields kind o) (params : List Ty) (result : Ty) :
    s.Defines kind (o.implicitly params result) { params, result, origin := .implicit } :=
  ⟨o, _, _, ho, rfl⟩

/-- An implicit copy operation, which is impossible next to a declared move operation. -/
theorem implicitCopy_returns {c : Check Outcome} {moves : Bool} {params : List Ty} {result : Ty}
    (hc : ∀ o, c.Returns o → s.Yields kind o)
    (h : (if moves then do
        let o ← pure .impossible
        return [Outcome.implicitly o params result]
      else do
        let o ← c
        return [o.implicitly params result] : Check (List FunctionDecl)).Returns added) :
    ∀ f ∈ added, s.Defines kind f { params, result, origin := .implicit } := by
  intro f hf
  split at h
  · obtain ⟨o, ho, h⟩ := h.bind
    cases Check.returns_pure.mp h
    cases List.mem_singleton.mp hf
    cases Check.returns_pure.mp ho
    exact defines_implicitly .impossible params result
  · obtain ⟨o, ho, h⟩ := h.bind
    cases Check.returns_pure.mp h
    cases List.mem_singleton.mp hf
    exact defines_implicitly (hc o ho) params result

/-- An implicit move operation, which is left out where it would be deleted. -/
theorem implicitMove_returns {c : Check Outcome} {params : List Ty} {result : Ty}
    (hc : ∀ o, c.Returns o → s.Yields kind o)
    (h : (do
        let o ← c
        return if o.deleted then [] else [o.implicitly params result] :
      Check (List FunctionDecl)).Returns added) :
    ∀ f ∈ added, s.Defines kind f { params, result, origin := .implicit } := by
  intro f hf
  obtain ⟨o, ho, h⟩ := h.bind
  cases Check.returns_pure.mp h
  split at hf
  · simp at hf
  · cases List.mem_singleton.mp hf
    exact defines_implicitly (hc o ho) params result

theorem defineConstructor_returns {declared : FunctionDecl}
    (h : (s.defineConstructor r declared).Returns f) :
    f = declared ∨ ∃ kind, r.specialConstructor? declared = some kind ∧
      s.Defines kind f declared := by
  unfold defineConstructor at h
  split at h
  · exact Or.inl (Check.returns_pure.mp h).symm
  · split at h
    · rename_i hspecial
      obtain ⟨o, ho, h⟩ := h.bind
      cases Check.returns_pure.mp h
      exact Or.inr ⟨_, hspecial, o, _, _, .default ho, rfl⟩
    · rename_i hspecial
      obtain ⟨o, ho, h⟩ := h.bind
      cases Check.returns_pure.mp h
      exact Or.inr ⟨_, hspecial, o, _, _, .construct _ _ rfl ho, rfl⟩
    · rename_i hspecial
      obtain ⟨o, ho, h⟩ := h.bind
      cases Check.returns_pure.mp h
      exact Or.inr ⟨_, hspecial, o, _, _, .construct _ _ rfl ho, rfl⟩
    · exact Or.inl (Check.returns_pure.mp h).symm

theorem defineAssignment_returns {declared : FunctionDecl}
    (h : (s.defineAssignment r declared).Returns f) :
    f = declared ∨ ∃ kind, r.specialAssignment? declared = some kind ∧
      s.Defines kind f declared := by
  unfold defineAssignment at h
  split at h
  · exact Or.inl (Check.returns_pure.mp h).symm
  · split at h
    · rename_i hspecial
      obtain ⟨o, ho, h⟩ := h.bind
      cases Check.returns_pure.mp h
      exact Or.inr ⟨_, hspecial, o, _, _, .assign _ rfl ho, rfl⟩
    · rename_i hspecial
      obtain ⟨o, ho, h⟩ := h.bind
      cases Check.returns_pure.mp h
      exact Or.inr ⟨_, hspecial, o, _, _, .assign _ rfl ho, rfl⟩
    · exact Or.inl (Check.returns_pure.mp h).symm

/-- A function that takes a lvalue reference to the class copies. -/
theorem special_of_lvalueRef {param : Ty}
    (hparam : param = draft.constRef ∨ param = draft.lvalueRef) {f : FunctionDecl}
    (hparams : f.params = [param]) (hvariadic : f.variadic = false) :
    draft.record.specialConstructor? f = some .copyConstructor ∧
      draft.record.specialAssignment? f = some .copyAssignment := by
  unfold Record.specialConstructor? Record.specialAssignment? Special.ofConstructor?
    Special.ofAssignment?
  rw [hparams, hvariadic]
  rcases hparam with rfl | rfl <;>
    simp [Draft.constRef, Draft.lvalueRef, Draft.type, Record.type, Ty.qualify, Ty.withCv,
      Ty.lvalueRefTo, Ty.referent?, Ty.unqualified, Ty.splitCv, Cv.const, Cv.isEmpty]

/-- A function that takes an rvalue reference to the class moves. -/
theorem special_of_rvalueRef {f : FunctionDecl} (hparams : f.params = [draft.rvalueRef])
    (hvariadic : f.variadic = false) :
    draft.record.specialConstructor? f = some .moveConstructor ∧
      draft.record.specialAssignment? f = some .moveAssignment := by
  unfold Record.specialConstructor? Record.specialAssignment? Special.ofConstructor?
    Special.ofAssignment?
  rw [hparams, hvariadic]
  simp [Draft.rvalueRef, Draft.type, Record.type, Ty.rvalueRefTo, Ty.referent?, Ty.unqualified,
    Ty.splitCv]

/-- An implicit constructor is a special member of the class. -/
theorem implicitConstructor_returns (hf : f ∈ added)
    (h : (s.implicitDefault d).Returns added ∨ (s.implicitCopyConstructor draft d).Returns added ∨
      (s.implicitMoveConstructor draft d).Returns added) :
    ∃ kind base, draft.record.specialConstructor? base = some kind ∧ s.Defines kind f base := by
  rcases h with h | h | h
  · unfold implicitDefault at h
    split at h
    · cases Check.returns_pure.mp h
      simp at hf
    · obtain ⟨o, ho, h⟩ := h.bind
      cases Check.returns_pure.mp h
      cases List.mem_singleton.mp hf
      exact ⟨_, _, rfl, o, _, _, .default ho, rfl⟩
  · simp only [implicitCopyConstructor] at h
    split at h
    · cases Check.returns_pure.mp h
      simp at hf
    · refine ⟨_, _, (special_of_lvalueRef ?_ rfl rfl).1,
        implicitCopy_returns (fun _ => .construct _ _ rfl) h f hf⟩
      split <;> simp
  · unfold implicitMoveConstructor at h
    split at h
    · cases Check.returns_pure.mp h
      simp at hf
    · exact ⟨_, _, (special_of_rvalueRef rfl rfl).1,
        implicitMove_returns (fun _ => .construct _ _ rfl) h f hf⟩

/-- An implicit assignment operator is a special member of the class. -/
theorem implicitAssignment_returns (hf : f ∈ added)
    (h : (s.implicitCopyAssignment draft d).Returns added ∨
      (s.implicitMoveAssignment draft d).Returns added) :
    ∃ kind base, draft.record.specialAssignment? base = some kind ∧ s.Defines kind f base := by
  rcases h with h | h
  · simp only [implicitCopyAssignment] at h
    split at h
    · cases Check.returns_pure.mp h
      simp at hf
    · refine ⟨_, _, (special_of_lvalueRef ?_ rfl rfl).2,
        implicitCopy_returns (fun _ => .assign _ rfl) h f hf⟩
      split <;> simp
  · unfold implicitMoveAssignment at h
    split at h
    · cases Check.returns_pure.mp h
      simp at hf
    · exact ⟨_, _, (special_of_rvalueRef rfl rfl).2,
        implicitMove_returns (fun _ => .assign _ rfl) h f hf⟩

/-- A constructor or an assignment operator of a completed record was declared, and is as it was
declared, or is a special member that the compiler defines. -/
theorem complete_returns (h : (s.complete draft inheritsVirtual).Returns r) :
    ∃ constructors assignments destructor,
      r = { draft.record with constructors, assignments, destructor := some destructor } ∧
      (∀ f ∈ constructors, f ∈ draft.record.constructors ∨
        ∃ kind base, draft.record.specialConstructor? base = some kind ∧ s.Defines kind f base) ∧
      (∀ f ∈ assignments, f ∈ draft.record.assignments ∨
        ∃ kind base, draft.record.specialAssignment? base = some kind ∧ s.Defines kind f base) ∧
      (s.completeDestructor draft inheritsVirtual).Returns destructor := by
  unfold complete at h
  obtain ⟨constructors, hconstructors, h⟩ := h.bind
  obtain ⟨assignments, hassignments, h⟩ := h.bind
  obtain ⟨default, hdefault, h⟩ := h.bind
  obtain ⟨copyConstructor, hcopyConstructor, h⟩ := h.bind
  obtain ⟨moveConstructor, hmoveConstructor, h⟩ := h.bind
  obtain ⟨copyAssignment, hcopyAssignment, h⟩ := h.bind
  obtain ⟨moveAssignment, hmoveAssignment, h⟩ := h.bind
  obtain ⟨destructor, hdestructor, h⟩ := h.bind
  rw [Check.returns_pure] at h
  refine ⟨_, _, destructor, h.symm, ?_, ?_, hdestructor⟩
  · intro f hf
    simp only [List.append_assoc, List.mem_append] at hf
    rcases hf with hf | hf | hf | hf
    · obtain ⟨declared, hmem, hdefine⟩ := hconstructors.mapM f hf
      rcases defineConstructor_returns hdefine with rfl | ⟨kind, hdefined⟩
      · exact Or.inl hmem
      · exact Or.inr ⟨kind, declared, hdefined⟩
    · exact Or.inr (implicitConstructor_returns hf (Or.inl hdefault))
    · exact Or.inr (implicitConstructor_returns hf (Or.inr (Or.inl hcopyConstructor)))
    · exact Or.inr (implicitConstructor_returns hf (Or.inr (Or.inr hmoveConstructor)))
  · intro f hf
    simp only [List.append_assoc, List.mem_append] at hf
    rcases hf with hf | hf | hf
    · obtain ⟨declared, hmem, hdefine⟩ := hassignments.mapM f hf
      rcases defineAssignment_returns hdefine with rfl | ⟨kind, hdefined⟩
      · exact Or.inl hmem
      · exact Or.inr ⟨kind, declared, hdefined⟩
    · exact Or.inr (implicitAssignment_returns hf (Or.inl hcopyAssignment))
    · exact Or.inr (implicitAssignment_returns hf (Or.inr hmoveAssignment))

/-- A destructor is virtual if it was declared so, or overrides one that is. -/
theorem completeDestructor_isVirtual (h : (s.completeDestructor draft inheritsVirtual).Returns f) :
    f.isVirtual = (draft.record.destructor.any (·.isVirtual) || inheritsVirtual) := by
  unfold completeDestructor at h
  obtain ⟨o, _, h⟩ := h.bind
  cases Check.returns_pure.mp h
  have hvirtual : ∀ g : FunctionDecl,
      (if g.isVirtual = true then { g with trivial := false } else g).isVirtual = g.isVirtual := by
    intro g
    split <;> rfl
  have hinherits : ∀ g : FunctionDecl,
      (if inheritsVirtual = true then { g with isVirtual := true } else g).isVirtual =
        (g.isVirtual || inheritsVirtual) := by
    intro g
    cases inheritsVirtual <;> simp
  rw [hvirtual, hinherits]
  congr 1
  cases hdeclared : draft.record.destructor with
  | none => rfl
  | some declared =>
    dsimp only
    split <;> rfl

/-! ### What holds of each check that defines a member -/

/-- A property that composed checks inherit from their parts, and that the questions about the
subobjects have. -/
structure IsInherited (s : Synthesis) (P : ∀ α : Type, Check α → Prop) : Prop where
  pure {α : Type} (a : α) : P α (pure a)
  bind {α β : Type} {c : Check α} {f : α → Check β} (hc : P α c) (hf : ∀ a, P β (f a)) :
    P β (c >>= f)
  directInit (t : Ty) (args : List Expr) : P _ (Check.attempt (s.program.directInit t args))
  assign (a b : Expr) : P _ (Check.attempt (s.program.assign a b))

namespace IsInherited

variable {P : ∀ α : Type, Check α → Prop} (h : s.IsInherited P)

include h

theorem through {step : Outcome → MemberObject → Check (Option Outcome)}
    (hstep : ∀ o m, P _ (step o m)) (o : Outcome) (objects : List MemberObject) :
    P _ (Outcome.through step o objects) := by
  induction objects generalizing o with
  | nil => exact h.pure o
  | cons m rest ih =>
    refine h.bind (hstep o m) fun next => ?_
    cases next with
    | none => exact h.pure _
    | some next => exact ih next

theorem mapM {α β : Type} {f : α → Check β} (hf : ∀ a, P _ (f a)) (l : List α) :
    P _ (l.mapM f) := by
  induction l with
  | nil => exact h.pure []
  | cons a l ih =>
    rw [List.mapM_cons]
    exact h.bind (hf a) fun _ => h.bind ih fun _ => h.pure _

theorem defaultStep (o : Outcome) (m : MemberObject) : P _ (s.defaultStep o m) := by
  unfold Synthesis.defaultStep
  split
  · exact h.pure _
  · split
    · exact h.pure _
    · split
      · exact h.pure _
      · refine h.bind (h.directInit _ _) fun effects => ?_
        cases effects <;> exact h.pure _

theorem defaultConstructor : P _ s.defaultConstructor := by
  unfold Synthesis.defaultConstructor unionDefaultConstructor
  split
  · refine h.through (fun o m => ?_) _ _
    split
    · exact h.pure _
    · refine h.bind (h.directInit _ _) fun effects => ?_
      split
      · exact h.pure _
      · split <;> exact h.pure _
  · exact h.through h.defaultStep _ _

theorem constructStep (copies : Bool) (arg : Ty → Expr) (o : Outcome) (m : MemberObject) :
    P _ (s.constructStep copies arg o m) := by
  unfold Synthesis.constructStep
  cases m.reference with
  | some isRvalue => exact h.pure _
  | none =>
    refine h.bind (h.directInit _ _) fun effects => ?_
    cases effects with
    | none => exact h.pure _
    | some effects =>
      dsimp only
      split <;> exact h.pure _

theorem constructFrom (copies : Bool) (arg : Ty → Expr) : P _ (s.constructFrom copies arg) :=
  h.through (h.constructStep copies arg) _ _

theorem assignStep (arg : Ty → Expr) (o : Outcome) (m : MemberObject) :
    P _ (s.assignStep arg o m) := by
  unfold Synthesis.assignStep
  split
  · exact h.pure _
  · split
    · exact h.pure _
    · refine h.bind (h.assign _ _) fun effects => ?_
      cases effects with
      | none => exact h.pure _
      | some effects =>
        dsimp only
        split <;> exact h.pure _

theorem assignFrom (arg : Ty → Expr) : P _ (s.assignFrom arg) := h.through (h.assignStep arg) _ _

theorem destroyStep (o : Outcome) (m : MemberObject) : P _ (s.destroyStep o m) := by
  unfold Synthesis.destroyStep
  split
  · exact h.pure _
  · cases s.program.destroy m.type <;> exact h.pure _

theorem destructor : P _ s.destructor := h.through h.destroyStep _ _

theorem defineConstructor (r : Record) (f : FunctionDecl) : P _ (s.defineConstructor r f) := by
  unfold Synthesis.defineConstructor
  split
  · exact h.pure _
  · split
    · exact h.bind h.defaultConstructor fun _ => h.pure _
    · exact h.bind (h.constructFrom _ _) fun _ => h.pure _
    · exact h.bind (h.constructFrom _ _) fun _ => h.pure _
    · exact h.pure _

theorem defineAssignment (r : Record) (f : FunctionDecl) : P _ (s.defineAssignment r f) := by
  unfold Synthesis.defineAssignment
  split
  · exact h.pure _
  · split
    · exact h.bind (h.assignFrom _) fun _ => h.pure _
    · exact h.bind (h.assignFrom _) fun _ => h.pure _
    · exact h.pure _

theorem implicitDefault (d : Declared) : P _ (s.implicitDefault d) := by
  unfold Synthesis.implicitDefault
  split
  · exact h.pure _
  · exact h.bind h.defaultConstructor fun _ => h.pure _

theorem implicitCopyConstructor (draft : Draft) (d : Declared) :
    P _ (s.implicitCopyConstructor draft d) := by
  simp only [Synthesis.implicitCopyConstructor]
  split
  · exact h.pure _
  · split
    · exact h.bind (h.pure _) fun _ => h.pure _
    · exact h.bind (h.constructFrom _ _) fun _ => h.pure _

theorem implicitMoveConstructor (draft : Draft) (d : Declared) :
    P _ (s.implicitMoveConstructor draft d) := by
  unfold Synthesis.implicitMoveConstructor
  split
  · exact h.pure _
  · exact h.bind (h.constructFrom _ _) fun _ => h.pure _

theorem implicitCopyAssignment (draft : Draft) (d : Declared) :
    P _ (s.implicitCopyAssignment draft d) := by
  simp only [Synthesis.implicitCopyAssignment]
  split
  · exact h.pure _
  · split
    · exact h.bind (h.pure _) fun _ => h.pure _
    · exact h.bind (h.assignFrom _) fun _ => h.pure _

theorem implicitMoveAssignment (draft : Draft) (d : Declared) :
    P _ (s.implicitMoveAssignment draft d) := by
  unfold Synthesis.implicitMoveAssignment
  split
  · exact h.pure _
  · exact h.bind (h.assignFrom _) fun _ => h.pure _

theorem completeDestructor (draft : Draft) (inheritsVirtual : Bool) :
    P _ (s.completeDestructor draft inheritsVirtual) :=
  h.bind h.destructor fun _ => h.pure _

theorem complete (draft : Draft) (inheritsVirtual : Bool) :
    P _ (s.complete draft inheritsVirtual) := by
  unfold Synthesis.complete
  refine h.bind (h.mapM (h.defineConstructor _) _) fun _ => ?_
  refine h.bind (h.mapM (h.defineAssignment _) _) fun _ => ?_
  refine h.bind (h.implicitDefault _) fun _ => ?_
  refine h.bind (h.implicitCopyConstructor _ _) fun _ => ?_
  refine h.bind (h.implicitMoveConstructor _ _) fun _ => ?_
  refine h.bind (h.implicitCopyAssignment _ _) fun _ => ?_
  refine h.bind (h.implicitMoveAssignment _ _) fun _ => ?_
  exact h.bind (h.completeDestructor _ _) fun _ => h.pure _

end IsInherited

/-- A relation between checks and what they come to that tells, of a check which defines a member,
what the checks that it is composed of have come to. -/
structure Tells (s : Synthesis) (P : ∀ α : Type, Check α → Prop)
    (R : ∀ α : Type, Check α → α → Prop) : Prop extends s.IsInherited P where
  of_pure {α : Type} {a b : α} (h : R α (Pure.pure a) b) : a = b
  of_bind {α β : Type} {c : Check α} {f : α → Check β} {b : β} (hc : P α c) (hf : ∀ a, P β (f a))
    (h : R β (c >>= f) b) : ∃ a, R α c a ∧ R β (f a) b
  of_directInit {t : Ty} {args : List Expr} {e : Effects}
    (h : R _ (Check.attempt (s.program.directInit t args)) (some e)) :
    R _ (s.program.directInit t args) e
  of_assign {a b : Expr} {e : Effects} (h : R _ (Check.attempt (s.program.assign a b)) (some e)) :
    R _ (s.program.assign a b) e

theorem tells_returns (s : Synthesis) : s.Tells (fun _ _ => True) fun _ c a => c.Returns a where
  pure _ := trivial
  bind _ _ := trivial
  directInit _ _ := trivial
  assign _ _ := trivial
  of_pure := Check.returns_pure.mp
  of_bind _ _ := Check.Returns.bind
  of_directInit := Check.Returns.attempt
  of_assign := Check.Returns.attempt

namespace Tells

variable {P : ∀ α : Type, Check α → Prop} {R : ∀ α : Type, Check α → α → Prop} {arg : Ty → Expr}
  {copies : Bool} {o next : Outcome} {m : MemberObject}

variable (h : s.Tells P R)

include h

theorem defaultStep_cases (hnext : R _ (s.defaultStep o m) (some next)) :
    m.hasInitializer = true ∧ next = { o with trivial := false } ∨
      m.reference = none ∧ ∃ e, R _ (s.program.directInit m.type []) e ∧
        s.isDestructible m.type = true ∧ next = o.absorb e := by
  unfold Synthesis.defaultStep at hnext
  split at hnext
  · rename_i hinitializer
    cases h.of_pure hnext
    exact Or.inl ⟨hinitializer, rfl⟩
  · split at hnext
    · cases h.of_pure hnext
    · rename_i hreference
      split at hnext
      · cases h.of_pure hnext
      · obtain ⟨effects, heffects, hnext⟩ := h.of_bind (h.directInit _ _)
          (fun effects => by cases effects <;> exact h.pure _) hnext
        cases effects with
        | none => cases h.of_pure hnext
        | some e =>
          replace hnext := h.of_pure hnext
          split at hnext <;> cases hnext
          exact Or.inr ⟨by simpa using hreference, e, h.of_directInit heffects, by assumption, rfl⟩

theorem constructStep_cases (hnext : R _ (s.constructStep copies arg o m) (some next)) :
    m.reference.isSome = true ∧ next = o ∨
      m.reference = none ∧ ∃ e, R _ (s.program.directInit m.type [arg m.type]) e ∧
        (s.isUnion = true ∧ e.trivial = true ∧ next = o ∨
          s.isUnion = false ∧ s.isDestructible m.type = true ∧ next = o.absorb e) := by
  unfold Synthesis.constructStep at hnext
  split at hnext
  · rename_i hreference
    replace hnext := h.of_pure hnext
    split at hnext <;> cases hnext
    exact Or.inl ⟨by simp [hreference], rfl⟩
  · rename_i hreference
    obtain ⟨effects, heffects, hnext⟩ := h.of_bind (h.directInit _ _) (fun effects => by
      cases effects with
      | none => exact h.pure _
      | some effects =>
        dsimp only
        split <;> exact h.pure _) hnext
    cases effects with
    | none => cases h.of_pure hnext
    | some e =>
      refine Or.inr ⟨hreference, e, h.of_directInit heffects, ?_⟩
      dsimp only at hnext
      split at hnext
      · rename_i hunion
        replace hnext := h.of_pure hnext
        split at hnext <;> cases hnext
        exact Or.inl ⟨hunion, by assumption, rfl⟩
      · rename_i hunion
        replace hnext := h.of_pure hnext
        split at hnext <;> cases hnext
        exact Or.inr ⟨by simpa using hunion, by assumption, rfl⟩

theorem assignStep_cases (hnext : R _ (s.assignStep arg o m) (some next)) :
    m.reference = none ∧ ∃ e, R _ (s.program.assign (.lvalue m.type) (arg m.type)) e ∧
      (s.isUnion = true ∧ e.trivial = true ∧ next = o ∨ s.isUnion = false ∧ next = o.absorb e) := by
  unfold Synthesis.assignStep at hnext
  split at hnext
  · cases h.of_pure hnext
  · rename_i hreference
    split at hnext
    · cases h.of_pure hnext
    · obtain ⟨effects, heffects, hnext⟩ := h.of_bind (h.assign _ _) (fun effects => by
        cases effects with
        | none => exact h.pure _
        | some effects =>
          dsimp only
          split <;> exact h.pure _) hnext
      cases effects with
      | none => cases h.of_pure hnext
      | some e =>
        refine ⟨by simpa using hreference, e, h.of_assign heffects, ?_⟩
        dsimp only at hnext
        split at hnext
        · rename_i hunion
          replace hnext := h.of_pure hnext
          split at hnext <;> cases hnext
          exact Or.inl ⟨hunion, by assumption, rfl⟩
        · rename_i hunion
          cases h.of_pure hnext
          exact Or.inr ⟨by simpa using hunion, rfl⟩

theorem destroyStep_cases (hnext : R _ (s.destroyStep o m) (some next)) :
    m.reference.isSome = true ∧ next = o ∨
      m.reference = none ∧ ∃ e, s.program.destroy m.type = .ok e ∧ next = o.absorb e := by
  unfold Synthesis.destroyStep at hnext
  split at hnext
  · rename_i hreference
    cases h.of_pure hnext
    exact Or.inl ⟨hreference, rfl⟩
  · rename_i hreference
    split at hnext
    · cases h.of_pure hnext
    · rename_i e he
      replace hnext := h.of_pure hnext
      split at hnext <;> cases hnext
      exact Or.inr ⟨by simpa using hreference, e, he, rfl⟩

end Tells

/-- Defining the special members of a record never fails. -/
theorem total_complete (s : Synthesis) (draft : Draft) (inheritsVirtual : Bool) :
    (s.complete draft inheritsVirtual).Total := by
  have htotal : s.IsInherited fun _ c => c.Total :=
    { pure := Check.total_pure
      bind := Check.Total.bind
      directInit := fun _ _ => Check.total_attempt _
      assign := fun _ _ => Check.total_attempt _ }
  exact htotal.complete draft inheritsVirtual

end Synthesis

namespace Program

variable {p q : Program} {draft : Draft} {r : Record} {t : Ty}

variable (p) in
/-- Whether a record with these bases has virtual bases. -/
def inheritsVirtually (r : Record) : Bool :=
  r.bases.any (·.isVirtual) || (p.baseRecords r).any (·.facts.hasVirtualBases)

variable (p) in
/-- Whether a record that is declared so is polymorphic. -/
def isPolymorphic (r : Record) : Bool :=
  !r.virtualFunctions.isEmpty || r.destructor.any (·.isVirtual) ||
    (p.baseRecords r).any (·.facts.polymorphic)

variable (p) in
/-- What the special members of a record that is declared so are defined from. -/
def synthesis (r : Record) : Synthesis where
  program := p
  objects := p.memberObjects r
  isUnion := r.isUnion
  dynamic := p.isPolymorphic r || p.inheritsVirtually r

variable (p) in
/-- The parts that a record which is declared so is laid out from. -/
def parts (r : Record) : RecordParts where
  isUnion := r.isUnion
  dynamic := p.isPolymorphic r || p.inheritsVirtually r
  bases := r.bases
  members := r.members.map (·.type)

variable (p) in
/-- The record that was declared as `r`, with its special members in `done`, once it is laid out. -/
def completed (r done : Record) (layout : Layout) : Record :=
  let facts := p.facts done (p.isPolymorphic r) (p.inheritsVirtually r)
  { done with
    complete := true
    layout
    facts := { facts with
      uniqueRepresentation := p.isUniquelyRepresented done facts.triviallyCopyable layout.size } }

variable (p) in
/-- The check that defines the special members of a draft. -/
def completion (draft : Draft) : Check Record :=
  (p.synthesis draft.record).complete draft
    ((p.baseRecords draft.record).any (·.facts.virtualDestructor))

/-- A record is completed unless it is too large. -/
theorem completeRecord_eq (p : Program) (draft : Draft) :
    ∃ done, (p.completion draft).result = .ok done ∧ p.completeRecord draft =
      (p.layOut (p.parts draft.record)).map (p.completed draft.record done) := by
  obtain ⟨done, hdone⟩ := ((p.synthesis draft.record).total_complete draft
    ((p.baseRecords draft.record).any (·.facts.virtualDestructor))).result
  refine ⟨done, hdone, ?_⟩
  obtain ⟨_, _, _, rfl, _⟩ := Synthesis.complete_returns (.of_result hdone)
  unfold synthesis at hdone
  unfold completeRecord
  dsimp only
  simp only [isPolymorphic, inheritsVirtually] at hdone
  rw [hdone]
  rfl

/-- A completed record is what its synthesis returns, with its layout and its facts. -/
theorem completeRecord_eq_some (h : p.completeRecord draft = some r) :
    ∃ done layout, (p.completion draft).Returns done ∧
      p.layOut (p.parts draft.record) = some layout ∧
      r = p.completed draft.record done layout := by
  obtain ⟨done, hdone, heq⟩ := p.completeRecord_eq draft
  obtain ⟨layout, hlayout, rfl⟩ := Option.map_eq_some_iff.mp (heq.symm.trans h)
  exact ⟨done, layout, .of_result hdone, hlayout, rfl⟩

/-- The parts of a record that completing keeps. -/
structure Kept (declared completed : Record) : Prop where
  id : completed.id = declared.id
  key : completed.key = declared.key
  bases : completed.bases = declared.bases
  members : completed.members = declared.members
  conversions : completed.conversions = declared.conversions
  callOperators : completed.callOperators = declared.callOperators
  indirection : completed.indirection = declared.indirection
  swaps : completed.swaps = declared.swaps
  wraps : completed.wraps = declared.wraps

theorem kept_of_completeRecord (h : p.completeRecord draft = some r) : Kept draft.record r := by
  obtain ⟨_, _, hdone, _, rfl⟩ := completeRecord_eq_some h
  obtain ⟨_, _, _, rfl, _⟩ := Synthesis.complete_returns hdone
  exact ⟨rfl, rfl, rfl, rfl, rfl, rfl, rfl, rfl, rfl⟩

theorem complete_of_completeRecord (h : p.completeRecord draft = some r) : r.complete = true := by
  obtain ⟨_, _, _, _, rfl⟩ := completeRecord_eq_some h
  rfl

/-- A record is finished if it passes all checks and is not too large. -/
theorem finishRecord_eq_ok : p.finishRecord draft = .ok (q, t) ↔
    ∃ bases r, p.checkBases draft.record = .ok bases ∧ p.checkMembers draft.record = .ok () ∧
      p.completeRecord { draft with record := { draft.record with bases } } = some r ∧
      q = p.defineRecord r ∧ t = r.type := by
  unfold finishRecord
  constructor
  · intro h
    cases hb : p.checkBases draft.record with
    | error e => rw [hb] at h; cases h
    | ok bases =>
      cases hm : p.checkMembers draft.record with
      | error e => rw [hb, hm] at h; cases h
      | ok _ =>
        simp only [hb, hm, bind, Except.bind] at h
        split at h
        · cases h
        · rename_i r hr
          cases h
          exact ⟨bases, r, rfl, rfl, hr, rfl, rfl⟩
  · rintro ⟨bases, r, hb, hm, hr, rfl, rfl⟩
    simp [hb, hm, hr, bind, Except.bind]

/-- A base of the record `owner` that names another class, which is complete and no union. -/
def IsProperBase (p : Program) (owner : RecordId) (base : BaseClass) : Prop :=
  ∃ id b, base.type = .record id ∧ id ≠ owner ∧ p.record? id = some b ∧ b.complete = true ∧
    b.isUnion = false

/-- A checked base is unqualified and names a class other than the record, which is complete. -/
theorem checkBase_eq_ok {base checked : BaseClass} : p.checkBase r base = .ok checked ↔
    checked = { base with type := base.type.unqualified } ∧ ∃ id b,
      checked.type.recordId? = some id ∧ id ≠ r.id ∧ p.record? id = some b ∧ b.complete = true ∧
      b.isUnion = false := by
  constructor
  · intro h
    simp only [checkBase] at h
    split at h
    · cases h
    · rename_i id hid
      split at h
      · cases h
      · rename_i hne
        split at h
        · cases h
        · rename_i b hb
          simp only [completeRecord?, recordOf?, hid, Option.bind_some,
            Option.filter_eq_some_iff] at hb
          split at h
          · cases h
          · rename_i hunion
            cases h
            exact ⟨rfl, id, b, hid, hne, hb.1, hb.2, by simpa using hunion⟩
  · rintro ⟨rfl, id, b, hid, hne, hb, hc, hu⟩
    have hcomplete : p.completeRecord? base.type.unqualified = some b := by
      simp [completeRecord?, recordOf?, hid, hb, hc]
    dsimp only at hid
    simp [checkBase, hid, hne, hcomplete, hu]

/-- The checked bases are the declared ones, each checked. -/
theorem checkBases_eq_ok {bases : List BaseClass} : p.checkBases r = .ok bases ↔
    (r.isUnion = true → r.bases = []) ∧
      List.Forall₂ (fun base checked => p.checkBase r base = .ok checked) r.bases bases := by
  have hmapM : ∀ declared : List BaseClass, declared.mapM (p.checkBase r) = .ok bases ↔
      List.Forall₂ (fun base checked => p.checkBase r base = .ok checked) declared bases := by
    intro declared
    induction declared generalizing bases with
    | nil => cases bases <;> simp [pure, Except.pure]
    | cons base rest ih =>
      rw [List.mapM_cons, List.forall₂_cons_left_iff]
      cases hb : p.checkBase r base with
      | error e => simp [bind, Except.bind]
      | ok checked =>
        cases hr : rest.mapM (p.checkBase r) with
        | error e => simp [bind, Except.bind, ← ih, hr]
        | ok checkedRest =>
          simp only [bind, Except.bind, pure, Except.pure, ← ih, hr, Except.ok.injEq]
          constructor
          · rintro rfl
            exact ⟨checked, checkedRest, rfl, rfl, rfl⟩
          · rintro ⟨_, _, rfl, rfl, rfl⟩
            rfl
  unfold checkBases
  split
  · rename_i hunion
    simp only [Bool.and_eq_true, Bool.not_eq_true', List.isEmpty_eq_false_iff] at hunion
    simp [hunion]
  · rename_i hunion
    rw [hmapM]
    simp only [Bool.and_eq_true, Bool.not_eq_true', List.isEmpty_eq_false_iff, not_and,
      ne_eq, not_not] at hunion
    exact (and_iff_right hunion).symm

theorem checkBase_of_mem {bases : List BaseClass} (h : p.checkBases r = .ok bases) :
    ∀ checked ∈ bases, ∃ base ∈ r.bases, p.checkBase r base = .ok checked := by
  intro checked hmem
  obtain ⟨_, hbases⟩ := checkBases_eq_ok.mp h
  obtain ⟨i, hi, rfl⟩ := List.getElem_of_mem hmem
  have hlt : i < r.bases.length := by rw [hbases.length_eq]; exact hi
  exact ⟨r.bases[i], List.getElem_mem hlt, hbases.get hlt hi⟩

/-- The checked bases of a union are none, and those of a class whose types are in normal form are
proper bases. -/
theorem isProperBase_of_checkBases {bases : List BaseClass}
    (hnormal : ∀ t ∈ r.types, t.isNormal = true) (h : p.checkBases r = .ok bases) :
    (r.isUnion = true → bases = []) ∧ ∀ base ∈ bases, p.IsProperBase r.id base := by
  constructor
  · intro hu
    obtain ⟨hnone, hbases⟩ := checkBases_eq_ok.mp h
    rw [hnone hu] at hbases
    exact List.forall₂_nil_left_iff.mp hbases
  · intro checked hmem
    obtain ⟨base, hbase, hchecked⟩ := checkBase_of_mem h checked hmem
    obtain ⟨rfl, id, b, hid, hne, hb⟩ := checkBase_eq_ok.mp hchecked
    have hdeclared : base.type.isNormal = true := by
      refine hnormal _ ?_
      simp only [Record.types, List.append_assoc, List.mem_append, List.mem_map]
      exact Or.inl ⟨base, hbase, rfl⟩
    exact ⟨id, b, Ty.eq_record_of_recordId? hdeclared hid, hne, hb⟩

/-- A checked data member is a reference or of a complete object type. -/
theorem checkMembers_eq_ok : p.checkMembers r = .ok () ↔
    ∀ m ∈ r.members, m.type.isReference = true ∨ p.isCompleteObject m.type = true := by
  unfold checkMembers
  generalize r.members = members
  induction members with
  | nil => simp [pure, Except.pure]
  | cons m rest ih =>
    rw [List.forM_eq_forM, List.forM_cons, List.forall_mem_cons, ← ih]
    by_cases hm : (m.type.isReference || p.isCompleteObject m.type) = true
    · rw [if_pos hm]
      simp only [Bool.or_eq_true] at hm
      exact (and_iff_right hm).symm
    · rw [if_neg hm]
      simp only [Bool.or_eq_true] at hm
      simp [bind, Except.bind, hm]

theorem isCompleteRecord_iff {id : RecordId} :
    p.isCompleteRecord id = true ↔ ∃ r, p.record? id = some r ∧ r.complete = true := by
  simp [isCompleteRecord, Option.any_eq_true]

/-- A complete object of class type, or an array of such objects, is of a complete record. -/
theorem isCompleteRecord_of_element (h : p.isCompleteObject t = true) {id : RecordId}
    (hid : t.element.recordId? = some id) : p.isCompleteRecord id = true := by
  induction t using Ty.inductionOn with
  | array t b ih =>
    simp only [isCompleteObject, Bool.and_eq_true] at h
    exact ih h.2 hid
  | record id' =>
    cases hid
    exact h
  | qualified t cv _ =>
    cases t <;> simp [Ty.element, Ty.recordId?, Ty.core] at hid
    subst hid
    exact h
  | _ => simp [Ty.element, Ty.recordId?, Ty.core] at hid

end Program
end TypeTraits
