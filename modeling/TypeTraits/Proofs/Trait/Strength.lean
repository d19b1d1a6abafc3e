import TypeTraits.Proofs.Expr.Selection
import TypeTraits.Proofs.Trait.Conservative
import TypeTraits.Trait.Query

/-!
# The traits of one operation

Default construction, copy construction, copy assignment and destruction give three traits each:
that the operation is possible, that it is trivial and that it cannot throw. Effects that meet what
a trait asks still do when more is promised. With every intrinsic a type has the trait exactly if
the operation on it has effects that meet it.
-/

namespace TypeTraits

/-- How much a trait asks of an operation. -/
inductive Strength where
  | possible
  | trivial
  | nothrow
  deriving DecidableEq, Repr

namespace Strength

/-- Whether the effects are as asked for. -/
def meets : Strength → Effects → Bool
  | possible, _ => true
  | trivial, e => e.trivial
  | nothrow, e => e.nothrow

theorem meets_mono {s : Strength} {a b : Effects} (h : a ≤ b) (ha : s.meets a = true) :
    s.meets b = true := by
  cases s with
  | possible => rfl
  | trivial => exact h.2 ha
  | nothrow => exact h.1 ha

theorem meets_and (s : Strength) (a b : Effects) :
    s.meets (a.and b) = (s.meets a && s.meets b) := by
  cases s <;> rfl

end Strength

namespace TraitKind

/-- The traits of construction from nothing. -/
def defaultConstruction : Strength → TraitKind
  | .possible => isDefaultConstructible
  | .trivial => isTriviallyDefaultConstructible
  | .nothrow => isNothrowDefaultConstructible

/-- The traits of construction from a `const` lvalue. -/
def copyConstruction : Strength → TraitKind
  | .possible => isCopyConstructible
  | .trivial => isTriviallyCopyConstructible
  | .nothrow => isNothrowCopyConstructible

/-- The traits of assignment from a `const` lvalue. -/
def copyAssignment : Strength → TraitKind
  | .possible => isCopyAssignable
  | .trivial => isTriviallyCopyAssignable
  | .nothrow => isNothrowCopyAssignable

def destruction : Strength → TraitKind
  | .possible => isDestructible
  | .trivial => isTriviallyDestructible
  | .nothrow => isNothrowDestructible

end TraitKind

namespace Solver

/-- The construction trait of a strength. -/
def constructs (s : Solver) (t : Ty) (args : List Ty) : Strength → Bool
  | .possible => s.isConstructible t args
  | .trivial => s.isTriviallyConstructible t args
  | .nothrow => s.isNothrowConstructible t args

/-- The assignment trait of a strength. -/
def assigns (s : Solver) (target source : Ty) : Strength → Bool
  | .possible => s.isAssignable target source
  | .trivial => s.isTriviallyAssignable target source
  | .nothrow => s.isNothrowAssignable target source

/-- The destruction trait of a strength. -/
def destroys (s : Solver) (t : Ty) : Strength → Bool
  | .possible => s.isDestructible t
  | .trivial => s.isTriviallyDestructible t
  | .nothrow => s.isNothrowDestructible t

end Solver

namespace Program

/-- The type has the trait, as a solver with every intrinsic and every answer of the provider
finds. -/
def Has (p : Program) (kind : TraitKind) (t : Ty) : Prop :=
  p.solver.query kind t [] = .ok (.bool true)

instance (p : Program) (kind : TraitKind) (t : Ty) : Decidable (p.Has kind t) :=
  inferInstanceAs (Decidable (_ = _))

/-- Constructs an object from a `const` lvalue of its type. -/
def constructCopy (p : Program) (t : Ty) : Check Effects :=
  p.directInit t [.lvalue (t.qualify .const)]

/-- Assigns to an object from a `const` lvalue of its type. -/
def assignCopy (p : Program) (t : Ty) : Check Effects :=
  p.assign (.lvalue t) (.lvalue (t.qualify .const))

variable {p : Program} {t u : Ty} {args : List Ty} {s : Strength}

/-! ### With every intrinsic -/

theorem constructs_solver :
    p.solver.constructs t args s = (Introspection.construction p t args).any s.meets := by
  have hpossible : p.solver.isConstructible t args =
      (Introspection.construction p t args).isSome := answer_solver
  have hnothrow : p.solver.isNothrowConstructible t args =
      (p.solver.isConstructible t args && (Introspection.construction p t args).any (·.nothrow)) :=
    congrArg (p.solver.isConstructible t args && ·) answer_solver
  cases s with
  | possible =>
    rw [Solver.constructs, hpossible]
    cases Introspection.construction p t args <;> rfl
  | trivial => exact isTriviallyConstructible_solver
  | nothrow =>
    rw [Solver.constructs, hnothrow, hpossible]
    cases Introspection.construction p t args <;> rfl

theorem assigns_solver :
    p.solver.assigns t u s = (Introspection.assignment p t u).any s.meets := by
  have hpossible : p.solver.isAssignable t u =
      (Introspection.assignment p t u).isSome := answer_solver
  have hnothrow : p.solver.isNothrowAssignable t u =
      (p.solver.isAssignable t u && (Introspection.assignment p t u).any (·.nothrow)) :=
    congrArg (p.solver.isAssignable t u && ·) answer_solver
  cases s with
  | possible =>
    rw [Solver.assigns, hpossible]
    cases Introspection.assignment p t u <;> rfl
  | trivial => exact isTriviallyAssignable_solver
  | nothrow =>
    rw [Solver.assigns, hnothrow, hpossible]
    cases Introspection.assignment p t u <;> rfl

theorem destroys_solver (ht : t.isReference = false) :
    p.solver.destroys t s = (Introspection.destruction p t).any s.meets := by
  have hpossible : p.solver.isDestructible t =
      (Introspection.destruction p t).isSome := answer_solver
  have hnothrow : p.solver.isNothrowDestructible t = (p.solver.isDestructible t &&
      (t.isReference || (Introspection.destruction p t).any (·.nothrow))) := by
    have hnoexcept : p.solver.knowsNoexcept = true := Capabilities.supports_all .noexcept
    rw [Solver.isNothrowDestructible, hnoexcept]
    exact congrArg (fun b => p.solver.isDestructible t && (t.isReference || b)) answer_solver
  cases s with
  | possible =>
    rw [Solver.destroys, hpossible]
    cases Introspection.destruction p t <;> rfl
  | trivial => exact answer_solver
  | nothrow =>
    rw [Solver.destroys, hnothrow, hpossible, ht]
    cases Introspection.destruction p t <;> rfl

/-! ### What has a trait -/

theorem has_iff {kind : TraitKind} {answer : Bool}
    (h : p.solver.query kind t [] = .ok (.bool answer)) : p.Has kind t ↔ answer = true := by
  simp [Has, h]

/-- What is constructed is destroyed again, unless it is a reference. -/
theorem constructs_iff {exprs : List Expr} (ht : t.isReference = false)
    (hexprs : Expr.declvals args = .ok exprs) : p.solver.constructs t args s = true ↔
      (∃ e, (p.directInit t exprs).result = .ok e ∧ s.meets e = true) ∧
        (p.destroy t).isOk = true := by
  rw [constructs_solver, Option.any_eq_true]
  constructor
  · rintro ⟨e, he, hmeets⟩
    obtain ⟨exprs', hexprs', hinit, hdestroy⟩ := Solver.construction_eq_some.mp he
    cases hexprs.symm.trans hexprs'
    exact ⟨⟨e, hinit, hmeets⟩, hdestroy.resolve_left (by simp [ht])⟩
  · rintro ⟨⟨e, hinit, hmeets⟩, hdestroy⟩
    exact ⟨e, Solver.construction_eq_some.mpr ⟨exprs, hexprs, hinit, Or.inr hdestroy⟩, hmeets⟩

theorem has_defaultConstruction (ht : t.isReference = false) :
    p.Has (.defaultConstruction s) t ↔
      (∃ e, (p.directInit t []).result = .ok e ∧ s.meets e = true) ∧ (p.destroy t).isOk = true := by
  have hconstructs : p.Has (.defaultConstruction s) t ↔ p.solver.constructs t [] s = true := by
    cases s <;> exact has_iff rfl
  rw [hconstructs]
  exact constructs_iff ht rfl

theorem has_destruction (ht : t.isReference = false) :
    p.Has (.destruction s) t ↔ ∃ e, p.destroy t = .ok e ∧ s.meets e = true := by
  have hdestroys : p.Has (.destruction s) t ↔ p.solver.destroys t s = true := by
    cases s <;> exact has_iff rfl
  rw [hdestroys, destroys_solver ht, Introspection.destruction]
  cases p.destroy t <;> simp [Except.toOption]

theorem category_qualify (t : Ty) (cv : Cv) : p.category (t.qualify cv) = p.category t := by
  unfold Ty.qualify
  split
  · rfl
  · cases t <;> rfl

theorem isObject_of_isCompleteObject (ht : t.isNormal = true) (h : p.isCompleteObject t = true) :
    (p.category t).isObject = true := by
  have hplain : ∀ t : Ty, t.takesQualifier = true → p.isCompleteObject t = true →
      (p.category t).isObject = true := by
    intro t hqualifier h
    cases t <;> try first | rfl | cases h | cases hqualifier
    all_goals
      unfold category
      split <;> rfl
  cases t with
  | qualified t cv =>
    simp only [Ty.isNormal, Bool.and_eq_true] at ht
    refine hplain t ht.1.2 ?_
    cases t <;> first | exact h | cases ht.1.2
  | array t b => rfl
  | lvalueRef t | rvalueRef t | function r ps q | functionNamed n => cases h
  | _ => exact hplain _ rfl h

theorem not_isReference_of_isObject (h : (p.category t).isObject = true) :
    t.isReference = false := by
  cases t <;> first | rfl | cases h

/-- A reference can be formed to an object. -/
theorem isReferenceable_of_isObject (h : (p.category t).isObject = true) :
    p.isReferenceable t = true := by
  unfold isReferenceable
  split
  · simp_all [Category.isObject, Category.isScalar, Category.isArithmetic,
      Category.isMemberPointer]
  · simp_all [Category.isObject, Category.isScalar, Category.isArithmetic,
      Category.isMemberPointer]
  · rfl

theorem addLvalueReference_of_isObject (h : (p.category t).isObject = true) :
    p.addLvalueReference t = .lvalueRef t := by
  rw [addLvalueReference, if_pos (isReferenceable_of_isObject h)]
  cases t <;> first | rfl | cases h

theorem addRvalueReference_of_isObject (h : (p.category t).isObject = true) :
    p.addRvalueReference t = .rvalueRef t := by
  rw [addRvalueReference, if_pos (isReferenceable_of_isObject h)]
  cases t <;> first | rfl | cases h

theorem copySource_solver (h : (p.category t).isObject = true) :
    p.solver.copySource t = .lvalueRef (t.qualify .const) :=
  addLvalueReference_of_isObject (by rwa [program_solver, category_qualify])

theorem has_copyConstruction (h : (p.category t).isObject = true) :
    p.Has (.copyConstruction s) t ↔
      (∃ e, (p.constructCopy t).result = .ok e ∧ s.meets e = true) ∧
        (p.destroy t).isOk = true := by
  have hconstructs : p.Has (.copyConstruction s) t ↔
      p.solver.constructs t [p.solver.copySource t] s = true := by
    cases s <;> exact has_iff rfl
  rw [hconstructs, copySource_solver h]
  exact constructs_iff (not_isReference_of_isObject h) rfl

theorem has_copyAssignment (h : (p.category t).isObject = true) :
    p.Has (.copyAssignment s) t ↔ ∃ e, (p.assignCopy t).result = .ok e ∧ s.meets e = true := by
  have hassigns : p.Has (.copyAssignment s) t ↔
      p.solver.assigns (p.solver.assignmentTarget t) (p.solver.copySource t) s = true := by
    cases s <;> exact has_iff rfl
  have htarget : p.solver.assignmentTarget t = .lvalueRef t := addLvalueReference_of_isObject h
  rw [hassigns, htarget, copySource_solver h, assigns_solver, Option.any_eq_true]
  constructor
  · rintro ⟨e, he, hmeets⟩
    obtain ⟨a, b, ha, hb, hassign⟩ := Solver.assignment_eq_some.mp he
    cases ha
    cases hb
    exact ⟨e, hassign, hmeets⟩
  · rintro ⟨e, hassign, hmeets⟩
    exact ⟨e, Solver.assignment_eq_some.mpr ⟨_, _, rfl, rfl, hassign⟩, hmeets⟩

end Program
end TypeTraits
