import TypeTraits.Proofs.Expr.Selection
import TypeTraits.Proofs.Expr.Compositional
import TypeTraits.Proofs.Ty.HiddenReferences

/-!
# The operation that forms pointers

Forming the pointer to a type is an operation that is defined for types that are no references only.
The conversions are written here with that operation as a parameter, in each place where they form a
pointer. One that does anything at all with a reference shows whether it is ever given one: if it is
not, the conversions are what they are with pointers always formed.
-/

namespace TypeTraits

/-- An operation that forms the pointer to a type. It may fail, or change the guard. -/
abbrev PointerOperation := Ty → Check Ty

namespace PointerOperation

/-- The operation that forms every pointer. -/
def exact : PointerOperation := fun t => return .pointer t

/-- The operation forms the pointer to every type that is no reference. -/
def IsFaithful (pointer : PointerOperation) : Prop :=
  ∀ t : Ty, t.isReference = false → pointer t = return .pointer t

/-- The operation forms the pointers that operations on expressions with types in a closed set need:
to the types of the set and to functions. -/
structure Serves (pointer : PointerOperation) (ok : Ty → Prop) : Prop extends Ty.IsClosed ok where
  forms {t : Ty} : ok t → pointer t = return .pointer t
  function {t : Ty} : t.isFunction = true → pointer t = return .pointer t

theorem exact_serves : exact.Serves fun _ => True where
  toIsClosed := Ty.isClosed_true
  forms _ := rfl
  function _ := rfl

theorem IsFaithful.serves {pointer : PointerOperation} (h : pointer.IsFaithful) :
    pointer.Serves fun t => t.isOperandType = true where
  toIsClosed := Ty.isClosed_isOperandType
  forms ht := h _ (Ty.isOperandType_iff.mp ht).1
  function {t} ht := h t (by cases t <;> first | rfl | cases ht)

/-! ### Conversions -/

section Conversions

variable (pointer : PointerOperation) (p : Program)

/-- The type an expression of this type has as a value. -/
def asValue : Ty → Check Ty
  | .array t _ => pointer t
  | .function r ps q => pointer (.function r ps q)
  | .functionNamed n => pointer (.functionNamed n)
  | t => return t.unqualified

/-- The standard conversion of an expression by way of its value. Under a qualification, even the
empty one, the type of the value is taken as it is. -/
def standardConversion (e : Expr) (target : Ty) (mode : InitMode) : Check Conversion := do
  let value ← pointer.asValue e.type
  Check.ofFormed (p.standardConversion (.prvalue (.qualified value ∅)) target mode)

/-- Binding of a reference to a function, as a conversion of pointers. -/
def bindFunction (source : Expr) (referent : Ty) : Check Conversion :=
  if source.type.isFunction then do
    let sourcePointer ← pointer source.type
    let targetPointer ← pointer referent
    pointer.standardConversion p (.prvalue sourcePointer) targetPointer .copy
  else throw .noConversion

/-- Conversion of a class object to a type that is no class, through a conversion function. -/
def conversionFromClass (convert : ConvertArgument) (source : Expr) (target : Ty)
    (mode : InitMode) : Check Conversion := do
  let candidates ← Program.conversionCandidates (p.conversionOwners source.type) mode fun f =>
    Check.attempt (pointer.standardConversion p (Expr.callResult f.result) target mode)
  p.userDefinedConversion convert candidates source

/-- Implicit conversion, with nested checks left to `deeper`. -/
def convertStep (deeper : Checker) (source : Expr) (target : Ty) (mode : InitMode)
    (allowUser : Bool) : Check Conversion :=
  if target.isReference then deeper.bindReference source target mode allowUser
  else if source.type.isVoid then throw .voidExpression
  else if target.isRecord then
    p.classConversion deeper.convert source target mode allowUser
  else if source.type.isRecord then
    if allowUser then pointer.conversionFromClass p deeper.convert source target mode
    else throw .noConversion
  else pointer.standardConversion p source target mode

/-- The checker whose nested checks are left to `deeper`. Conversions construct nothing. -/
def checkerStep (deeper : Checker) : Checker where
  convert source target mode allowUser :=
    .guarded (.of .convert target source)
      (pointer.convertStep p deeper source target mode allowUser)
  bindReference source target mode allowUser :=
    match target.referent? with
    | none => throw .noConversion
    | some (referent, isRvalueRef) =>
      .guarded (.of .bindReference target source) <|
        if referent.isFunction then pointer.bindFunction p source referent
        else p.bindObject deeper.convert source referent isRvalueRef mode allowUser
  construct := (p.checkerStep deeper).construct

/-- The checker that the checker of a depth leaves nested checks to. -/
def checkerBelow : Nat → Checker
  | 0 => .closed
  | depth + 1 => pointer.checkerStep p (checkerBelow depth)

/-- The conversion sequence from an expression to a type. -/
def convert : ConvertArgument :=
  (pointer.checkerBelow p (Limits.initializationDepth + 1)).convert

end Conversions

end PointerOperation

/-! ### The types that declarations lead to -/

/-- The records are declared with results, references to them aside, and with wrapped types that are
in a set of types. -/
structure Program.DeclaresWithin (p : Program) (ok : Ty → Prop) : Prop where
  result : ∀ r ∈ p.records, ∀ f ∈ r.allFunctions, ok f.result.withoutReference
  wrapped : ∀ r ∈ p.records, ∀ t, r.wraps = some t → ok t

theorem Program.declaresWithin_true (p : Program) : p.DeclaresWithin fun _ => True :=
  ⟨fun _ _ _ _ => trivial, fun _ _ _ _ => trivial⟩

theorem Record.functions_subset (r : Record) (set : FunctionSet) :
    r.functions set ⊆ r.allFunctions := by
  intro f hf
  cases set <;> simp_all [functions, allFunctions]

namespace Program

variable {p : Program} {t : Ty} {r : Record}

theorem mem_records_of_recordOf? (h : p.recordOf? t = some r) : r ∈ p.records := by
  obtain ⟨id, -, h⟩ := Option.bind_eq_some_iff.mp h
  exact Array.mem_of_getElem? (Option.ite_none_left_eq_some.mp h).2

theorem mem_records_of_completeRecord? (h : p.completeRecord? t = some r) : r ∈ p.records :=
  mem_records_of_recordOf? (Option.filter_eq_some_iff.mp h).1

theorem mem_records_of_class? (h : p.class? t = some r) : r ∈ p.records :=
  mem_records_of_completeRecord? (Option.filter_eq_some_iff.mp h).1

end Program

namespace Check

variable {α : Type}

@[simp] theorem attempt_ofFormed (r : Formed α) : attempt (ofFormed r) = pure r.toOption := by
  cases r <;> rfl

theorem isCompositional_eq : IsCompositional fun _ c₁ c₂ => c₁ = c₂ where
  ofFormed _ := rfl
  bind := by
    rintro _ _ c _ f₁ f₂ rfl hf
    rw [funext hf]
  attempt := by
    rintro _ c _ rfl
    rfl

end Check

namespace PointerOperation
namespace Serves

variable {pointer : PointerOperation} {ok : Ty → Prop} (h : pointer.Serves ok) {p : Program}
  (hp : p.DeclaresWithin ok) {t : Ty} {e source : Expr} {target : Ty} {mode : InitMode}
  {allowUser : Bool}

include h

theorem prvalueOf (ht : ok t) : ok (Expr.prvalueOf t).type := by
  unfold Expr.prvalueOf Expr.prvalue
  dsimp only
  split
  · exact ht
  · exact h.unqualified ht

/-- What a call gives has the result for its type, or what that refers to. -/
theorem callResult (ht : ok t.withoutReference) : ok (Expr.callResult t).type := by
  cases t with
  | lvalueRef t => exact ht
  | rvalueRef t =>
    unfold Expr.callResult
    dsimp only
    split <;> exact ht
  | _ => exact h.prvalueOf ht

theorem asValue_eq (ht : ok t) : pointer.asValue t = pure t.asValue := by
  cases t with
  | array t b => exact h.forms (h.element ht)
  | function r ps q => exact h.function rfl
  | functionNamed n => exact h.function rfl
  | _ => rfl

theorem standardConversion_eq (he : ok e.type) :
    pointer.standardConversion p e target mode =
      Check.ofFormed (p.standardConversion e target mode) := by
  rw [standardConversion, h.asValue_eq he, pure_bind]
  rfl

theorem bindFunction_eq (source : Expr) {referent : Ty} (hreferent : referent.isFunction = true) :
    pointer.bindFunction p source referent =
      Check.ofFormed (p.bindFunction source referent) := by
  unfold bindFunction Program.bindFunction
  split
  · next hsource =>
    rw [h.function hsource, h.function hreferent]
    rfl
  · rfl

include hp

/-- From operands the conversions go on to operands only. -/
theorem closedSources : p.ClosedSources fun e _ => ok e.type where
  direct he := he
  result {e} _ owner howner f hf := by
    obtain ⟨_, hrecord⟩ := Program.mem_conversionOwners howner
    exact h.callResult (hp.result owner.2 (Program.mem_records_of_completeRecord? hrecord) f
      (owner.2.functions_subset .conversion hf))

theorem conversionFromClass_eq {convert convert' : ConvertArgument}
    (hconvert : ∀ source target mode allowUser, ok source.type →
      convert source target mode allowUser = convert' source target mode allowUser)
    (hsource : ok source.type) :
    pointer.conversionFromClass p convert source target mode =
      p.conversionFromClass convert' source target mode := by
  have haccept : ∀ c ∈ Program.visibleConversions mode (p.conversionOwners source.type),
      Check.attempt (pointer.standardConversion p (.callResult c.function.result) target mode) =
        return (p.standardConversion (.callResult c.function.result) target mode).toOption := by
    intro c hc
    obtain ⟨owner, howner, hmem⟩ := Program.mem_visibleConversions hc
    have hresult := (h.closedSources hp).result hsource owner howner _
      (Record.mem_candidates hmem).1
    rw [h.standardConversion_eq hresult, Check.attempt_ofFormed]
  have hcandidates : Program.conversionCandidates (p.conversionOwners source.type) mode
        (fun f => Check.attempt
          (pointer.standardConversion p (.callResult f.result) target mode)) =
      Program.conversionCandidates (p.conversionOwners source.type) mode
        (fun f => return (p.standardConversion (.callResult f.result) target mode).toOption) :=
    Check.filterMapM_congr fun c hc => by dsimp only; rw [haccept c hc]
  unfold conversionFromClass Program.conversionFromClass
  rw [hcandidates]
  exact bind_congr fun candidates => Check.isCompositional_eq.userDefinedConversion
    hconvert hsource candidates

theorem convertStep_eq {deeper deeper' : Checker}
    (hconvert : ∀ source target mode allowUser, ok source.type →
      deeper.convert source target mode allowUser = deeper'.convert source target mode allowUser)
    (hbind : ∀ source target mode allowUser, ok source.type →
      deeper.bindReference source target mode allowUser =
        deeper'.bindReference source target mode allowUser)
    (hsource : ok source.type) :
    pointer.convertStep p deeper source target mode allowUser =
      p.convertStep deeper' source target mode allowUser := by
  unfold convertStep Program.convertStep
  refine ite_congr rfl (fun _ => hbind _ _ _ _ hsource) fun _ => ?_
  refine ite_congr rfl (fun _ => rfl) fun _ => ?_
  refine ite_congr rfl (fun _ => ?_) fun _ => ?_
  · exact Check.isCompositional_eq.classConversion hconvert
      (h.closedSources hp) hsource
  refine ite_congr rfl (fun _ => ?_) fun _ => h.standardConversion_eq hsource
  exact ite_congr rfl (fun _ => h.conversionFromClass_eq hp hconvert hsource) fun _ => rfl

/-- The checks agree level by level, from the one that allows no step. -/
theorem checkerBelow_eq (depth : Nat) (source : Expr) (target : Ty) (mode : InitMode)
    (allowUser : Bool) (hsource : ok source.type) :
    (pointer.checkerBelow p depth).convert source target mode allowUser =
        (p.checkerBelow depth).convert source target mode allowUser ∧
      (pointer.checkerBelow p depth).bindReference source target mode allowUser =
        (p.checkerBelow depth).bindReference source target mode allowUser := by
  induction depth generalizing source target mode allowUser with
  | zero => exact ⟨rfl, rfl⟩
  | succ depth ih =>
    have hconvert : ∀ source target mode allowUser, ok source.type →
        (pointer.checkerBelow p depth).convert source target mode allowUser =
          (p.checkerBelow depth).convert source target mode allowUser :=
      fun source target mode allowUser hsource => (ih source target mode allowUser hsource).1
    constructor
    · exact congrArg (Check.guarded _) (h.convertStep_eq hp hconvert
        (fun source target mode allowUser hsource => (ih source target mode allowUser hsource).2)
        hsource)
    · cases htarget : target.referent? with
      | none =>
        simp only [checkerBelow, checkerStep, Program.checkerBelow, Program.checkerStep, htarget]
      | some parts =>
        obtain ⟨referent, isRvalueRef⟩ := parts
        rw [Program.bindReference_eq htarget]
        simp only [checkerBelow, checkerStep, htarget]
        refine congrArg (Check.guarded _) ?_
        rw [← Check.isCompositional_eq.bindReferent hconvert
          (h.closedSources hp) hsource]
        exact ite_congr rfl (fun hfunction => h.bindFunction_eq source hfunction) fun _ => rfl

/-- Converting an operand forms pointers in the set and to functions only. -/
theorem convert_eq (hsource : ok source.type) (target : Ty) (mode : InitMode) (allowUser : Bool) :
    pointer.convert p source target mode allowUser = p.convert source target mode allowUser := by
  rw [convert, (h.checkerBelow_eq hp _ source target mode allowUser hsource).1, Program.convert,
    Program.checker_eq]

/-- Overload resolution for operands does no more than convert them. -/
theorem resolve_eq {args : List Expr} (hargs : ∀ arg ∈ args, ok arg.type)
    (candidates : List Candidate) (object : Option Expr) :
    p.resolve (pointer.convert p) candidates object args allowUser =
      p.resolve p.checker.convert candidates object args allowUser :=
  Check.isCompositional_eq.resolve
    (fun _ target mode allowUser hsource => h.convert_eq hp hsource target mode allowUser)
    candidates object hargs

end Serves
end PointerOperation
end TypeTraits
