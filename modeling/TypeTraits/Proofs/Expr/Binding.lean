import TypeTraits.Expr.Reference
import TypeTraits.Proofs.Expr.Returns

/-!
# How a reference is bound

Binding to an object of a related type is decided at once, without a check and whatever the form
of the initialization. Binding to an object of an unrelated type tries conversion functions, and
then a temporary.
-/

namespace TypeTraits
namespace Program

variable {p : Program} {convert : ConvertArgument} {source : Expr} {target : Ty}
  {isRvalueRef : Bool} {mode : InitMode} {allowUser : Bool} {c : Conversion}

/-- How a reference to `target` is bound; `temporary` tells whether to a temporary. -/
def referenceBinding (target : Ty) (rvalueToRvalue temporary : Bool) : ReferenceBinding where
  rvalueToRvalue := rvalueToRvalue
  referent := target.unqualified
  cv := target.cv
  implicitObject := false
  temporary := temporary

/-- Binding to an object whose type is the referenced one or derived from it. -/
def bindRelated (source : Expr) (target : Ty) (isRvalueRef : Bool) (relation : BaseConversion) :
    Formed Conversion :=
  let bound (rvalueToRvalue : Bool) : Formed Conversion :=
    relation.sequence?.map fun sequence =>
      { sequence with binding := some (referenceBinding target rvalueToRvalue false) }
  let covered := target.cv.covers source.type.cv
  if !isRvalueRef && source.isLvalue && covered then bound false
  else if !isRvalueRef && target.cv ≠ .const then .error .nonConstLvalueReference
  else if source.isRvalue && covered then bound isRvalueRef
  else if isRvalueRef && source.isLvalue then .error .rvalueReferenceToLvalue
  else .error .dropsQualifiers

/-- Tries the conversion functions of a class object before `otherwise`. -/
def bindThroughFunctionOr (p : Program) (convert : ConvertArgument) (source : Expr) (target : Ty)
    (wantLvalue isRvalueRef : Bool) (mode : InitMode) (allowUser : Bool)
    (otherwise : Check Conversion) : Check Conversion :=
  if source.type.unqualified.isRecord && allowUser then do
    if let some conversion ← Check.attempt (p.bindThroughFunction convert source
        target.unqualified target.cv wantLvalue isRvalueRef mode) then
      return conversion
    otherwise
  else otherwise

/-- Binding to a temporary that the source converts to. -/
def bindTemporary (convert : ConvertArgument) (source : Expr) (target : Ty)
    (isRvalueRef allowUser : Bool) : Check Conversion := do
  let conversion ← convert source (target.unqualified.qualify target.cv) .copy allowUser
  return { conversion with binding := some (referenceBinding target isRvalueRef true) }

/-- Binding to an object of an unrelated type. -/
def bindUnrelated (p : Program) (convert : ConvertArgument) (source : Expr) (target : Ty)
    (isRvalueRef : Bool) (mode : InitMode) (allowUser : Bool) : Check Conversion :=
  let toRvalue := p.bindThroughFunctionOr convert source target false isRvalueRef mode allowUser
    (bindTemporary convert source target isRvalueRef allowUser)
  if isRvalueRef then toRvalue
  else
    p.bindThroughFunctionOr convert source target true false mode allowUser
      (if target.cv ≠ .const then throw .nonConstLvalueReference else toRvalue)

theorem isRecord_of_isBaseOf {base derived : Ty} (h : p.isBaseOf base derived = true) :
    base.isRecord = true := by
  unfold isBaseOf at h
  split at h
  · rename_i hid _
    simp [Ty.isRecord, hid]
  · cases h

/-- Only the same type and derived classes are related to a referenced type. -/
theorem referenceRelation_eq_none {referent cls : Ty} :
    p.referenceRelation referent cls = none ↔
      ¬(cls = referent ∨ p.isBaseOf referent cls = true) := by
  unfold referenceRelation
  by_cases hsame : referent = cls
  · simp [hsame]
  · cases hbase : p.isBaseOf referent cls with
    | false => simp [hsame, Ne.symm hsame]
    | true => simp [hsame, isRecord_of_isBaseOf hbase]

theorem bindObject_of_related {relation : BaseConversion}
    (h : p.referenceRelation target.unqualified source.type.unqualified = some relation) :
    p.bindObject convert source target isRvalueRef mode allowUser =
      Check.ofFormed (bindRelated source target isRvalueRef relation) := by
  have hdirect : ∀ rvalueToRvalue : Bool,
      (do
        let sequence ← Check.ofFormed relation.sequence?
        return { sequence with
          binding := some
            { rvalueToRvalue, referent := target.unqualified, cv := target.cv,
              implicitObject := false, temporary := false } } : Check Conversion) =
      Check.ofFormed (relation.sequence?.map fun sequence =>
        { sequence with binding := some (referenceBinding target rvalueToRvalue false) }) := by
    intro rvalueToRvalue
    cases relation.sequence? <;> rfl
  unfold bindObject bindRelated
  simp only [Ty.splitCv_eq, h, Option.isNone_some, Option.isSome_some, Bool.and_false,
    Bool.false_and, Bool.false_eq_true, if_false, if_true, hdirect]
  obtain ⟨type, category⟩ := source
  generalize target.cv.covers type.cv = covered
  cases isRvalueRef <;> cases covered <;> by_cases hconst : target.cv = .const <;>
    cases category <;> simp [hconst, Expr.isLvalue, Expr.isRvalue, ValueCategory.isRvalue] <;> rfl

theorem bindObject_of_unrelated
    (h : p.referenceRelation target.unqualified source.type.unqualified = none) :
    p.bindObject convert source target isRvalueRef mode allowUser =
      p.bindUnrelated convert source target isRvalueRef mode allowUser := by
  unfold bindObject bindUnrelated
  simp only [Ty.splitCv_eq, h, Option.isNone_none, Option.isSome_none, Bool.and_true,
    Bool.false_eq_true, if_false]
  unfold bindThroughFunctionOr bindTemporary referenceBinding
  by_cases hconst : target.cv = .const <;> cases isRvalueRef <;> simp [hconst] <;> rfl

/-- Binding to what a reference refers to. -/
def bindReferent (p : Program) (convert : ConvertArgument) (source : Expr) (referent : Ty)
    (isRvalueRef : Bool) (mode : InitMode) (allowUser : Bool) : Check Conversion :=
  if referent.isFunction then Check.ofFormed (p.bindFunction source referent)
  else p.bindObject convert source referent isRvalueRef mode allowUser

/-- What binding comes to where no check is nested in it: functions and related objects. -/
def bindAtOnce? (p : Program) (source : Expr) (referent : Ty) (isRvalueRef : Bool) :
    Option (Formed Conversion) :=
  if referent.isFunction then some (p.bindFunction source referent)
  else (p.referenceRelation referent.unqualified source.type.unqualified).map
    (bindRelated source referent isRvalueRef)

theorem bindReferent_of_atOnce {bound : Formed Conversion}
    (h : p.bindAtOnce? source target isRvalueRef = some bound) :
    p.bindReferent convert source target isRvalueRef mode allowUser = Check.ofFormed bound := by
  unfold bindAtOnce? at h
  unfold bindReferent
  split at h
  · rename_i hfunction
    rw [if_pos hfunction, Option.some.inj h]
  · rename_i hfunction
    obtain ⟨relation, hrelation, rfl⟩ := Option.map_eq_some_iff.mp h
    rw [if_neg hfunction, bindObject_of_related hrelation]

theorem bindAtOnce?_eq_none :
    p.bindAtOnce? source target isRvalueRef = none ↔ target.isFunction = false ∧
      p.referenceRelation target.unqualified source.type.unqualified = none := by
  unfold bindAtOnce?
  cases target.isFunction <;> simp

theorem bindReferent_of_unrelated (h : p.bindAtOnce? source target isRvalueRef = none) :
    p.bindReferent convert source target isRvalueRef mode allowUser =
      p.bindUnrelated convert source target isRvalueRef mode allowUser := by
  obtain ⟨hfunction, hrelation⟩ := bindAtOnce?_eq_none.mp h
  rw [bindReferent, hfunction, if_neg Bool.false_ne_true, bindObject_of_unrelated hrelation]

theorem bindRelated_eq_ok {relation : BaseConversion}
    (h : bindRelated source target isRvalueRef relation = .ok c) :
    ∃ sequence binding, relation.sequence? = .ok sequence ∧
      c = { sequence with binding := some binding } := by
  simp only [bindRelated] at h
  cases hs : relation.sequence? with
  | error e =>
    rw [hs] at h
    repeat' split at h
    all_goals cases h
  | ok sequence =>
    rw [hs] at h
    repeat' split at h
    all_goals cases h
    all_goals exact ⟨sequence, _, rfl, rfl⟩

/-- Only an lvalue reference binds to an lvalue of a related type, if it is as qualified. -/
theorem covers_of_bindRelated {relation : BaseConversion} (hlvalue : source.isLvalue = true)
    (h : bindRelated source target isRvalueRef relation = .ok c) :
    isRvalueRef = false ∧ target.cv.covers source.type.cv = true := by
  have hrvalue : source.isRvalue = false := by
    obtain ⟨type, category⟩ := source
    cases category <;> first | rfl | cases hlvalue
  simp only [bindRelated, hlvalue, hrvalue, Bool.and_true, Bool.false_and, Bool.false_eq_true,
    if_false] at h
  split at h
  · rename_i hbound
    simpa using hbound
  · split at h
    · cases h
    · split at h <;> cases h

theorem bindThroughFunctionOr_returns {wantLvalue : Bool} {otherwise : Check Conversion}
    (h : (p.bindThroughFunctionOr convert source target wantLvalue isRvalueRef mode allowUser
      otherwise).Returns c) :
    (allowUser = true ∧ (p.bindThroughFunction convert source target.unqualified target.cv
      wantLvalue isRvalueRef mode).Returns c) ∨ otherwise.Returns c := by
  unfold bindThroughFunctionOr at h
  split at h
  · rename_i htry
    obtain ⟨o, ho, h⟩ := h.bind
    cases o with
    | none => exact Or.inr h
    | some found =>
      rw [Check.returns_pure] at h
      exact Or.inl ⟨(Bool.and_eq_true_iff.mp htry).2, h ▸ ho.attempt⟩
  · exact Or.inr h

theorem bindUnrelated_returns
    (h : (p.bindUnrelated convert source target isRvalueRef mode allowUser).Returns c) :
    (allowUser = true ∧ ∃ wantLvalue toRvalue, (p.bindThroughFunction convert source
      target.unqualified target.cv wantLvalue toRvalue mode).Returns c) ∨
    (bindTemporary convert source target isRvalueRef allowUser).Returns c := by
  have hor {wantLvalue toRvalue : Bool} {otherwise : Check Conversion}
      (h : (p.bindThroughFunctionOr convert source target wantLvalue toRvalue mode allowUser
        otherwise).Returns c) :=
    (bindThroughFunctionOr_returns h).imp_left fun h =>
      (⟨h.1, _, _, h.2⟩ : allowUser = true ∧ ∃ wantLvalue toRvalue,
        (p.bindThroughFunction convert source target.unqualified target.cv wantLvalue toRvalue
          mode).Returns c)
  simp only [bindUnrelated] at h
  split at h
  · exact hor h
  · rcases hor h with h | h
    · exact Or.inl h
    · split at h
      · simp at h
      · exact hor h

/-- Without conversion functions to try, only a temporary is left. -/
theorem bindUnrelated_of_not_isRecord (h : source.type.unqualified.isRecord = false) :
    p.bindUnrelated convert source target isRvalueRef mode allowUser =
      if isRvalueRef = false ∧ target.cv ≠ .const then throw .nonConstLvalueReference
      else bindTemporary convert source target isRvalueRef allowUser := by
  unfold bindUnrelated bindThroughFunctionOr
  cases isRvalueRef <;> simp [h]

end Program
end TypeTraits
