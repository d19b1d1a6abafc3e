import TypeTraits.Proofs.Expr.Checker
import TypeTraits.Proofs.Ty.NormalForm

/-!
# Casts to references

A cast to a reference goes down to a derived class, or across to an rvalue reference, or else binds
the reference. Where it goes across, the reference is related to the source, and an rvalue or a
function can be copy-initialized from it instead.
-/

namespace TypeTraits
namespace Program

variable {p : Program} {source : Expr} {target referent : Ty} {isRvalueRef : Bool}

/-- Whether a cast takes a glvalue of a base class for one of the derived class. -/
def castsDown (p : Program) (source : Expr) (referent : Ty) (isRvalueRef : Bool) : Bool :=
  referent.cv.covers source.type.cv && (source.isLvalue || isRvalueRef && source.isGlvalue) &&
    p.isDowncast source.type.unqualified referent.unqualified

/-- Whether a cast takes a glvalue for an rvalue of its own or a base class. -/
def castsAcross (p : Program) (source : Expr) (referent : Ty) (isRvalueRef : Bool) : Bool :=
  isRvalueRef && source.isGlvalue && referent.cv.covers source.type.cv &&
    (referent.unqualified == source.type.unqualified ||
      (p.baseConversion source.type.unqualified referent.unqualified).isReachable)

theorem staticCastReference_eq (htarget : target.referent? = some (referent, isRvalueRef)) :
    p.staticCastReference target source =
      if p.castsDown source referent isRvalueRef then pure .none
      else if p.castsAcross source referent isRvalueRef then pure .none
      else do return (← p.checker.bindReference source target .direct true).effects := by
  unfold staticCastReference
  rw [htarget]
  simp only [Ty.splitCv_eq, castsDown, castsAcross]
  rfl

/-- A cast across keeps to what the reference could bind to. -/
theorem related_of_castsAcross (hsource : source.type.isNormal = true)
    (hreferent : referent.isNormal = true)
    (h : p.castsAcross source referent isRvalueRef = true) :
    ∃ distance, p.referenceRelation referent.unqualified source.type.unqualified =
      some (.reachable distance) := by
  simp only [castsAcross, Bool.and_eq_true, Bool.or_eq_true, beq_iff_eq] at h
  by_cases hsame : referent.unqualified = source.type.unqualified
  · exact ⟨0, by rw [referenceRelation, if_pos hsame]⟩
  · have hconversion := h.2.resolve_left hsame
    have hbase : p.isBaseOf referent.unqualified source.type.unqualified = true := by
      cases hbase : p.isBaseOf referent.unqualified source.type.unqualified with
      | true => rfl
      | false =>
        rw [baseConversion, Ty.unqualified_unqualified hsource,
          Ty.unqualified_unqualified hreferent, if_neg (Ne.symm hsame), hbase] at hconversion
        cases hconversion
    obtain ⟨distance, hdistance⟩ : ∃ distance,
        p.baseConversion source.type.unqualified referent.unqualified = .reachable distance := by
      cases hc : p.baseConversion source.type.unqualified referent.unqualified <;>
        simp [hc, BaseConversion.isReachable, BaseConversion.distance?] at hconversion ⊢
    refine ⟨distance, ?_⟩
    rw [referenceRelation, if_neg hsame, isRecord_of_isBaseOf hbase, hbase, hdistance]
    rfl

theorem bindFunction_self (hfunction : referent.isFunction = true)
    (hsame : referent = source.type) :
    p.bindFunction source referent = .ok .identity := by
  rw [bindFunction, ← hsame, if_pos hfunction, standardConversion]
  exact if_pos rfl

/-- A cast across from an rvalue, or to a function, is a copy-initialization. -/
theorem copyInit_of_castsAcross (htarget : target.referent? = some (referent, isRvalueRef))
    (hsource : source.type.isNormal = true) (hreferent : referent.isNormal = true)
    (h : p.castsAcross source referent isRvalueRef = true)
    (hrvalue : source.isRvalue = true ∨ referent.isFunction = true) :
    (p.copyInit target source).result.isOk = true := by
  obtain ⟨distance, hrelation⟩ := related_of_castsAcross hsource hreferent h
  suffices hbound : ∃ c, p.bindAtOnce? source referent isRvalueRef = some (.ok c) by
    obtain ⟨c, hc⟩ := hbound
    rw [copyInit_reference htarget, bindReferent_of_atOnce hc]
    rfl
  cases hfunction : referent.isFunction with
  | true =>
    have hsame : referent.unqualified = source.type.unqualified := by
      unfold referenceRelation at hrelation
      split at hrelation
      · assumption
      · cases referent <;> simp [Ty.isFunction] at hfunction <;>
          simp [Ty.unqualified, Ty.splitCv, Ty.isRecord, Ty.recordId?, Ty.core] at hrelation
    refine ⟨.identity, ?_⟩
    rw [bindAtOnce?, if_pos hfunction,
      bindFunction_self hfunction (Ty.eq_of_unqualified_function hfunction hsource hsame)]
  | false =>
    have hrvalue := hrvalue.resolve_right (by simp [hfunction])
    simp only [castsAcross, Bool.and_eq_true] at h
    obtain ⟨⟨⟨rfl, _⟩, hcovers⟩, _⟩ := h
    refine ⟨{ Conversion.derivedToBase distance with
      binding := some (referenceBinding referent true false) }, ?_⟩
    rw [bindAtOnce?, hfunction, if_neg Bool.false_ne_true, hrelation, Option.map_some, bindRelated]
    simp [hrvalue, hcovers, BaseConversion.sequence?, Except.map]

end Program
end TypeTraits
