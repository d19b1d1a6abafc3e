import TypeTraits.Expr.Reference
import TypeTraits.Proofs.Hierarchy.Walk

/-!
# Programs with one hierarchy

The walks over base classes look at the edges that leave each class and at nothing else, so programs
that have these in common convert between bases alike, whatever their classes are made of otherwise.
Standard conversions look at the conversions between bases, at the enumerations and at the target.
-/

namespace TypeTraits

open Hierarchy

namespace Program

/-- Programs whose classes convert to their bases alike, for one target and with the same
enumerations. -/
structure SameBaseConversions (p q : Program) : Prop where
  target : q.target = p.target
  enums : q.enums = p.enums
  isBaseOf : q.isBaseOf = p.isBaseOf
  baseConversion : q.baseConversion = p.baseConversion

namespace SameBaseConversions

variable {p q : Program} (h : p.SameBaseConversions q)

include h

theorem standardConversion : q.standardConversion = p.standardConversion := by
  have henum : q.enumOf? = p.enumOf? := by
    have hnumber : q.enum? = p.enum? := by
      funext id
      simp only [enum?, h.enums]
    funext t
    simp only [enumOf?, hnumber]
  have hpromoted : q.promotedType = p.promotedType := by
    funext t
    simp only [promotedType, henum, h.target]
  have hconversion : q.enumConversion = p.enumConversion := by
    funext source target kind
    simp only [enumConversion, henum, hpromoted, h.target]
  have hrank : q.builtinRank = p.builtinRank := by
    funext source target
    simp only [builtinRank, h.target]
  have hpointer : q.pointerConversion = p.pointerConversion := by
    funext source target
    simp only [pointerConversion, h.baseConversion]
  have hmember : q.memberPointerConversion = p.memberPointerConversion := by
    funext sourceClass source targetClass target
    simp only [memberPointerConversion, h.baseConversion]
  funext e target mode
  simp only [Program.standardConversion, hconversion, hrank, hpointer, hmember]

theorem objectConversion : q.objectConversion = p.objectConversion := by
  funext object cls f
  simp only [Program.objectConversion, h.baseConversion]

theorem referenceRelation : q.referenceRelation = p.referenceRelation := by
  funext target source
  simp only [Program.referenceRelation, h.isBaseOf, h.baseConversion]

theorem viableConversions : q.viableConversions = p.viableConversions := by
  funext convert object args allowUser c
  simp only [Program.viableConversions, h.objectConversion]

theorem resolve : q.resolve = p.resolve := by
  funext convert candidates object args allowUser
  simp only [Program.resolve, h.viableConversions]

theorem userDefinedConversion : q.userDefinedConversion = p.userDefinedConversion := by
  funext convert candidates source
  simp only [Program.userDefinedConversion, h.resolve]

end SameBaseConversions

/-- Programs whose classes derive alike, for one target and with the same enumerations. -/
structure SameHierarchy (p q : Program) : Prop where
  target : q.target = p.target
  enums : q.enums = p.enums
  isClassId : ∀ id, q.isClassId id = p.isClassId id
  edges : ∀ source, edges q source = edges p source

namespace SameHierarchy

variable {p q : Program} (h : p.SameHierarchy q)

include h

theorem reaches (target : Ty) (fuel : Nat) : reaches q target fuel = reaches p target fuel := by
  have hstep : ∀ deeper, reachStep q target deeper = reachStep p target deeper := by
    intro deeper
    funext source
    rw [reachStep_eq, reachStep_eq, h.edges]
  induction fuel with
  | zero => exact hstep _
  | succ fuel ih => simp only [Hierarchy.reaches, hstep, ih]

theorem reachesVirtually (target : Ty) (fuel : Nat) :
    reachesVirtually q target fuel = reachesVirtually p target fuel := by
  have hstep : ∀ deeper, virtualStep q target deeper = virtualStep p target deeper := by
    intro deeper
    funext source seen
    rw [virtualStep_eq, virtualStep_eq, h.edges]
  induction fuel with
  | zero => exact hstep _
  | succ fuel ih => simp only [Hierarchy.reachesVirtually, hstep, ih]

theorem searchPaths (target : Ty) (fuel : Nat) :
    searchPaths q target fuel = searchPaths p target fuel := by
  have hstep : ∀ deeper, searchStep q target deeper = searchStep p target deeper := by
    intro deeper
    funext source at_ isPublic search
    rw [searchStep_eq, searchStep_eq, h.edges]
  induction fuel with
  | zero => exact hstep _
  | succ fuel ih => simp only [Hierarchy.searchPaths, hstep, ih]

theorem collect (fuel : Nat) : collect q fuel = collect p fuel := by
  have hstep : ∀ deeper, collectStep q deeper = collectStep p deeper := by
    intro deeper
    funext source seen
    rw [collectStep_eq, collectStep_eq, h.edges]
  induction fuel with
  | zero => exact hstep _
  | succ fuel ih => simp only [Hierarchy.collect, hstep, ih]

theorem isBaseOf : q.isBaseOf = p.isBaseOf := by
  funext base derived
  simp only [Program.isBaseOf, h.isClassId, h.reaches]

theorem isVirtualBaseOf : q.isVirtualBaseOf = p.isVirtualBaseOf := by
  funext base derived
  simp only [Program.isVirtualBaseOf, h.isBaseOf, h.reachesVirtually]

theorem baseConversion : q.baseConversion = p.baseConversion := by
  funext derived base
  simp only [Program.baseConversion, h.isBaseOf, h.searchPaths]

theorem allBases : q.allBases = p.allBases := by
  funext t
  simp only [Program.allBases, h.collect]

theorem sameBaseConversions : p.SameBaseConversions q :=
  ⟨h.target, h.enums, h.isBaseOf, h.baseConversion⟩

end SameHierarchy
end Program
end TypeTraits
