import TypeTraits.Proofs.Hierarchy.Reachability
import TypeTraits.Proofs.Trait.Degradation

/-!
# From a derived class to its base

A pointer, a reference and a member pointer convert between a class and its base exactly if the
class converts to the base, the first two towards the base and the last one towards the class. Each
form asks the hierarchy once, and none of them asks for anything else. So a member of a virtual base
passes for a member of the derived class as well, which a compiler forbids.
-/

namespace TypeTraits

namespace BaseConversion

@[simp] theorem isOk_sequence? (c : BaseConversion) : c.sequence?.isOk = c.isReachable := by
  cases c <;> rfl

end BaseConversion

namespace Program

variable {p : Program} {source : Expr} {target : Ty}

/-- Between types that are neither classes nor references only standard conversions count. -/
theorem copyInit_standard (htarget : target.isReference = false) (hclass : target.isRecord = false)
    (hvoid : source.type.isVoid = false) (hsource : source.type.isRecord = false) :
    (p.copyInit target source).result =
      (p.standardConversion source target .copy).map (·.effects) := by
  have hstep : p.convert source target .copy =
      Check.guarded (.of .convert target source)
        (Check.ofFormed (p.standardConversion source target .copy)) := by
    rw [convert, checker_eq]
    change Check.guarded _ (p.convertStep _ source target .copy true) = _
    rw [convertStep, htarget, hvoid, hclass, hsource]
    rfl
  rw [Check.result, copyInit, Check.run_bind_pure, hstep, Check.run_guarded_of_room (by decide)
    (by decide) List.not_mem_nil, Check.run_ofFormed]

theorem standardConversion_pointer {derived base : RecordId} (hne : base ≠ derived) :
    p.standardConversion (.xvalue (.pointer (.record derived))) (.pointer (.record base)) .copy =
      (p.baseConversion (.record derived) (.record base)).sequence? := by
  have hdiffers : Ty.record derived ≠ .record base := fun h => hne (Ty.record.inj h).symm
  have hqualification : (Ty.record derived).qualificationConvertible (.record base) = false := by
    simp [Ty.qualificationConvertible, Ty.splitCv, hne.symm]
  have hnoexcept : (Ty.record derived).dropsNoexcept (.record base) = false := rfl
  have hpointer : p.pointerConversion (.record derived) (.record base) =
      (p.baseConversion (.record derived) (.record base)).sequence? := by
    rw [pointerConversion, hqualification, hnoexcept]
    rfl
  rw [← hpointer]
  exact if_neg (by simpa [Expr.xvalue, Ty.asValue, Ty.unqualified, Ty.splitCv] using hne.symm)

theorem standardConversion_memberPointer {derived base : RecordId} (hne : base ≠ derived) (t : Ty) :
    p.standardConversion (.xvalue (.memberPointer (.record base) t))
      (.memberPointer (.record derived) t) .copy =
        (p.baseConversion (.record derived) (.record base)).sequence? := by
  have hpointer : p.memberPointerConversion (.record base) t (.record derived) t =
      (p.baseConversion (.record derived) (.record base)).sequence? := by
    rw [memberPointerConversion, if_neg (by simpa using hne), if_neg (by simp)]
  rw [← hpointer]
  exact if_neg (by simpa [Expr.xvalue, Ty.asValue, Ty.unqualified, Ty.splitCv] using hne)

/-- A reference binds to an object of a derived class if the class converts to the referenced
one. -/
theorem copyInit_derived {derived base : RecordId} {isRvalueRef : Bool}
    (htarget : target.referent? = some (.record base, isRvalueRef))
    (hsource : source.type = .record derived)
    (hcategory : (if isRvalueRef then source.isRvalue else source.isLvalue) = true)
    (hne : base ≠ derived) (hbase : p.isBaseOf (.record base) (.record derived) = true) :
    (p.copyInit target source).result.isOk =
      (p.baseConversion (.record derived) (.record base)).isReachable := by
  have hrelation : p.referenceRelation (Ty.record base).unqualified source.type.unqualified =
      some (p.baseConversion (.record derived) (.record base)) := by
    rw [hsource]
    change p.referenceRelation (.record base) (.record derived) = _
    rw [referenceRelation, if_neg (by simpa using hne), if_pos (by rw [hbase]; rfl)]
  have hbound : p.bindAtOnce? source (.record base) isRvalueRef =
      some (bindRelated source (.record base) isRvalueRef
        (p.baseConversion (.record derived) (.record base))) := by
    rw [bindAtOnce?, if_neg (by simp [Ty.isFunction]), hrelation, Option.map_some]
  rw [copyInit_reference htarget, bindReferent_of_atOnce hbound, Check.run_ofFormed,
    ← BaseConversion.isOk_sequence?]
  have hcovers : (Ty.record base).cv.covers source.type.cv = true := by
    rw [hsource]
    rfl
  cases isRvalueRef with
  | false =>
    simp only [Bool.false_eq_true, if_false] at hcategory
    simp only [bindRelated, hcategory, hcovers]
    cases (p.baseConversion (.record derived) (.record base)).sequence? <;> rfl
  | true =>
    simp only [if_true] at hcategory
    simp only [bindRelated, hcategory, hcovers]
    cases (p.baseConversion (.record derived) (.record base)).sequence? <;> rfl

end Program

namespace Solver

open Hierarchy

variable {s : Solver} {derived base : RecordId}

/-- Both ways to ask for a conversion test the same initialization. -/
theorem isConvertible_eq_converts (t u : Ty) : s.isConvertible t u = s.converts t u := by
  unfold isConvertible intrinsic ask
  rw [introspection_isConvertible]
  split
  · split <;> rfl
  · rfl

/-- A pointer to a class converts to a pointer to a base. -/
theorem isConvertible_pointer (hne : base ≠ derived) :
    s.isConvertible (.pointer (.record derived)) (.pointer (.record base)) =
      (s.program.baseConversion (.record derived) (.record base)).isReachable := by
  rw [isConvertible_eq_converts]
  change (s.program.copyInit (.pointer (.record base))
    (.xvalue (.pointer (.record derived)))).result.isOk = _
  rw [Program.copyInit_standard rfl rfl rfl rfl, Program.standardConversion_pointer hne,
    ← BaseConversion.isOk_sequence?]
  cases (s.program.baseConversion (.record derived) (.record base)).sequence? <;> rfl

/-- A pointer to a member of a base converts to a pointer to a member of the class. -/
theorem isConvertible_memberPointer (hne : base ≠ derived) (t : Ty) :
    s.isConvertible (.memberPointer (.record base) t) (.memberPointer (.record derived) t) =
      (s.program.baseConversion (.record derived) (.record base)).isReachable := by
  rw [isConvertible_eq_converts]
  change (s.program.copyInit (.memberPointer (.record derived) t)
    (.xvalue (.memberPointer (.record base) t))).result.isOk = _
  rw [Program.copyInit_standard rfl rfl rfl rfl, Program.standardConversion_memberPointer hne,
    ← BaseConversion.isOk_sequence?]
  cases (s.program.baseConversion (.record derived) (.record base)).sequence? <;> rfl

theorem isConvertible_lvalueRef (hne : base ≠ derived)
    (hbase : s.program.isBaseOf (.record base) (.record derived) = true) :
    s.isConvertible (.lvalueRef (.record derived)) (.lvalueRef (.record base)) =
      (s.program.baseConversion (.record derived) (.record base)).isReachable := by
  rw [isConvertible_eq_converts]
  exact Program.copyInit_derived rfl rfl rfl hne hbase

theorem isConvertible_rvalueRef (hne : base ≠ derived)
    (hbase : s.program.isBaseOf (.record base) (.record derived) = true) :
    s.isConvertible (.rvalueRef (.record derived)) (.rvalueRef (.record base)) =
      (s.program.baseConversion (.record derived) (.record base)).isReachable := by
  rw [isConvertible_eq_converts]
  exact Program.copyInit_derived rfl rfl rfl hne hbase

end Solver

namespace Development

open Hierarchy

variable {d : Development} {derived base : RecordId} {s : Solver}

/-- Conversions between a class and one of its bases. Within the limits of the walks pointers and
references of both kinds convert to the base, and every member pointer to the class, exactly if the
class converts to the base. That a member pointer converts if moreover the base is not virtual fails
just for a base that the class converts to and that a path with a virtual edge leads to. -/
theorem derived_converts_alike (h : d.Reachable)
    (hlimits : WithinLimits d.program (.record derived)) (hne : base ≠ derived) {path : List Edge}
    (hpath : Leads d.program (.record derived) path (.record base)) (hs : s.program = d.program) :
    let conversion := d.program.baseConversion (.record derived) (.record base)
    s.isConvertible (.pointer (.record derived)) (.pointer (.record base)) =
      conversion.isReachable ∧
    s.isConvertible (.lvalueRef (.record derived)) (.lvalueRef (.record base)) =
      conversion.isReachable ∧
    s.isConvertible (.rvalueRef (.record derived)) (.rvalueRef (.record base)) =
      conversion.isReachable ∧
    ∀ t, s.isConvertible (.memberPointer (.record base) t) (.memberPointer (.record derived) t) =
        conversion.isReachable ∧
      (s.isConvertible (.memberPointer (.record base) t) (.memberPointer (.record derived) t) =
        (conversion.isReachable && !d.program.isVirtualBaseOf (.record base) (.record derived)) ↔
        ¬(conversion.isReachable = true ∧
          LeadsVirtually d.program (.record derived) (.record base))) := by
  have hbase : s.program.isBaseOf (.record base) (.record derived) = true := by
    rw [hs]
    exact (h.valid.isBaseOf_iff hlimits hne).mpr ⟨path, hpath⟩
  have hvirtual := h.valid.isVirtualBaseOf_iff_leadsVirtually hlimits hne
  rw [← hs] at hvirtual ⊢
  refine ⟨Solver.isConvertible_pointer hne, Solver.isConvertible_lvalueRef hne hbase,
    Solver.isConvertible_rvalueRef hne hbase, ?_⟩
  intro t
  refine ⟨Solver.isConvertible_memberPointer hne t, ?_⟩
  rw [Solver.isConvertible_memberPointer hne t, ← hvirtual]
  cases (s.program.baseConversion (.record derived) (.record base)).isReachable <;> simp

/-- A class with a virtual base. -/
def virtualBaseOnly : Development :=
  run .lp64
    [.start "Base" .struct,
      .finish ⟨1⟩,
      .start "Derived" .struct,
      .write ⟨2⟩ (.virtualBase (.record ⟨1⟩)),
      .finish ⟨2⟩]

theorem reachable_virtualBaseOnly : virtualBaseOnly.Reachable := by
  refine (Reachable.fresh .lp64).performAll ?_
  intro a ha
  simp only [List.mem_cons, List.not_mem_nil, or_false] at ha
  rcases ha with rfl | rfl | rfl | rfl | rfl
  all_goals first | trivial | exact RecordStep.isWritten_of_types rfl (by decide)

theorem withinLimits_virtualBaseOnly : WithinLimits virtualBaseOnly.program (.record ⟨2⟩) :=
  reachable_virtualBaseOnly.valid.withinLimits_of_rank_le (by decide +kernel) (by decide +kernel)

/-- A pointer to a member of a virtual base converts to one to a member of the derived class. -/
theorem derived_converts_alike_virtualBaseOnly : virtualBaseOnly.Reachable ∧
    WithinLimits virtualBaseOnly.program (.record ⟨2⟩) ∧
    Leads virtualBaseOnly.program (.record ⟨2⟩) [⟨0, ⟨.record ⟨1⟩, .pub, true⟩⟩] (.record ⟨1⟩) ∧
    virtualBaseOnly.program.isVirtualBaseOf (.record ⟨1⟩) (.record ⟨2⟩) = true ∧
    Solver.isConvertible { program := virtualBaseOnly.program }
      (.memberPointer (.record ⟨1⟩) (.builtin .int))
      (.memberPointer (.record ⟨2⟩) (.builtin .int)) = true := by
  have hpath : Leads virtualBaseOnly.program (.record ⟨2⟩) [⟨0, ⟨.record ⟨1⟩, .pub, true⟩⟩]
      (.record ⟨1⟩) := .cons (by decide +kernel) .nil
  have hreachable : (virtualBaseOnly.program.baseConversion (.record ⟨2⟩)
      (.record ⟨1⟩)).isReachable = true := by decide +kernel
  have hvirtual : virtualBaseOnly.program.isVirtualBaseOf (.record ⟨1⟩) (.record ⟨2⟩) = true := by
    decide +kernel
  have hs : Solver.program { program := virtualBaseOnly.program } = virtualBaseOnly.program := by
    dsimp only
  have hconverts := (derived_converts_alike reachable_virtualBaseOnly withinLimits_virtualBaseOnly
    (by decide) hpath hs).2.2.2 (.builtin .int)
  rw [hreachable] at hconverts
  exact ⟨reachable_virtualBaseOnly, withinLimits_virtualBaseOnly, hpath, hvirtual, hconverts.1⟩

end Development

end TypeTraits
