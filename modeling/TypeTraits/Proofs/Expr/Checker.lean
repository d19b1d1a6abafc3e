import TypeTraits.Expr.Initialization
import TypeTraits.Proofs.Expr.Binding

/-!
# The checker one depth at a time

`checkerBelow n` is what a checker of depth `n` leaves its nested checks to; it allows no step when
`n` is zero. A result of the checker comes from the step that its operation takes, with nested
checks left to the checker one depth below. From a fresh guard the first steps are never denied.
-/

namespace TypeTraits

namespace Check

variable {α : Type} {key : CheckKey} {body : Check α} {g : Guard CheckKey}

theorem run_guarded_of_room (hiterations : g.iterations < g.limits.iterations)
    (hdepth : g.depth < g.limits.depth) (hkey : key ∉ g.visiting) :
    (guarded key body).run g =
      ((body.run (g.entered key)).1, (body.run (g.entered key)).2.leave key) := by
  rw [run_guarded, Guard.enter_of_room hiterations hdepth hkey]

end Check

namespace Program

variable {p : Program}

/-- The checker that the checker of a depth leaves nested checks to. -/
def checkerBelow (p : Program) : Nat → Checker
  | 0 => .closed
  | depth + 1 => p.checkerStep (checkerBelow p depth)

theorem checkerOfDepth_eq (depth : Nat) : p.checkerOfDepth depth = p.checkerBelow (depth + 1) := by
  induction depth with
  | zero => rfl
  | succ depth ih =>
    rw [checkerOfDepth, ih]
    rfl

theorem checker_eq : p.checker = p.checkerBelow (Limits.initializationDepth + 1) :=
  checkerOfDepth_eq _

theorem convert_returns {depth : Nat} {source : Expr} {target : Ty} {mode : InitMode}
    {allowUser : Bool} {c : Conversion}
    (h : ((p.checkerBelow depth).convert source target mode allowUser).Returns c) :
    ∃ deeper, (p.convertStep (p.checkerBelow deeper) source target mode allowUser).Returns c := by
  cases depth with
  | zero => simp [checkerBelow, Checker.closed] at h
  | succ depth => exact ⟨depth, h.guarded⟩

theorem bindReference_eq {depth : Nat} {source : Expr} {target referent : Ty} {isRvalueRef : Bool}
    {mode : InitMode} {allowUser : Bool}
    (htarget : target.referent? = some (referent, isRvalueRef)) :
    (p.checkerBelow (depth + 1)).bindReference source target mode allowUser =
      Check.guarded (.of .bindReference target source)
        (p.bindReferent (p.checkerBelow depth).convert source referent isRvalueRef mode
          allowUser) := by
  simp only [checkerBelow, checkerStep, htarget]
  rfl

theorem bindReference_returns {depth : Nat} {source : Expr} {target : Ty} {mode : InitMode}
    {allowUser : Bool} {c : Conversion}
    (h : ((p.checkerBelow depth).bindReference source target mode allowUser).Returns c) :
    ∃ deeper referent isRvalueRef, target.referent? = some (referent, isRvalueRef) ∧
      (p.bindReferent (p.checkerBelow deeper).convert source referent isRvalueRef mode
        allowUser).Returns c := by
  cases depth with
  | zero => simp [checkerBelow, Checker.closed] at h
  | succ depth =>
    cases htarget : target.referent? with
    | none => simp [checkerBelow, checkerStep, htarget] at h
    | some parts =>
      rw [bindReference_eq htarget] at h
      exact ⟨depth, parts.1, parts.2, rfl, h.guarded⟩

/-- Only an lvalue reference binds to an lvalue of the referenced type, if it is as qualified. -/
theorem covers_of_convert {depth : Nat} {source : Expr} {target referent : Ty}
    {isRvalueRef : Bool} {mode : InitMode} {allowUser : Bool} {c : Conversion}
    (htarget : target.referent? = some (referent, isRvalueRef))
    (hfunction : referent.isFunction = false) (hlvalue : source.isLvalue = true)
    (hsame : source.type.unqualified = referent.unqualified)
    (h : ((p.checkerBelow depth).convert source target mode allowUser).Returns c) :
    isRvalueRef = false ∧ referent.cv.covers source.type.cv = true := by
  obtain ⟨deeper, h⟩ := convert_returns h
  rw [convertStep, if_pos (by simp [Ty.isReference, htarget])] at h
  obtain ⟨deeper, u, _, hu, h⟩ := bindReference_returns h
  cases htarget.symm.trans hu
  rw [bindReferent_of_atOnce (by rw [bindAtOnce?, if_neg (by simp [hfunction]), referenceRelation,
    if_pos hsame.symm, Option.map_some]), Check.returns_ofFormed] at h
  exact covers_of_bindRelated hlvalue h

theorem construct_returns {depth : Nat} {target : Ty} {args : List Expr} {e : Effects}
    (h : ((p.checkerBelow depth).construct target args).Returns e) :
    ∃ deeper, (p.constructStep (p.checkerBelow deeper) target args).Returns e := by
  cases depth with
  | zero => simp [checkerBelow, Checker.closed] at h
  | succ depth => exact ⟨depth, h.guarded⟩

section Room

variable {depth : Nat} {source : Expr} {target referent : Ty} {isRvalueRef : Bool} {mode : InitMode}
  {allowUser : Bool} {g : Guard CheckKey}

/-- With room for two steps, converting to a reference binds it. -/
theorem run_convert_reference (htarget : target.referent? = some (referent, isRvalueRef))
    (hiterations : g.iterations + 1 < g.limits.iterations) (hdepth : g.depth + 1 < g.limits.depth)
    (hconvert : CheckKey.of .convert target source ∉ g.visiting)
    (hbind : CheckKey.of .bindReference target source ∉ g.visiting) :
    ((p.checkerBelow (depth + 2)).convert source target mode allowUser).run g =
      let r := (p.bindReferent (p.checkerBelow depth).convert source referent isRvalueRef mode
        allowUser).run ((g.entered (.of .convert target source)).entered
          (.of .bindReference target source))
      (r.1, (r.2.leave (.of .bindReference target source)).leave (.of .convert target source)) := by
  have hreference : target.isReference = true := by simp [Ty.isReference, htarget]
  have hstep : ((p.checkerBelow (depth + 2)).convert source target mode allowUser).run g =
      (Check.guarded (.of .convert target source)
        (p.convertStep (p.checkerBelow (depth + 1)) source target mode allowUser)).run g := rfl
  have hkey : CheckKey.of .bindReference target source ∉
      (g.entered (.of .convert target source)).visiting := by
    rw [Guard.entered, List.mem_cons, not_or]
    exact ⟨by simp [CheckKey.of], hbind⟩
  rw [hstep, Check.run_guarded_of_room (by omega) (by omega) hconvert, convertStep,
    if_pos hreference, bindReference_eq htarget,
    Check.run_guarded_of_room hiterations hdepth hkey]

/-- With room for two steps, constructing a reference binds it directly. -/
theorem run_construct_reference (htarget : target.referent? = some (referent, isRvalueRef))
    (hiterations : g.iterations + 1 < g.limits.iterations) (hdepth : g.depth + 1 < g.limits.depth)
    (hconstruct : CheckKey.of .construct target source ∉ g.visiting)
    (hbind : CheckKey.of .bindReference target source ∉ g.visiting) :
    ((p.checkerBelow (depth + 2)).construct target [source]).run g =
      let r := (p.bindReferent (p.checkerBelow depth).convert source referent isRvalueRef .direct
        true).run ((g.entered (.of .construct target source)).entered
          (.of .bindReference target source))
      (r.1.map (·.effects),
        (r.2.leave (.of .bindReference target source)).leave (.of .construct target source)) := by
  have hreference : target.isReference = true := by simp [Ty.isReference, htarget]
  have hstep : ((p.checkerBelow (depth + 2)).construct target [source]).run g =
      (Check.guarded (.of .construct target source)
        (p.constructStep (p.checkerBelow (depth + 1)) target [source])).run g := rfl
  have hbody : p.constructStep (p.checkerBelow (depth + 1)) target [source] =
      (do return (← (p.checkerBelow (depth + 1)).bindReference source target .direct
        true).effects) := by
    unfold constructStep
    rw [if_pos hreference]
  have hkey : CheckKey.of .bindReference target source ∉
      (g.entered (.of .construct target source)).visiting := by
    rw [Guard.entered, List.mem_cons, not_or]
    exact ⟨by simp [CheckKey.of], hbind⟩
  rw [hstep, Check.run_guarded_of_room (by omega) (by omega) hconstruct, hbody,
    Check.run_bind_pure, bindReference_eq htarget,
    Check.run_guarded_of_room hiterations hdepth hkey]

/-- The guard of a copy-initialization inside its two first steps. -/
def copyGuard (target : Ty) (source : Expr) : Guard CheckKey :=
  ((Guard.fresh .initialization).entered (.of .convert target source)).entered
    (.of .bindReference target source)

/-- The guard of a direct initialization inside its two first steps. -/
def directGuard (target : Ty) (source : Expr) : Guard CheckKey :=
  ((Guard.fresh .initialization).entered (.of .construct target source)).entered
    (.of .bindReference target source)

theorem run_copyInit_reference (htarget : target.referent? = some (referent, isRvalueRef)) :
    (p.copyInit target source).run (.fresh .initialization) =
      let r := (p.bindReferent (p.checkerBelow 63).convert source referent isRvalueRef .copy
        true).run (copyGuard target source)
      (r.1.map (·.effects),
        (r.2.leave (.of .bindReference target source)).leave (.of .convert target source)) := by
  rw [copyInit, convert, checker_eq, Check.run_bind_pure]
  exact congrArg (fun r => (r.1.map (·.effects), r.2)) (run_convert_reference htarget
    (by decide : (Guard.fresh .initialization : Guard CheckKey).iterations + 1 < _)
    (by decide) List.not_mem_nil List.not_mem_nil)

theorem run_directInit_reference (htarget : target.referent? = some (referent, isRvalueRef)) :
    (p.directInit target [source]).run (.fresh .initialization) =
      let r := (p.bindReferent (p.checkerBelow 63).convert source referent isRvalueRef .direct
        true).run (directGuard target source)
      (r.1.map (·.effects),
        (r.2.leave (.of .bindReference target source)).leave (.of .construct target source)) := by
  rw [directInit, checker_eq]
  exact run_construct_reference htarget
    (by decide : (Guard.fresh .initialization : Guard CheckKey).iterations + 1 < _)
    (by decide) List.not_mem_nil List.not_mem_nil

theorem copyInit_reference (htarget : target.referent? = some (referent, isRvalueRef)) :
    (p.copyInit target source).result =
      ((p.bindReferent (p.checkerBelow 63).convert source referent isRvalueRef .copy true).run
        (copyGuard target source)).1.map (·.effects) :=
  congrArg Prod.fst (run_copyInit_reference htarget)

theorem directInit_reference (htarget : target.referent? = some (referent, isRvalueRef)) :
    (p.directInit target [source]).result =
      ((p.bindReferent (p.checkerBelow 63).convert source referent isRvalueRef .direct true).run
        (directGuard target source)).1.map (·.effects) :=
  congrArg Prod.fst (run_directInit_reference htarget)

/-- A reference that is bound at once is bound the same way in both forms of initialization. -/
theorem directInit_of_atOnce {bound : Formed Conversion}
    (htarget : target.referent? = some (referent, isRvalueRef))
    (h : p.bindAtOnce? source referent isRvalueRef = some bound) :
    (p.directInit target [source]).result = (p.copyInit target source).result := by
  rw [copyInit_reference htarget, directInit_reference htarget, bindReferent_of_atOnce h,
    bindReferent_of_atOnce h]
  rfl

end Room

end Program
end TypeTraits
