import TypeTraits.Proofs.Expr.Surroundings

/-!
# The forms of initialization

A reference is copy-initialized, or initialized directly, or bound once more after a
copy-initialization has failed. The first two differ in explicit conversion functions, and all three
in what their guards are visiting and have counted. Without explicit conversion functions, and in
few steps, they come to the same.
-/

namespace TypeTraits

namespace Surroundings

/-- A copy-initialization, next to a direct initialization. -/
def ofCopy (t : Ty) (e : Expr) : Surroundings t e where
  first := (Program.copyGuard t e).visiting
  second := (Program.directGuard t e).visiting
  lead := 0
  mem_iff key hconstruct hconvert := by
    have hne : key ≠ .of .construct t e := fun heq => hconstruct (heq ▸ rfl)
    simp [Program.copyGuard, Program.directGuard, Guard.entered, Guard.fresh, hconvert, hne]
  mem_first _ := by simp [Program.copyGuard, Guard.entered]
  binds := List.mem_cons_self
  lead_le := by decide

/-- A binding that is tried once more, next to a direct initialization. -/
def ofAgain (t : Ty) (e : Expr) : Surroundings t e where
  first := [.of .bindReference t e]
  second := (Program.directGuard t e).visiting
  lead := Limits.initializationDepth
  mem_iff key hconstruct _ := by
    have hne : key ≠ .of .construct t e := fun heq => hconstruct (heq ▸ rfl)
    simp [Program.directGuard, Guard.entered, Guard.fresh, hne]
  mem_first h := by simp [Program.directGuard, Guard.entered, Guard.fresh, CheckKey.of] at h
  binds := List.mem_cons_self
  lead_le := by decide

variable {t : Ty} {e : Expr}

theorem alongside_ofCopy :
    (ofCopy t e).Alongside 63 [] (Program.copyGuard t e) (Program.directGuard t e) where
  limits₁ := rfl
  limits₂ := rfl
  visiting₁ := rfl
  visiting₂ := rfl
  depth_le := Nat.le_refl _
  depth_le_iterations := Nat.le_refl _
  iterations_le := Nat.le_refl _
  fuel_gt := Nat.lt_succ_self 64

theorem alongside_ofAgain {g : Guard CheckKey}
    (hkeeps : (Guard.fresh .initialization : Guard CheckKey).Keeps g)
    (hfew : g.iterations ≤ Limits.initializationDepth) :
    (ofAgain t e).Alongside 63 [] (g.entered (.of .bindReference t e))
      (Program.directGuard t e) where
  limits₁ := hkeeps.limits
  limits₂ := rfl
  visiting₁ := congrArg _ hkeeps.visiting
  visiting₂ := rfl
  depth_le := Nat.le_succ_of_le (Nat.le_of_eq (congrArg (· + 1) hkeeps.depth))
  depth_le_iterations := Nat.le_refl _
  iterations_le := by
    simp only [Guard.entered, ofAgain, Program.directGuard, Guard.fresh]
    omega
  fuel_gt := Nat.lt_succ_self 64

end Surroundings

/-- The steps that a check takes as one question of its own. -/
def Check.steps {α : Type} (c : Check α) : Nat := (c.run (.fresh .initialization)).2.iterations

theorem Record.candidates_mode {r : Record} {object : Option Ty}
    (h : (r.conversions.any fun f => f.explicit && !f.hidden) = false) :
    r.candidates .conversion .copy object = r.candidates .conversion .direct object := by
  have hall : ∀ x ∈ r.conversions.zipIdx, ¬(x.1.explicit && !x.1.hidden) = true :=
    fun x hx => List.any_eq_false.mp h x.1 (List.fst_mem_of_mem_zipIdx hx)
  unfold candidates functions
  generalize r.conversions.zipIdx = l at hall
  induction l with
  | nil => rfl
  | cons x l ih =>
    have hx := hall x List.mem_cons_self
    rw [List.filterMap_cons, List.filterMap_cons,
      ih fun y hy => hall y (List.mem_cons_of_mem x hy)]
    cases hexplicit : x.1.explicit <;> cases hhidden : x.1.hidden <;> simp_all

namespace Program

open Surroundings

variable {p : Program} {t referent : Ty} {e : Expr} {isRvalueRef : Bool}

/-- Whether the class of an expression has an explicit conversion function, or one of its bases. -/
def hasExplicitConversion (p : Program) (e : Expr) : Bool :=
  (p.conversionOwners e.type).any fun (_, r) => r.conversions.any fun f => f.explicit && !f.hidden

theorem bindThroughFunction_mode {convert : ConvertArgument} {cv : Cv} {wantLvalue : Bool}
    (h : p.hasExplicitConversion e = false) :
    p.bindThroughFunction convert e referent cv wantLvalue isRvalueRef .copy =
      p.bindThroughFunction convert e referent cv wantLvalue isRvalueRef .direct := by
  have hvisible : visibleConversions .copy (p.conversionOwners e.type) =
      visibleConversions .direct (p.conversionOwners e.type) := by
    unfold visibleConversions
    have hall : ((p.conversionOwners e.type).flatMap fun (cls, r) =>
          r.candidates .conversion .copy (some cls)) =
        (p.conversionOwners e.type).flatMap fun (cls, r) =>
          r.candidates .conversion .direct (some cls) := by
      rw [List.flatMap_def, List.flatMap_def]
      refine congrArg _ (List.map_congr_left fun x hx => Record.candidates_mode ?_)
      exact Bool.eq_false_iff.mpr (List.any_eq_false.mp h x hx)
    rw [hall]
  unfold bindThroughFunction conversionCandidates
  rw [hvisible]

/-- Without explicit conversion functions the two forms bind a reference the same way. -/
theorem bindReferent_mode {convert : ConvertArgument} (h : p.hasExplicitConversion e = false) :
    p.bindReferent convert e referent isRvalueRef .copy true =
      p.bindReferent convert e referent isRvalueRef .direct true := by
  cases hbound : p.bindAtOnce? e referent isRvalueRef with
  | some bound => rw [bindReferent_of_atOnce hbound, bindReferent_of_atOnce hbound]
  | none =>
    rw [bindReferent_of_unrelated hbound, bindReferent_of_unrelated hbound]
    unfold bindUnrelated bindThroughFunctionOr
    simp only [bindThroughFunction_mode h]

/-- Without explicit conversion functions a short initialization comes to the same in both forms. -/
theorem copyInit_eq_directInit (htarget : t.referent? = some (referent, isRvalueRef))
    (hexplicit : p.hasExplicitConversion e = false)
    (hdirect : (p.directInit t [e]).steps ≤ Limits.initializationDepth) :
    (p.copyInit t e).result = (p.directInit t [e]).result := by
  have hconvert := (alike_checkerBelow (s := ofCopy t e) (p := p) htarget (Nat.le_refl 63)).1
  rw [Check.steps, run_directInit_reference htarget] at hdirect
  rw [copyInit_reference htarget, directInit_reference htarget, bindReferent_mode hexplicit]
  exact congrArg _ (hconvert.bindReferent.agrees alongside_ofCopy hdirect).1

/-- The binding that a cast tries once more when a copy-initialization has failed, under the guard
that the failure left. -/
def bindAgain (p : Program) (target : Ty) (source : Expr) : Formed Effects :=
  ((do return (← p.checker.bindReference source target .direct true).effects : Check Effects).run
    ((p.copyInit target source).run (.fresh .initialization)).2).1

theorem keeps_copyInit (htarget : t.referent? = some (referent, isRvalueRef))
    (g : Guard CheckKey) : g.Keeps ((p.copyInit t e).run g).2 := by
  have hconvert := (alike_checkerBelow (s := ofCopy t e) (p := p) htarget (Nat.le_refl 65)).1
  rw [copyInit, Check.run_bind_pure, convert, checker_eq]
  exact (hconvert e t .copy true).keeps g

/-- After a short copy-initialization, binding comes to what a short direct initialization does. -/
theorem bindAgain_eq_directInit (htarget : t.referent? = some (referent, isRvalueRef))
    (hcopy : (p.copyInit t e).steps ≤ Limits.initializationDepth)
    (hdirect : (p.directInit t [e]).steps ≤ Limits.initializationDepth) :
    p.bindAgain t e = (p.directInit t [e]).result := by
  have hkeeps := keeps_copyInit (p := p) (e := e) htarget (.fresh .initialization)
  unfold Check.steps at hcopy
  unfold bindAgain
  generalize ((p.copyInit t e).run (.fresh .initialization)).2 = g at hkeeps hcopy
  have hiterations : g.iterations < g.limits.iterations := by
    rw [hkeeps.limits]
    exact Nat.lt_of_le_of_lt hcopy (by decide)
  have hdepth : g.depth < g.limits.depth := by
    rw [hkeeps.limits, hkeeps.depth]
    decide
  have hkey : CheckKey.of .bindReference t e ∉ g.visiting := by
    rw [hkeeps.visiting]
    exact List.not_mem_nil
  have hconvert := (alike_checkerBelow (s := ofAgain t e) (p := p) htarget (Nat.le_succ 63)).1
  rw [Check.steps, run_directInit_reference htarget] at hdirect
  rw [Check.run_bind_pure, checker_eq, bindReference_eq htarget,
    Check.run_guarded_of_room hiterations hdepth hkey, directInit_reference htarget]
  exact congrArg (Except.map Conversion.effects)
    (hconvert.bindReferent.agrees (alongside_ofAgain hkeeps hcopy) hdirect).1

end Program
end TypeTraits
