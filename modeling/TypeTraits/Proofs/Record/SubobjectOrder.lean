import TypeTraits.Proofs.Expr.Reordered
import TypeTraits.Proofs.Expr.RootClass
import TypeTraits.Proofs.Record.Facts
import TypeTraits.Proofs.Record.ImplicitMembers
import TypeTraits.Proofs.Record.Subobjects

/-!
# Special members from subobjects in another order

A special member goes through the subobjects one by one. Each of them makes the member impossible or
adds its effects, whatever came before it, so the outcome does not depend on their order. The steps
do: an impossible member is given up at the first subobject that makes it so.
-/

namespace TypeTraits

theorem Check.Takes.of_pure {α : Type} {a : α} {g : Guard CheckKey} {n : Nat} {r : Formed α}
    (h : (Pure.pure a : Check α).Takes g n r) : r = .ok a :=
  (congrArg Prod.fst h.run_uncounted).symm

theorem Check.IsCompositional.mapM {rel : ∀ α : Type, Check α → Check α → Prop}
    (hrel : IsCompositional rel) {α β : Type} {f₁ f₂ : α → Check β} (hf : ∀ a, rel _ (f₁ a) (f₂ a))
    (l : List α) : rel _ (l.mapM f₁) (l.mapM f₂) := by
  induction l with
  | nil => exact hrel.pure []
  | cons a l ih =>
    rw [List.mapM_cons, List.mapM_cons]
    exact hrel.bind (hf a) fun _ => hrel.bind ih fun _ => hrel.pure _

namespace Outcome

/-- The outcome after one more subobject, for which alone the member comes out as `next`. -/
def join (o next : Outcome) : Outcome := o.absorb ⟨next.noexcept, next.trivial⟩

theorem join_right_comm (o a b : Outcome) : (o.join a).join b = (o.join b).join a := by
  simp only [join, absorb, Bool.and_right_comm]

/-- What a step says of a subobject does not depend on what came before it. -/
def Judges (step : Outcome → MemberObject → Check (Option Outcome)) : Prop :=
  ∀ o m, step o m = do return (← step { trivial := true } m).map o.join

section Through

variable {step step' : Outcome → MemberObject → Check (Option Outcome)}
  {objects objects' : List MemberObject} {o : Outcome}

theorem steady_through (hsteady : ∀ o m, (step o m).Steady) (objects : List MemberObject)
    (o : Outcome) : (through step o objects).Steady := by
  induction objects generalizing o with
  | nil => exact .pure o
  | cons m rest ih =>
    apply (hsteady o m).bind
    intro next
    cases next with
    | none => exact .pure _
    | some next => exact ih next

/-- Either some subobject makes the member impossible, or what is said of all of them joins. -/
theorem takes_through (hjudges : Judges step) (hsteady : ∀ o m, (step o m).Steady)
    (htotal : ∀ o m, (step o m).Total) {g : Guard CheckKey} {n : Nat} {r : Formed Outcome}
    (h : (through step o objects).Takes g n r) :
    (r = .ok impossible ∧
        ∃ m ∈ objects, ∃ k, (step { trivial := true } m).Takes g k (.ok none)) ∨
      ∃ nexts, r = .ok (nexts.foldl join o) ∧ List.Forall₂
        (fun m next => ∃ k, (step { trivial := true } m).Takes g k (.ok (some next)))
        objects nexts := by
  induction objects generalizing o n r with
  | nil =>
    exact Or.inr ⟨[], h.of_pure, .nil⟩
  | cons m rest ih =>
    rw [through, hjudges o m, bind_assoc] at h
    simp only [pure_bind] at h
    have hcases := h.of_bind (hsteady _ m) fun next => by
      cases next with
      | none => exact .pure _
      | some next => exact steady_through hsteady rest _
    rcases hcases with ⟨k, e, hk, rfl⟩ | ⟨k, next, l, hk, hl⟩
    · obtain ⟨a, ha⟩ := htotal { trivial := true } m g.uncounted
      rw [hk.run_uncounted] at ha
      cases ha
    · cases next with
      | none => exact Or.inl ⟨hl.of_pure, m, List.mem_cons_self, k, hk⟩
      | some next =>
        rcases ih hl with ⟨rfl, m', hm', himpossible⟩ | ⟨nexts, rfl, hall⟩
        · exact Or.inl ⟨rfl, m', List.mem_cons_of_mem _ hm', himpossible⟩
        · exact Or.inr ⟨next :: nexts, rfl, .cons ⟨k, hk⟩ hall⟩

/-- Going through the subobjects in another order comes to the same. -/
theorem agree_through (hjudges : Judges step) (hjudges' : Judges step')
    (hsame : ∀ o m, (step o m).Matches (step' o m)) (htotal : ∀ o m, (step o m).Total)
    (htotal' : ∀ o m, (step' o m).Total) (hperm : objects.Perm objects') (o : Outcome) :
    (through step o objects).Agree (through step' o objects') where
  left := steady_through (fun o m => (hsame o m).left) objects o
  right := steady_through (fun o m => (hsame o m).right) objects' o
  agree {g m n r r'} hr hr' := by
    have hunique : ∀ {m k k' next next'},
        (step { trivial := true } m).Takes g k (.ok next) →
        (step { trivial := true } m).Takes g k' (.ok next') → next = next' :=
      fun hk hk' => Except.ok.inj (hk.unique hk').2
    have hback : ∀ {m k next}, (step' { trivial := true } m).Takes g k (.ok next) →
        (step { trivial := true } m).Takes g k (.ok next) :=
      fun hk => ((hsame _ _).takes _ _ _).mpr hk
    rcases takes_through hjudges (fun o m => (hsame o m).left) htotal hr with
      ⟨rfl, m, hm, k, hk⟩ | ⟨nexts, rfl, hall⟩ <;>
    rcases takes_through hjudges' (fun o m => (hsame o m).right) htotal' hr' with
      ⟨rfl, m', hm', k', hk'⟩ | ⟨nexts', rfl, hall'⟩
    · rfl
    · obtain ⟨i, hi, rfl⟩ := List.getElem_of_mem (hperm.mem_iff.mp hm)
      obtain ⟨_, hk'⟩ := hall'.get hi (hall'.length_eq ▸ hi)
      cases hunique hk (hback hk')
    · obtain ⟨i, hi, rfl⟩ := List.getElem_of_mem (hperm.mem_iff.mpr hm')
      obtain ⟨_, hk⟩ := hall.get hi (hall.length_eq ▸ hi)
      cases hunique hk (hback hk')
    · -- What is said of the subobjects in the one order is said of them in the other.
      obtain ⟨said, hsaid, hnexts⟩ := List.perm_comp_forall₂ hperm hall'
      have hforth : List.Forall₂
          (fun m next => ∃ k, (step { trivial := true } m).Takes g k (.ok (some next)))
          objects said := hsaid.imp fun _ _ ⟨k, hk⟩ => ⟨k, hback hk⟩
      obtain rfl : nexts = said := Relator.RightUnique.forall₂
        (fun _ _ _ ⟨_, hk⟩ ⟨_, hk'⟩ => Option.some.inj (hunique hk hk')) hall hforth
      rw [hnexts.foldl_eq' fun a _ b _ o => join_right_comm o a b]

end Through
end Outcome

namespace Synthesis

open Outcome

/-- The checks that define a member never fail. -/
theorem inherits_total (s : Synthesis) : s.IsInherited fun _ c => c.Total where
  pure := Check.total_pure
  bind := Check.Total.bind
  directInit _ _ := Check.total_attempt _
  assign _ _ := Check.total_attempt _

/-! ### What the steps say of a subobject -/

section Steps

variable (s : Synthesis)

/-- The default constructor of a union at one member, next to one with an initializer or to none. -/
def unionStep (initialized : Bool) (o : Outcome) (m : MemberObject) : Check (Option Outcome) := do
  if m.reference.isSome then return none
  let effects ← Check.attempt (s.program.directInit m.type [])
  if effects.any (·.trivial) then return some o
  if initialized then return some { o with trivial := false }
  return none

theorem unionDefaultConstructor_eq : s.unionDefaultConstructor =
    through (s.unionStep (s.objects.any (·.hasInitializer)))
      { trivial := !s.objects.any (·.hasInitializer) } s.objects := rfl

theorem total_unionStep (initialized : Bool) (o : Outcome) (m : MemberObject) :
    (s.unionStep initialized o m).Total := by
  unfold unionStep
  split
  · exact Check.total_pure _
  · apply (Check.total_attempt _).bind
    intro effects
    repeat' split
    all_goals exact Check.total_pure _

theorem judges_unionStep (initialized : Bool) : Judges (s.unionStep initialized) := by
  intro o m
  unfold unionStep
  split
  · rfl
  · rw [bind_assoc]
    apply bind_congr
    intro effects
    repeat' split
    all_goals simp [join, absorb]

theorem judges_defaultStep : Judges s.defaultStep := by
  intro o m
  unfold defaultStep
  split
  · simp [join, absorb]
  split
  · rfl
  split
  · rfl
  · rw [bind_assoc]
    apply bind_congr
    intro effects
    cases effects with
    | none => rfl
    | some e =>
      dsimp only
      split <;> simp [join, absorb]

theorem judges_constructStep (copies : Bool) (arg : Ty → Expr) :
    Judges (s.constructStep copies arg) := by
  intro o m
  unfold constructStep
  cases m.reference with
  | some isRvalue =>
    dsimp only
    split <;> simp [join, absorb]
  | none =>
    dsimp only
    rw [bind_assoc]
    apply bind_congr
    intro effects
    cases effects with
    | none => rfl
    | some e =>
      dsimp only
      repeat' split
      all_goals simp [join, absorb]

theorem judges_assignStep (arg : Ty → Expr) : Judges (s.assignStep arg) := by
  intro o m
  unfold assignStep
  split
  · rfl
  split
  · rfl
  · rw [bind_assoc]
    apply bind_congr
    intro effects
    cases effects with
    | none => rfl
    | some e =>
      dsimp only
      repeat' split
      all_goals simp [join, absorb]

theorem judges_destroyStep : Judges s.destroyStep := by
  intro o m
  unfold destroyStep
  split
  · simp [join, absorb]
  · cases s.program.destroy m.type with
    | error _ => rfl
    | ok e =>
      dsimp only
      split <;> simp [join, absorb]

end Steps

/-- Members that are defined alike from the same subobjects, in one order or another. -/
structure Alike (s t : Synthesis) : Prop where
  program : s.program.ConvertsAlike t.program
  objects : s.objects.Perm t.objects
  isUnion : t.isUnion = s.isUnion
  dynamic : t.dynamic = s.dynamic

namespace Alike

open Check.Matches

variable {s t : Synthesis} (h : s.Alike t)

include h

theorem isDestructible : t.isDestructible = s.isDestructible := by
  funext u
  rw [Synthesis.isDestructible, Synthesis.isDestructible, h.program.reordered.destroy]

theorem hasUserDefaultConstructor : t.hasUserDefaultConstructor = s.hasUserDefaultConstructor := by
  funext u
  rw [Synthesis.hasUserDefaultConstructor, Synthesis.hasUserDefaultConstructor]
  rcases h.program.reordered.completeRecord?_cases u with ⟨hp, hq⟩ | ⟨r, r', hp, hq, hsame⟩
  · rw [hp, hq]
  · rw [hp, hq, Option.any_some, Option.any_some, hsame.constructors]

theorem matches_defaultStep (o : Outcome) (m : MemberObject) :
    (s.defaultStep o m).Matches (t.defaultStep o m) := by
  unfold defaultStep
  rw [h.hasUserDefaultConstructor, h.isDestructible]
  split
  · exact isCompositional.pure _
  split
  · exact isCompositional.pure _
  split
  · exact isCompositional.pure _
  · refine .bind (h.program.matches_directInit _ _).attempt fun effects => ?_
    cases effects <;> exact isCompositional.pure _

theorem matches_unionStep (initialized : Bool) (o : Outcome) (m : MemberObject) :
    (s.unionStep initialized o m).Matches (t.unionStep initialized o m) := by
  unfold unionStep
  split
  · exact isCompositional.pure _
  · refine .bind (h.program.matches_directInit _ _).attempt fun effects => ?_
    repeat' split
    all_goals exact isCompositional.pure _

theorem matches_constructStep (copies : Bool) (arg : Ty → Expr) (o : Outcome) (m : MemberObject) :
    (s.constructStep copies arg o m).Matches (t.constructStep copies arg o m) := by
  unfold constructStep
  rw [h.isUnion, h.isDestructible]
  cases m.reference with
  | some isRvalue => exact isCompositional.pure _
  | none =>
    refine .bind (h.program.matches_directInit _ _).attempt fun effects => ?_
    cases effects with
    | none => exact isCompositional.pure _
    | some e =>
      dsimp only
      split <;> exact isCompositional.pure _

theorem matches_assignStep (arg : Ty → Expr) (o : Outcome) (m : MemberObject) :
    (s.assignStep arg o m).Matches (t.assignStep arg o m) := by
  unfold assignStep
  rw [h.isUnion]
  split
  · exact isCompositional.pure _
  split
  · exact isCompositional.pure _
  · refine .bind (h.program.matches_assign _ _).attempt fun effects => ?_
    cases effects with
    | none => exact isCompositional.pure _
    | some e =>
      dsimp only
      split <;> exact isCompositional.pure _

theorem matches_destroyStep (o : Outcome) (m : MemberObject) :
    (s.destroyStep o m).Matches (t.destroyStep o m) := by
  unfold destroyStep
  rw [h.isUnion, h.program.reordered.destroy]
  split
  · exact isCompositional.pure _
  · cases s.program.destroy m.type <;> exact isCompositional.pure _

/-! ### The special members -/

theorem agree_unionDefaultConstructor :
    s.unionDefaultConstructor.Agree t.unionDefaultConstructor := by
  rw [unionDefaultConstructor_eq, unionDefaultConstructor_eq, ← h.objects.any_eq]
  exact agree_through (s.judges_unionStep _) (t.judges_unionStep _) (h.matches_unionStep _)
    (s.total_unionStep _) (t.total_unionStep _) h.objects _

theorem agree_defaultConstructor : s.defaultConstructor.Agree t.defaultConstructor := by
  unfold defaultConstructor
  rw [h.isUnion, h.dynamic]
  split
  · exact h.agree_unionDefaultConstructor
  · exact agree_through s.judges_defaultStep t.judges_defaultStep h.matches_defaultStep
      s.inherits_total.defaultStep t.inherits_total.defaultStep h.objects _

theorem agree_constructFrom (copies : Bool) (arg : Ty → Expr) :
    (s.constructFrom copies arg).Agree (t.constructFrom copies arg) := by
  unfold constructFrom
  rw [h.dynamic]
  exact agree_through (s.judges_constructStep copies arg) (t.judges_constructStep copies arg)
    (h.matches_constructStep copies arg) (s.inherits_total.constructStep copies arg)
    (t.inherits_total.constructStep copies arg) h.objects _

theorem agree_assignFrom (arg : Ty → Expr) : (s.assignFrom arg).Agree (t.assignFrom arg) := by
  unfold assignFrom
  rw [h.dynamic]
  exact agree_through (s.judges_assignStep arg) (t.judges_assignStep arg)
    (h.matches_assignStep arg) (s.inherits_total.assignStep arg) (t.inherits_total.assignStep arg)
    h.objects _

theorem agree_destructor : s.destructor.Agree t.destructor :=
  agree_through s.judges_destroyStep t.judges_destroyStep h.matches_destroyStep
    s.inherits_total.destroyStep t.inherits_total.destroyStep h.objects _

theorem copiesConst : t.copiesConst = s.copiesConst := by
  rw [Synthesis.copiesConst, Synthesis.copiesConst, ← h.objects.all_eq]
  refine congrArg s.objects.all (funext fun m => congrArg (m.reference.isSome || ·) ?_)
  rcases h.program.reordered.completeRecord?_cases m.type with ⟨hp, hq⟩ | ⟨r, r', hp, hq, hsame⟩
  · rw [hp, hq]
  · rw [hp, hq]
    dsimp only
    rw [hsame.constructors]

theorem assignsConst : t.assignsConst = s.assignsConst := by
  rw [Synthesis.assignsConst, Synthesis.assignsConst, ← h.objects.all_eq]
  refine congrArg s.objects.all (funext fun m => congrArg (m.reference.isSome || ·) ?_)
  rcases h.program.reordered.completeRecord?_cases m.type with ⟨hp, hq⟩ | ⟨r, r', hp, hq, hsame⟩
  · rw [hp, hq]
  · rw [hp, hq]
    dsimp only
    rw [hsame.assignments]

theorem constexprDefault : t.constexprDefault = s.constexprDefault := by
  have hsame : ∀ u : Ty,
      ((t.program.completeRecord? u).any fun r =>
        r.constructors.any fun f => f.takes 0 && f.constexpr && !f.deleted) =
      (s.program.completeRecord? u).any fun r =>
        r.constructors.any fun f => f.takes 0 && f.constexpr && !f.deleted := by
    intro u
    rcases h.program.reordered.completeRecord?_cases u with ⟨hp, hq⟩ | ⟨r, r', hp, hq, hsame⟩
    · rw [hp, hq]
    · rw [hp, hq, Option.any_some, Option.any_some, hsame.constructors]
  simp only [Synthesis.constexprDefault, h.isUnion, hsame, h.objects.all_eq, h.objects.any_eq,
    h.objects.isEmpty_eq]

theorem agree_defineConstructor (r : Record) (f : FunctionDecl) :
    (s.defineConstructor r f).Agree (t.defineConstructor r f) := by
  unfold defineConstructor
  rw [h.constexprDefault]
  split
  · exact .ofFormed _
  · split
    · exact .bind h.agree_defaultConstructor fun _ => .ofFormed _
    · exact .bind (h.agree_constructFrom _ _) fun _ => .ofFormed _
    · exact .bind (h.agree_constructFrom _ _) fun _ => .ofFormed _
    · exact .ofFormed _

theorem agree_defineAssignment (r : Record) (f : FunctionDecl) :
    (s.defineAssignment r f).Agree (t.defineAssignment r f) := by
  unfold defineAssignment
  split
  · exact .ofFormed _
  · split
    · exact .bind (h.agree_assignFrom _) fun _ => .ofFormed _
    · exact .bind (h.agree_assignFrom _) fun _ => .ofFormed _
    · exact .ofFormed _

theorem agree_implicitDefault (d : Declared) :
    (s.implicitDefault d).Agree (t.implicitDefault d) := by
  unfold implicitDefault
  rw [h.constexprDefault]
  split
  · exact .ofFormed _
  · exact .bind h.agree_defaultConstructor fun _ => .ofFormed _

theorem agree_implicitCopyConstructor (draft : Draft) (d : Declared) :
    (s.implicitCopyConstructor draft d).Agree (t.implicitCopyConstructor draft d) := by
  simp only [implicitCopyConstructor, h.copiesConst]
  split
  · exact .ofFormed _
  · split
    · exact .bind (.ofFormed _) fun _ => .ofFormed _
    · exact .bind (h.agree_constructFrom _ _) fun _ => .ofFormed _

theorem agree_implicitMoveConstructor (draft : Draft) (d : Declared) :
    (s.implicitMoveConstructor draft d).Agree (t.implicitMoveConstructor draft d) := by
  unfold implicitMoveConstructor
  split
  · exact .ofFormed _
  · exact .bind (h.agree_constructFrom _ _) fun _ => .ofFormed _

theorem agree_implicitCopyAssignment (draft : Draft) (d : Declared) :
    (s.implicitCopyAssignment draft d).Agree (t.implicitCopyAssignment draft d) := by
  simp only [implicitCopyAssignment, h.assignsConst]
  split
  · exact .ofFormed _
  · split
    · exact .bind (.ofFormed _) fun _ => .ofFormed _
    · exact .bind (h.agree_assignFrom _) fun _ => .ofFormed _

theorem agree_implicitMoveAssignment (draft : Draft) (d : Declared) :
    (s.implicitMoveAssignment draft d).Agree (t.implicitMoveAssignment draft d) := by
  unfold implicitMoveAssignment
  split
  · exact .ofFormed _
  · exact .bind (h.agree_assignFrom _) fun _ => .ofFormed _

theorem agree_completeDestructor (draft : Draft) (inheritsVirtual : Bool) :
    (s.completeDestructor draft inheritsVirtual).Agree
      (t.completeDestructor draft inheritsVirtual) :=
  .bind h.agree_destructor fun _ => .ofFormed _

/-- A record that names its bases in another order gets the same special members. -/
theorem agree_complete (draft : Draft) (bases : List BaseClass) (inheritsVirtual : Bool) :
    ((·.withBases bases) <$> s.complete draft inheritsVirtual).Agree
      (t.complete (draft.withBases bases) inheritsVirtual) := by
  have hmapM := fun define define' => @Check.IsCompositional.mapM _ Check.Agree.isCompositional
    FunctionDecl FunctionDecl define define'
  unfold complete
  dsimp only
  simp only [map_bind, map_pure]
  apply Check.Agree.bind (hmapM _ _ (h.agree_defineConstructor _) _)
  intro constructors
  apply Check.Agree.bind (hmapM _ _ (h.agree_defineAssignment _) _)
  intro assignments
  apply Check.Agree.bind (h.agree_implicitDefault _)
  intro default
  apply Check.Agree.bind (h.agree_implicitCopyConstructor draft _)
  intro copyConstructor
  apply Check.Agree.bind (h.agree_implicitMoveConstructor draft _)
  intro moveConstructor
  apply Check.Agree.bind (h.agree_implicitCopyAssignment draft _)
  intro copyAssignment
  apply Check.Agree.bind (h.agree_implicitMoveAssignment draft _)
  intro moveAssignment
  apply Check.Agree.bind (h.agree_completeDestructor draft _)
  intro destructor
  exact .ofFormed _

end Alike
end Synthesis
end TypeTraits
