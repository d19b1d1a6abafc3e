import TypeTraits.Proofs.Expr.Scalar
import TypeTraits.Proofs.Trait.Destruction

/-!
# Without exception specifications

Where exception specifications cannot be queried, each trait about throwing falls back on something
that promises more: that the operation is trivial, or that it is one on scalars. Trivial evaluation
does not throw, and neither do operations on scalars, so the fallback only loses answers.
-/

namespace TypeTraits
namespace Solver

/-- The solver that cannot query exception specifications. -/
def withoutNoexcept (s : Solver) : Solver :=
  { s with
    capabilities :=
      { s.capabilities with
        features := s.capabilities.features &&& ~~~(1#32 <<< Feature.noexcept.index) } }

variable {s : Solver} {t u : Ty} {args : List Ty}

@[simp] theorem program_withoutNoexcept : s.withoutNoexcept.program = s.program := rfl

theorem supports_withoutNoexcept (f : Feature) : s.withoutNoexcept.capabilities.supports f =
    (s.capabilities.supports f && f != .noexcept) := by
  unfold Capabilities.supports withoutNoexcept
  rw [BitVec.getLsbD_and, BitVec.getLsbD_not]
  cases f <;> simp [Feature.index]

@[simp] theorem knowsNoexcept_withoutNoexcept : s.withoutNoexcept.knowsNoexcept = false := by
  rw [knowsNoexcept, supports_withoutNoexcept]
  exact Bool.and_false _

/-- Nothing else changes about invocations. -/
@[simp] theorem invoke_withoutNoexcept : s.withoutNoexcept.invoke t args = s.invoke t args := by
  have hrefs : s.withoutNoexcept.knowsRefQualifiers = s.knowsRefQualifiers := by
    rw [knowsRefQualifiers, supports_withoutNoexcept]
    exact Bool.and_true _
  unfold invoke invokeMember checkMember
  rw [hrefs]
  rfl

theorem isConstructible_withoutNoexcept :
    s.withoutNoexcept.isConstructible t args = s.isConstructible t args := by
  unfold isConstructible
  rw [construct_congr program_withoutNoexcept]
  rfl

theorem isTriviallyConstructible_withoutNoexcept :
    s.withoutNoexcept.isTriviallyConstructible t args = s.isTriviallyConstructible t args := by
  unfold isTriviallyConstructible
  rw [isConstructible_withoutNoexcept]
  rfl

section Answers

variable {i : Intrinsic} {answer : Option Bool} {fallback stronger : Bool}

/-- An answer is kept where the fallback is. -/
theorem answer_mono (hfallback : fallback = true → stronger = true)
    (h : (s.intrinsic i answer).getD fallback = true) :
    (s.intrinsic i answer).getD stronger = true := by
  unfold intrinsic at h ⊢
  split
  · rename_i hhas
    rw [if_pos hhas] at h
    cases answer with
    | none => exact hfallback h
    | some x => exact h
  · rename_i hhas
    rw [if_neg hhas] at h
    exact hfallback h

end Answers

theorem isNothrowAssignable_of_withoutNoexcept (hp : s.program.Sound)
    (hnoexcept : s.knowsNoexcept = true)
    (h : s.withoutNoexcept.isNothrowAssignable t u = true) :
    s.isNothrowAssignable t u = true := by
  obtain ⟨hassignable, h⟩ := Bool.and_eq_true_iff.mp h
  rw [knowsNoexcept_withoutNoexcept] at h
  refine Bool.and_eq_true_iff.mpr ⟨hassignable, ?_⟩
  rw [hnoexcept]
  refine answer_mono (fun htrivially => ?_) h
  have htrivial : (Introspection.assignment s.program t u).any (·.trivial) = true := by
    rw [← Program.isTriviallyAssignable_solver]
    exact isTriviallyAssignable_conservative htrivially
  obtain ⟨e, he, htrivial⟩ := (Option.any_eq_true _ _).mp htrivial
  obtain ⟨a, b, _, _, hassign⟩ := assignment_eq_some.mp he
  have hnothrow : e.nothrow = true := Program.sound_assign hp (.of_result hassign) htrivial
  simp [assignment_of_introspection he, hnothrow, Except.toOption]

theorem isNothrowDestructible_of_withoutNoexcept (hp : s.program.Sound)
    (hprovider : s.provider = .declarations) (hnoexcept : s.knowsNoexcept = true)
    (ht : t.isNormal = true) (h : s.withoutNoexcept.isNothrowDestructible t = true) :
    s.isNothrowDestructible t = true := by
  obtain ⟨hdestructible, h⟩ := Bool.and_eq_true_iff.mp h
  refine Bool.and_eq_true_iff.mpr ⟨hdestructible, ?_⟩
  rw [Bool.or_eq_true] at h ⊢
  refine h.imp_right fun h => ?_
  rw [knowsNoexcept_withoutNoexcept] at h
  rw [hnoexcept]
  have htrivially : s.isTriviallyDestructible t = true := h
  obtain ⟨e, he, htrivial⟩ := (Option.any_eq_true _ _).mp
    (@destruction_of_destroys s t .trivial nofun ht htrivially)
  have hnothrow : e.nothrow = true :=
    Program.sound_destroy hp (destroy_element_of_destruction he) htrivial
  cases hhas : s.capabilities.has .isDestructible with
  | true =>
    -- The intrinsic has answered for the destruction as well, so the provider destroys alike.
    have hprovided : (Introspection.destruction s.program t).isSome = true := by
      have hanswer : s.isDestructible t = true := hdestructible
      unfold isDestructible intrinsic ask at hanswer
      rw [hprovider, hhas] at hanswer
      exact hanswer
    obtain ⟨e', he'⟩ := Option.isSome_iff_exists.mp hprovided
    cases (destruction_of_introspection he').symm.trans he
    unfold intrinsic ask
    rw [hprovider, hhas]
    simp [Provider.declarations, Introspection.isNothrowDestructible, he', hnothrow]
  | false =>
    unfold intrinsic
    rw [hhas, he]
    exact hnothrow

theorem introspection_isConvertible :
    Introspection.isConvertible s.program t u = some (s.converts t u) := by
  unfold Introspection.isConvertible converts
  split
  · rfl
  · split
    · rfl
    · cases Expr.declval t <;> rfl

theorem converts_of_isConvertible (h : s.isConvertible t u = true) : s.converts t u = true := by
  unfold isConvertible at h
  rw [introspection_isConvertible] at h
  exact (answer_cases h).elim id id

theorem isNothrowConvertible_of_withoutNoexcept (hnoexcept : s.knowsNoexcept = true)
    (hu : u.isNormal = true) (h : s.withoutNoexcept.isNothrowConvertible t u = true) :
    s.isNothrowConvertible t u = true := by
  unfold isNothrowConvertible at h ⊢
  rw [knowsNoexcept_withoutNoexcept] at h
  rw [hnoexcept]
  rw [Bool.or_eq_true] at h ⊢
  rcases h with hvoid | h
  · exact Or.inl hvoid
  · obtain ⟨hconvertible, hscalars⟩ := Bool.and_eq_true_iff.mp h
    obtain ⟨hsource, htarget⟩ := Bool.and_eq_true_iff.mp hscalars
    have hconvertible : s.isConvertible t u = true := hconvertible
    have hconverts := converts_of_isConvertible hconvertible
    unfold converts at hconverts
    split at hconverts
    · exact Or.inl hconverts
    · split at hconverts
      · cases hconverts
      · refine Or.inr (Bool.and_eq_true_iff.mpr ⟨hconvertible, ?_⟩)
        cases he : Expr.declval t with
        | error _ =>
          rw [he] at hconverts
          cases hconverts
        | ok e =>
          rw [he] at hconverts
          cases hcopy : (s.program.copyInit u e).result with
          | error _ =>
            simp only [hcopy] at hconverts
            cases hconverts
          | ok effects =>
            have hscalar : e.type.unqualified.isScalar = true := by
              rw [Expr.unqualified_of_declval he]
              exact hsource
            have hnone : effects = .none :=
              Program.effects_of_copyInit hu htarget hscalar (.of_result hcopy)
            simp [hcopy, hnone, Except.toOption, Effects.none]

theorem isNothrowSwappableWith_of_withoutNoexcept (hnoexcept : s.knowsNoexcept = true)
    (ht : t.isNormal = true) (hu : u.isNormal = true)
    (h : s.withoutNoexcept.isNothrowSwappableWith t u = true) :
    s.isNothrowSwappableWith t u = true := by
  obtain ⟨e, he, hscalars⟩ := (Option.any_eq_true _ _).mp h
  rw [knowsNoexcept_withoutNoexcept] at hscalars
  obtain ⟨htarget, hsource⟩ := Bool.and_eq_true_iff.mp hscalars
  refine (Option.any_eq_true _ _).mpr ⟨e, he, ?_⟩
  rw [hnoexcept]
  have hboth : s.swapBothWays t u = .ok e := by
    change (s.swapBothWays t u).toOption = some e at he
    cases hswap : s.swapBothWays t u with
    | error _ => simp [hswap, Except.toOption] at he
    | ok e' =>
      rw [hswap] at he
      exact congrArg Except.ok (Option.some.inj he)
  unfold swapBothWays at hboth
  cases ha : Expr.declval t with
  | error _ => rw [ha] at hboth; cases hboth
  | ok a =>
    cases hb : Expr.declval u with
    | error _ => rw [ha, hb] at hboth; cases hboth
    | ok b =>
      rw [ha, hb] at hboth
      obtain ⟨forward, hforward, hrest⟩ := (Check.Returns.of_result hboth).bind
      obtain ⟨backward, hbackward, hrest⟩ := hrest.bind
      have hscalarA : a.type.unqualified.isScalar = true := by
        rw [Expr.unqualified_of_declval ha]
        exact htarget
      have hscalarB : b.type.unqualified.isScalar = true := by
        rw [Expr.unqualified_of_declval hb]
        exact hsource
      have hthere := Program.nothrow_of_swap (Expr.isNormal_of_declval ht ha) hscalarA hscalarB
        hforward
      have hback := Program.nothrow_of_swap (Expr.isNormal_of_declval hu hb) hscalarB hscalarA
        hbackward
      rw [← Check.returns_pure.mp hrest]
      exact Bool.and_eq_true_iff.mpr ⟨hthere, hback⟩

theorem isNothrowSwappable_of_withoutNoexcept (hnoexcept : s.knowsNoexcept = true)
    (ht : t.isNormal = true) (h : s.withoutNoexcept.isNothrowSwappable t = true) :
    s.isNothrowSwappable t = true := by
  obtain ⟨hreferenceable, h⟩ := Bool.and_eq_true_iff.mp h
  have hreferenceable : s.program.isReferenceable t = true := hreferenceable
  have hreference : (s.program.addLvalueReference t).isNormal = true := by
    rw [Program.addLvalueReference, if_pos hreferenceable]
    exact Ty.isNormal_lvalueRefTo ht
  exact Bool.and_eq_true_iff.mpr
    ⟨hreferenceable, isNothrowSwappableWith_of_withoutNoexcept hnoexcept hreference hreference h⟩

/-- What counts as non-throwing without exception specifications does not throw. -/
theorem isNothrow_of_withoutNoexcept (hp : s.program.Sound) (hnoexcept : s.knowsNoexcept = true)
    {i : Invocation} (hi : s.invoke t args = .ok i) (h : s.withoutNoexcept.isNothrow i = true) :
    s.isNothrow i = true := by
  unfold isNothrow at h ⊢
  rw [knowsNoexcept_withoutNoexcept] at h
  rw [hnoexcept]
  exact Program.sound_invoke hp hi h

theorem isNothrowInvocable_of_withoutNoexcept (hp : s.program.Sound)
    (hnoexcept : s.knowsNoexcept = true)
    (h : s.withoutNoexcept.isNothrowInvocable t args = true) :
    s.isNothrowInvocable t args = true := by
  unfold isNothrowInvocable at h ⊢
  rw [invoke_withoutNoexcept] at h
  cases hi : s.invoke t args with
  | error _ => simp [hi, Except.toOption] at h
  | ok i =>
    rw [hi] at h
    exact isNothrow_of_withoutNoexcept hp hnoexcept hi h

theorem isNothrowInvocableR_of_withoutNoexcept (hp : s.program.Sound)
    (hnoexcept : s.knowsNoexcept = true) (hu : u.isNormal = true)
    (h : s.withoutNoexcept.isNothrowInvocableR u t args = true) :
    s.isNothrowInvocableR u t args = true := by
  unfold isNothrowInvocableR at h ⊢
  rw [invoke_withoutNoexcept] at h
  cases hi : s.invoke t args with
  | error _ => simp [hi, Except.toOption] at h
  | ok i =>
    rw [hi] at h
    obtain ⟨hnothrow, hresult⟩ := Bool.and_eq_true_iff.mp h
    refine Bool.and_eq_true_iff.mpr ⟨isNothrow_of_withoutNoexcept hp hnoexcept hi hnothrow, ?_⟩
    rw [Bool.or_eq_true] at hresult ⊢
    exact hresult.imp_right (isNothrowConvertible_of_withoutNoexcept hnoexcept hu)

/-- What is initialized trivially is initialized without a throw, whichever form the fallback
tests. -/
theorem constructsNothrow_of_trivial (hp : s.program.Sound) (hf : s.program.TrivialFunctions)
    (ht : t.isNormal = true) (hargs : ∀ a ∈ args, a.isNormal = true) {e : Effects}
    (he : Introspection.construction s.program t args = some e) (htrivial : e.trivial = true) :
    s.constructsNothrow t args = true := by
  obtain ⟨exprs, hexprs, hinit, _⟩ := construction_eq_some.mp he
  have hreturns := Check.Returns.of_result hinit
  have hnothrow : e.nothrow = true := Program.sound_directInit hp hreturns htrivial
  cases hreference : t.isReference with
  | false => rw [constructsNothrow_of_construction hreference he, hnothrow]
  | true =>
    obtain ⟨source, x, rfl, rfl, hx⟩ := single_of_directInit hreference hexprs hreturns
    obtain ⟨⟨referent, isRvalueRef⟩, htarget⟩ := Option.isSome_iff_exists.mp hreference
    have hcopy := Program.copyInit_of_trivial_directInit hf ht hreference
      (Expr.isNormal_of_declval (hargs source List.mem_cons_self) hx) hreturns htrivial
    have hfallback := fallbackOutcome_of_copied htarget hx hcopy
    unfold fallbackOutcome at hfallback
    split at hfallback
    · rw [Option.some.inj hfallback, hnothrow]
    · cases hfallback

theorem isNothrowConstructible_of_withoutNoexcept (hp : s.program.Sound)
    (hf : s.program.TrivialFunctions)
    (hd : ∀ {t : Ty} {r : Record}, s.program.completeRecord? t = some r → r.DefaultFacts)
    (hnoexcept : s.knowsNoexcept = true) (ht : t.isNormal = true) (harray : t.isArray = false)
    (hargs : ∀ a ∈ args, a.isNormal = true)
    (h : s.withoutNoexcept.isNothrowConstructible t args = true) :
    s.isNothrowConstructible t args = true := by
  obtain ⟨hconstructible, h⟩ := Bool.and_eq_true_iff.mp h
  rw [isConstructible_withoutNoexcept] at hconstructible
  rw [knowsNoexcept_withoutNoexcept, isTriviallyConstructible_withoutNoexcept] at h
  refine Bool.and_eq_true_iff.mpr ⟨hconstructible, ?_⟩
  rw [hnoexcept]
  refine answer_mono (fun htrivially => ?_) h
  have hshallow : ¬(args = [] ∧ Limits.initializationDepth ≤ t.rank) := by
    have hrank : t.rank = 0 := by
      cases t <;> first | rfl | cases harray
    simp [hrank, Limits.initializationDepth]
  have htrivial := (isTriviallyConstructible_conservative hd ht htrivially).mpr hshallow
  rw [Program.isTriviallyConstructible_solver] at htrivial
  obtain ⟨e, he, htrivial⟩ := (Option.any_eq_true _ _).mp htrivial
  exact constructsNothrow_of_trivial hp hf ht hargs he htrivial

end Solver

namespace Development

variable {d : Development} {s : Solver} {t u : Ty} {args : List Ty}

/-- Without exception specifications no operation is found not to throw that is not found so with
them. -/
theorem noexcept_only_adds (h : d.Reachable) (hs : s.program = d.program)
    (hprovider : s.provider = .declarations) (hnoexcept : s.knowsNoexcept = true)
    (ht : t.IsFormed) (hu : u.IsFormed) (hargs : ∀ a ∈ args, a.IsFormed) :
    (s.withoutNoexcept.isNothrowAssignable t u = true → s.isNothrowAssignable t u = true) ∧
    (s.withoutNoexcept.isNothrowDestructible t = true → s.isNothrowDestructible t = true) ∧
    (s.withoutNoexcept.isNothrowConvertible t u = true → s.isNothrowConvertible t u = true) ∧
    (s.withoutNoexcept.isNothrowSwappableWith t u = true →
      s.isNothrowSwappableWith t u = true) ∧
    (s.withoutNoexcept.isNothrowSwappable t = true → s.isNothrowSwappable t = true) ∧
    (s.withoutNoexcept.isNothrowInvocable t args = true → s.isNothrowInvocable t args = true) ∧
    (s.withoutNoexcept.isNothrowInvocableR u t args = true →
      s.isNothrowInvocableR u t args = true) ∧
    (t.isArray = false → s.withoutNoexcept.isNothrowConstructible t args = true →
      s.isNothrowConstructible t args = true) := by
  have hp : s.program.Sound := hs ▸ h.sound
  have hf : s.program.TrivialFunctions := hs ▸ h.trivialFunctions
  have hd : ∀ {t : Ty} {r : Record}, s.program.completeRecord? t = some r → r.DefaultFacts :=
    fun hr => h.defaultFacts (hs ▸ hr)
  have ht : t.isNormal = true := Ty.isFormed_iff_isNormal.mp ht
  have hu : u.isNormal = true := Ty.isFormed_iff_isNormal.mp hu
  have hargs : ∀ a ∈ args, a.isNormal = true := fun a ha => Ty.isFormed_iff_isNormal.mp (hargs a ha)
  refine ⟨?assign, ?destroy, ?convert, ?swapWith, ?swap, ?invoke, ?invokeR, ?construct⟩
  case assign => exact Solver.isNothrowAssignable_of_withoutNoexcept hp hnoexcept
  case destroy => exact Solver.isNothrowDestructible_of_withoutNoexcept hp hprovider hnoexcept ht
  case convert => exact Solver.isNothrowConvertible_of_withoutNoexcept hnoexcept hu
  case swapWith => exact Solver.isNothrowSwappableWith_of_withoutNoexcept hnoexcept ht hu
  case swap => exact Solver.isNothrowSwappable_of_withoutNoexcept hnoexcept ht
  case invoke => exact Solver.isNothrowInvocable_of_withoutNoexcept hp hnoexcept
  case invokeR => exact Solver.isNothrowInvocableR_of_withoutNoexcept hp hnoexcept hu
  case construct =>
    intro harray
    exact Solver.isNothrowConstructible_of_withoutNoexcept hp hf hd hnoexcept ht harray hargs

/-- A solver without any intrinsic. -/
def withoutIntrinsics : Solver := derivedWithArray.program.solverWith 0

/-- Lvalues of `int` are found to be assigned and swapped without a throw, and so is a data member
to be accessed and an `int` to be constructed. -/
theorem noexcept_only_adds_withoutIntrinsics :
    derivedWithArray.Reachable ∧ withoutIntrinsics.provider = .declarations ∧
      withoutIntrinsics.knowsNoexcept = true ∧
      withoutIntrinsics.isNothrowAssignable (.lvalueRef (.builtin .int))
        (.lvalueRef (.builtin .int)) = true ∧
      withoutIntrinsics.isNothrowSwappableWith (.lvalueRef (.builtin .int))
        (.lvalueRef (.builtin .int)) = true ∧
      withoutIntrinsics.isNothrowInvocableR (.builtin .int)
        (.memberPointer (.record ⟨1⟩) (.builtin .int)) [.lvalueRef (.record ⟨1⟩)] = true ∧
      withoutIntrinsics.isNothrowConstructible (.builtin .int) [.lvalueRef (.builtin .int)] =
        true := by
  have hprogram : withoutIntrinsics.program = derivedWithArray.program := by
    simp only [withoutIntrinsics, Program.solverWith]
  have hprovider : withoutIntrinsics.provider = .declarations := by
    simp only [withoutIntrinsics, Program.solverWith]
  have hnoexcept : withoutIntrinsics.knowsNoexcept = true := Capabilities.supports_all .noexcept
  have hint : (Ty.builtin .int).IsFormed := .builtin .int
  have hreference : (Ty.lvalueRef (.builtin .int)).IsFormed := Ty.isFormed_iff_isNormal.mpr rfl
  have hobject : (Ty.lvalueRef (.record ⟨1⟩)).IsFormed := Ty.isFormed_iff_isNormal.mpr rfl
  obtain ⟨hassign, _, _, hswap, _⟩ := @noexcept_only_adds derivedWithArray withoutIntrinsics
    (.lvalueRef (.builtin .int)) (.lvalueRef (.builtin .int)) [] reachable_derivedWithArray hprogram
    hprovider hnoexcept hreference hreference (by simp)
  obtain ⟨_, _, _, _, _, _, hinvoke, _⟩ := @noexcept_only_adds derivedWithArray withoutIntrinsics
    (.memberPointer (.record ⟨1⟩) (.builtin .int)) (.builtin .int) [.lvalueRef (.record ⟨1⟩)]
    reachable_derivedWithArray hprogram hprovider hnoexcept (.memberPointer (.record _) hint) hint
    (by simpa using hobject)
  obtain ⟨_, _, _, _, _, _, _, hconstruct⟩ := @noexcept_only_adds derivedWithArray withoutIntrinsics
    (.builtin .int) .void [.lvalueRef (.builtin .int)] reachable_derivedWithArray hprogram hprovider
    hnoexcept hint .void (by simpa using hreference)
  exact ⟨reachable_derivedWithArray, hprovider, hnoexcept, hassign (by decide +kernel),
    hswap (by decide +kernel), hinvoke (by decide +kernel), hconstruct rfl (by decide +kernel)⟩

end Development
end TypeTraits
