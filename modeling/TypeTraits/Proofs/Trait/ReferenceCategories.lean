import TypeTraits.Proofs.Hierarchy.Reachability
import TypeTraits.Proofs.Trait.Conservative
import TypeTraits.Proofs.Trait.ConstructionPaths
import TypeTraits.Proofs.Trait.DerivedConversions

/-!
# References and the wrong value category

An rvalue reference does not bind to an lvalue of its own or a derived type, and an lvalue reference
to anything but plain `const` does not bind to an rvalue of it. Once the walk over the bases finds
the type related, no conversion function and no temporary is tried, so that binding fails at once in
every form of initialization; of the casts that would succeed all the same, the one that takes an
lvalue for an rvalue counts as no construction. All this rests on the walk: a base that is out of
its limits is not found, and a conversion function may bind the reference then.
-/

namespace TypeTraits

namespace Program

theorem not_isFunction_of_isObject {p : Program} {t : Ty} (h : (p.category t).isObject = true) :
    t.isFunction = false := by
  cases t <;> first | rfl | cases h

end Program

/-- An object is declared as an xvalue. -/
theorem Expr.declval_of_isObject {p : Program} {t : Ty} (ht : t.isNormal = true)
    (h : (p.category t).isObject = true) : Expr.declval t = .ok (.xvalue t) := by
  cases t with
  | unknown _ => cases ht
  | qualified t cv =>
    have hvoid : (Ty.qualified t cv).isVoid = false := by
      cases t <;> first | rfl | cases h
    simp [Expr.declval, hvoid]
  | _ => first | rfl | cases h

namespace Program

variable {p : Program} {source : Expr} {target referent : Ty} {isRvalueRef : Bool}

/-- Whether an expression has the value category that a reference to a related object refuses. -/
def refuses (referent : Ty) (isRvalueRef : Bool) (source : Expr) : Bool :=
  if isRvalueRef then source.isLvalue else source.isRvalue && referent.cv != .const

theorem isRvalue_of_isLvalue (h : source.isLvalue = true) : source.isRvalue = false := by
  obtain ⟨type, category⟩ := source
  cases category <;> first | rfl | cases h

/-- Binding to an expression of the refused category fails at once. -/
theorem bindAtOnce?_of_refuses (hfunction : referent.isFunction = false)
    (hrelated : source.type.unqualified = referent.unqualified ∨
      p.isBaseOf referent.unqualified source.type.unqualified = true)
    (h : refuses referent isRvalueRef source = true) :
    ∃ e, p.bindAtOnce? source referent isRvalueRef = some (.error e) := by
  obtain ⟨relation, hrelation⟩ := Option.ne_none_iff_exists'.mp
    (mt referenceRelation_eq_none.mp (not_not_intro hrelated))
  rw [bindAtOnce?, hfunction, if_neg Bool.false_ne_true, hrelation, Option.map_some]
  cases isRvalueRef with
  | true =>
    have hlvalue : source.isLvalue = true := h
    exact ⟨.rvalueReferenceToLvalue, by simp [bindRelated, hlvalue, isRvalue_of_isLvalue hlvalue]⟩
  | false =>
    obtain ⟨hrvalue, hconst⟩ : source.isRvalue = true ∧ referent.cv ≠ .const := by
      simpa [refuses] using h
    have hlvalue : source.isLvalue = false :=
      Bool.eq_false_iff.mpr fun hlvalue => by simp [isRvalue_of_isLvalue hlvalue] at hrvalue
    exact ⟨.nonConstLvalueReference, by simp [bindRelated, hlvalue, hconst]⟩

variable (htarget : target.referent? = some (referent, isRvalueRef)) {e : Inapplicable}
  (hbound : p.bindAtOnce? source referent isRvalueRef = some (.error e))

include htarget hbound

theorem copyInit_of_unbound : (p.copyInit target source).result = .error e := by
  rw [copyInit_reference htarget, bindReferent_of_atOnce hbound]
  rfl

theorem directInit_of_unbound : (p.directInit target [source]).result = .error e := by
  rw [directInit_of_atOnce htarget hbound, copyInit_of_unbound htarget hbound]

/-- Where binding fails at once, a cast goes down or across, or fails as well. -/
theorem staticCastReference_of_unbound (hdown : p.castsDown source referent isRvalueRef = false)
    (hacross : p.castsAcross source referent isRvalueRef = false) (effects : Effects) :
    ¬(p.staticCastReference target source).Returns effects := by
  intro h
  rw [staticCastReference_eq htarget, hdown, hacross, if_neg Bool.false_ne_true,
    if_neg Bool.false_ne_true, checker_eq] at h
  obtain ⟨c, hc, -⟩ := h.bind
  obtain ⟨deeper, referent', isRvalueRef', htarget', hc⟩ := bindReference_returns hc
  cases htarget.symm.trans htarget'
  rw [bindReferent_of_atOnce hbound, Check.returns_ofFormed] at hc
  cases hc

end Program

namespace Solver

variable {s : Solver} {source target referent t u : Ty} {isRvalueRef : Bool} {expr : Expr}
  {e : Inapplicable}

/-- Nothing is constructed where binding fails at once and no cast counts. -/
theorem isConstructible_of_unbound (htarget : target.referent? = some (referent, isRvalueRef))
    (he : Expr.declval source = .ok expr)
    (hbound : s.program.bindAtOnce? expr referent isRvalueRef = some (.error e))
    (hcast : s.isCastOnly target isRvalueRef source = true ∨
      ∀ effects, ¬(s.program.staticCastReference target expr).Returns effects) :
    s.isConstructible target [source] = false := by
  refine Bool.eq_false_iff.mpr fun h => ?_
  have hprovider : providerOutcome s.program target [source] = none := by
    rw [providerOutcome_reference htarget he, Program.directInit_of_unbound htarget hbound]
    rfl
  have hfallback : s.fallbackOutcome target [source] = none := by
    rw [fallbackOutcome_of_cast htarget he
      (by rw [Program.copyInit_of_unbound htarget hbound]; rfl)]
    rcases hcast with honly | hfails
    · rw [if_pos honly]
    · split
      · rfl
      · cases hrun : ((s.program.staticCastReference target expr).run
          ((s.program.copyInit target expr).run (.fresh .initialization)).2).1 with
        | error _ => rfl
        | ok effects => exact absurd ⟨_, hrun⟩ (hfails effects)
  rcases answer_cases h with h | h
  · obtain ⟨effects, h⟩ := Option.isSome_iff_exists.mp h
    rw [providerOutcome, h] at hprovider
    cases hprovider
  · rw [fallbackOutcome, if_pos h] at hfallback
    cases hfallback

theorem isConvertible_of_unbound (htarget : target.referent? = some (referent, isRvalueRef))
    (he : Expr.declval source = .ok expr)
    (hbound : s.program.bindAtOnce? expr referent isRvalueRef = some (.error e)) :
    s.isConvertible source target = false := by
  have hvoid : target.isVoid = false := by
    cases target <;> first | rfl | cases htarget
  have hcopy := Program.copyInit_of_unbound htarget hbound
  rw [isConvertible_eq_converts]
  unfold converts
  rw [he, hvoid]
  simp only [hcopy]
  cases source.isVoid <;> cases target.isArray || target.isFunction <;> rfl

/-- An rvalue reference to an object does not bind to an lvalue of a related type. -/
theorem rvalueRef_not_bound (hreferent : referent.isNormal = true)
    (hfunction : referent.isFunction = false)
    (hrelated : u.unqualified = referent.unqualified ∨
      s.program.isBaseOf referent.unqualified u.unqualified = true) :
    s.isConstructible (.rvalueRef referent) [.lvalueRef u] = false ∧
      s.isConvertible (.lvalueRef u) (.rvalueRef referent) = false := by
  have htarget : (Ty.rvalueRef referent).referent? = some (referent, true) := rfl
  have he : Expr.declval (.lvalueRef u) = .ok (.lvalue u) := rfl
  obtain ⟨e, hbound⟩ := Program.bindAtOnce?_of_refuses hfunction hrelated
    (show Program.refuses referent true (.lvalue u) = true from rfl)
  have hplain : referent.unqualified.isFunction = false := by
    refine Bool.eq_false_iff.mpr fun hplain => ?_
    rw [Ty.eq_of_unqualified_function hplain hreferent (Ty.unqualified_unqualified hreferent),
      hfunction] at hplain
    cases hplain
  have honly : s.isCastOnly (.rvalueRef referent) true (.lvalueRef u) = true :=
    (isCastOnly_iff htarget he).mpr (Or.inr ⟨rfl, ⟨u, rfl⟩, hplain, hrelated⟩)
  exact ⟨isConstructible_of_unbound htarget he hbound (Or.inl honly),
    isConvertible_of_unbound htarget he hbound⟩

/-- An lvalue reference to anything but plain `const` does not bind to an rvalue of a related
type. -/
theorem lvalueRef_not_bound (hfunction : referent.isFunction = false)
    (hrelated : u.unqualified = referent.unqualified ∨
      s.program.isBaseOf referent.unqualified u.unqualified = true)
    (hconst : referent.cv ≠ .const) (he : Expr.declval source = .ok (.xvalue u)) :
    s.isConstructible (.lvalueRef referent) [source] = false ∧
      s.isConvertible source (.lvalueRef referent) = false := by
  have htarget : (Ty.lvalueRef referent).referent? = some (referent, false) := rfl
  obtain ⟨e, hbound⟩ := Program.bindAtOnce?_of_refuses hfunction hrelated
    (show Program.refuses referent false (.xvalue u) = true from bne_iff_ne.mpr hconst)
  have hcast := Program.staticCastReference_of_unbound htarget hbound
    (by simp [Program.castsDown, Expr.xvalue, Expr.isLvalue]) (by simp [Program.castsAcross])
  exact ⟨isConstructible_of_unbound htarget he hbound (Or.inr hcast),
    isConvertible_of_unbound htarget he hbound⟩

end Solver

namespace Development

open Hierarchy Program

variable {d : Development} {s : Solver} {t u : Ty}

/-- References and the wrong value category of a related object. An object type is related to
another one that is the same up to its qualification or passes for a base of it, as every base does
within the limits of the walks. An rvalue reference is then neither constructed nor converted from
an lvalue, nor is an lvalue reference from an rvalue unless it is one to plain `const`. -/
theorem wrong_category_not_bound (h : d.Reachable) (hs : s.program = d.program) (ht : t.IsFormed)
    (hu : u.IsFormed) (htobject : (d.program.category t).isObject = true)
    (huobject : (d.program.category u).isObject = true) :
    (u.unqualified = t.unqualified ∨ d.program.isBaseOf t.unqualified u.unqualified = true →
      s.isConstructible (.rvalueRef t) [.lvalueRef u] = false ∧
      s.isConvertible (.lvalueRef u) (.rvalueRef t) = false ∧
      (t.cv ≠ .const →
        s.isConstructible (.lvalueRef t) [.rvalueRef u] = false ∧
        s.isConstructible (.lvalueRef t) [u] = false ∧
        s.isConvertible (.rvalueRef u) (.lvalueRef t) = false)) ∧
    ∀ path, Leads d.program u.unqualified path t.unqualified →
      (path ≠ [] → WithinLimits d.program u.unqualified) →
      u.unqualified = t.unqualified ∨ d.program.isBaseOf t.unqualified u.unqualified = true := by
  have ht := Ty.isFormed_iff_isNormal.mp ht
  have hu := Ty.isFormed_iff_isNormal.mp hu
  refine ⟨fun hrelated => ?_, fun path hpath hlimits => h.valid.related_of_leads hu hlimits hpath⟩
  have htfunction := not_isFunction_of_isObject htobject
  rw [← hs] at hrelated
  obtain ⟨hconstructible, hconvertible⟩ := Solver.rvalueRef_not_bound ht htfunction hrelated
  refine ⟨hconstructible, hconvertible, fun hconst => ?_⟩
  have hreference : Expr.declval (.rvalueRef u) = .ok (.xvalue u) := by
    simp [Expr.declval, not_isFunction_of_isObject huobject]
  obtain ⟨hreferenced, hconverted⟩ :=
    Solver.lvalueRef_not_bound htfunction hrelated hconst hreference
  exact ⟨hreferenced, (Solver.lvalueRef_not_bound htfunction hrelated hconst
    (Expr.declval_of_isObject hu huobject)).1, hconverted⟩

/-- A class that converts to references to its base, and one that converts to a reference to it
without being derived from it. -/
def convertingClasses : Development :=
  run .lp64
    [.start "Base" .struct,
      .finish ⟨1⟩,
      .start "Derived" .struct,
      .write ⟨2⟩ (.base (.record ⟨1⟩)),
      .write ⟨2⟩ (.conversion (.declare [] (.rvalueRef (.record ⟨1⟩)) [])),
      .write ⟨2⟩ (.conversion (.declare [] (.lvalueRef (.record ⟨1⟩)) [])),
      .finish ⟨2⟩,
      .start "Other" .struct,
      .write ⟨3⟩ (.conversion (.declare [] (.rvalueRef (.record ⟨1⟩)) [])),
      .finish ⟨3⟩]

theorem reachable_convertingClasses : convertingClasses.Reachable := by
  refine (Reachable.fresh .lp64).performAll ?_
  intro a ha
  simp only [List.mem_cons, List.not_mem_nil, or_false] at ha
  rcases ha with rfl | rfl | rfl | rfl | rfl | rfl | rfl | rfl | rfl | rfl
  all_goals first
    | trivial
    | exact RecordStep.isWritten_of_types rfl (by decide)
    | exact RecordStep.isWritten_of_declare rfl (by decide)

theorem withinLimits_convertingClasses :
    WithinLimits convertingClasses.program (.record ⟨2⟩) :=
  reachable_convertingClasses.valid.withinLimits_of_rank_le (by decide +kernel) (by decide +kernel)

/-- The solver for these classes that has no intrinsics. -/
def unaided : Solver := convertingClasses.program.solverWith 0

/-- The conversion functions of a derived class bind nothing to its own lvalues and rvalues; the
one of an unrelated class does. -/
theorem wrong_category_not_bound_convertingClasses :
    convertingClasses.Reachable ∧
    WithinLimits convertingClasses.program (.record ⟨2⟩) ∧
    Leads convertingClasses.program (.record ⟨2⟩) [⟨0, ⟨.record ⟨1⟩, .pub, false⟩⟩] (.record ⟨1⟩) ∧
    unaided.isConstructible (.rvalueRef (.record ⟨1⟩)) [.lvalueRef (.record ⟨2⟩)] = false ∧
    unaided.isConvertible (.lvalueRef (.record ⟨2⟩)) (.rvalueRef (.record ⟨1⟩)) = false ∧
    unaided.isConvertible (.rvalueRef (.record ⟨2⟩)) (.lvalueRef (.record ⟨1⟩)) = false ∧
    unaided.isConvertible (.lvalueRef (.record ⟨3⟩)) (.rvalueRef (.record ⟨1⟩)) = true := by
  have hpath : Leads convertingClasses.program (.record ⟨2⟩) [⟨0, ⟨.record ⟨1⟩, .pub, false⟩⟩]
      (.record ⟨1⟩) := .cons (by decide +kernel) .nil
  have hs : unaided.program = convertingClasses.program := by
    simp only [unaided, Program.solverWith]
  have hother :
      unaided.isConvertible (.lvalueRef (.record ⟨3⟩)) (.rvalueRef (.record ⟨1⟩)) = true := by
    rw [Solver.isConvertible_eq_converts]
    change (unaided.program.copyInit (.rvalueRef (.record ⟨1⟩))
      (.lvalue (.record ⟨3⟩))).result.isOk = true
    rw [hs]
    decide +kernel
  obtain ⟨hrefused, hrelated⟩ := wrong_category_not_bound reachable_convertingClasses hs
    (.record ⟨1⟩) (.record ⟨2⟩) (by decide +kernel) (by decide +kernel)
  obtain ⟨hconstructible, hconvertible, hlvalue⟩ :=
    hrefused (hrelated _ hpath fun _ => withinLimits_convertingClasses)
  exact ⟨reachable_convertingClasses, withinLimits_convertingClasses, hpath, hconstructible,
    hconvertible, (hlvalue (by decide)).2.2, hother⟩

end Development

end TypeTraits
