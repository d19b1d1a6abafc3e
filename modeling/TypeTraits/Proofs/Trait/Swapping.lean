import TypeTraits.Proofs.Expr.CandidateOrder
import TypeTraits.Proofs.Hierarchy.Reachability
import TypeTraits.Proofs.Trait.Destruction
import TypeTraits.Proofs.Trait.ReferenceCategories

/-!
# Swapping and moving

Where no class declares a `swap` of its own, two objects are swapped by the library: the elements of
arrays one by one, and anything else by a move construction, a destruction and a move assignment.
Within the limits of the guard each of the three is answered as it is on its own, so a type is
swappable exactly if its elements are moved, and without throwing exactly if the three do not throw.
-/

namespace TypeTraits

open Hierarchy

namespace Program

variable {p : Program} {t : Ty}

/-- Some class that an object of the type is of, or is derived from, declares a `swap`. -/
def DeclaresSwap (p : Program) (t : Ty) : Prop :=
  ∃ path u r, Leads p t.unqualified path u ∧ p.completeRecord? u = some r ∧ r.swaps ≠ []

/-- The `swap` functions that are found for two lvalues of one type. -/
def declaredSwaps (p : Program) (t : Ty) : List Candidate :=
  (p.swapOwners (.lvalue t) (.lvalue t)).flatMap fun r => r.candidates .swap .copy none

theorem exists_path_of_mem_swapClasses (ht : t.isNormal = true) {owner : Ty × Record}
    (h : owner ∈ p.swapClasses t) :
    ∃ path u, Leads p t.unqualified path u ∧ p.completeRecord? u = some owner.2 := by
  simp only [swapClasses] at h
  cases hr : p.completeRecord? t.unqualified with
  | none => simp [hr] at h
  | some r =>
    rw [hr] at h
    rcases List.mem_cons.mp h with rfl | h
    · exact ⟨[], t.unqualified, .nil, hr⟩
    · obtain ⟨base, hbase, hfound⟩ := List.mem_filterMap.mp h
      obtain ⟨s, hs, rfl⟩ := Option.map_eq_some_iff.mp hfound
      obtain ⟨path, _, hpath⟩ := exists_path_of_mem_allBases hbase
      rw [Ty.unqualified_unqualified ht] at hpath
      exact ⟨path, base, hpath, hs⟩

/-- Without a `swap` of the classes nothing is found but what the library has. -/
theorem declaredSwaps_eq_nil_of_class (ht : t.isNormal = true) (h : ¬p.DeclaresSwap t) :
    p.declaredSwaps t = [] := by
  rw [declaredSwaps, List.flatMap_eq_nil_iff]
  intro r hr
  rw [swapOwners, List.mem_reverse] at hr
  obtain ⟨owner, howner, rfl⟩ := mem_foldl_firsts (fun owner : Ty × Record => owner.1)
    (fun owner => owner.2) _ _ hr
  have howner : owner ∈ p.swapClasses t := by simpa [Expr.lvalue] using howner
  obtain ⟨path, u, hpath, hu⟩ := exists_path_of_mem_swapClasses ht howner
  have hnone : owner.2.swaps = [] := by
    by_contra hne
    exact h ⟨path, u, owner.2, hpath, hu, hne⟩
  simp [Record.candidates, Record.functions, hnone]

theorem declaredSwaps_array (b : Option Nat) : p.declaredSwaps (.array t b) = [] := by
  have hnone : p.completeRecord? (Ty.array t b).unqualified = none := by
    simp only [Ty.unqualified, Ty.splitCv]
    split <;> rfl
  simp [declaredSwaps, swapOwners, swapClasses, Expr.lvalue, hnone]

theorem declaredSwaps_eq_nil (ht : t.isNormal = true) (h : ¬p.DeclaresSwap t.element) :
    p.declaredSwaps t = [] := by
  cases t with
  | array u b => exact declaredSwaps_array b
  | _ => exact declaredSwaps_eq_nil_of_class ht h

/-! ### The three operations of a swap -/

/-- Takes an object's value, destroys what is left and gives the object another one. -/
def moves (p : Program) (t : Ty) : Check Effects := do
  let constructed ← p.directInit t [.xvalue t]
  let destroyed ← Check.ofFormed (p.destroy t)
  let assigned ← p.assign (.lvalue t) (.xvalue t)
  return (constructed.and destroyed).and assigned

/-- The effects of the three operations, each asked on its own. -/
def moveEffects (p : Program) (t : Ty) : Formed Effects := do
  let constructed ← (p.directInit t [.xvalue t]).result
  let destroyed ← p.destroy t
  let assigned ← (p.assign (.lvalue t) (.xvalue t)).result
  return (constructed.and destroyed).and assigned

theorem steady_moveAssignment (before : Effects) :
    (do return before.and (← p.assign (.lvalue t) (.xvalue t)) : Check Effects).Steady :=
  (p.steady_assign ..).bind fun _ => .pure _

theorem steady_afterConstruction (constructed : Effects) : (do
    let destroyed ← Check.ofFormed (p.destroy t)
    return (constructed.and destroyed).and (← p.assign (.lvalue t) (.xvalue t)) :
      Check Effects).Steady :=
  (Check.Steady.ofFormed _).bind fun _ => steady_moveAssignment _

theorem steady_moves : (p.moves t).Steady :=
  (p.steady_directInit ..).bind steady_afterConstruction

theorem result_moves (h : (p.moves t).InLimits (.fresh .initialization)) :
    (p.moves t).result = p.moveEffects t := by
  obtain ⟨-, hlater, hresult⟩ := (p.steady_directInit ..).result_bind steady_afterConstruction h
  rw [moves, moveEffects, hresult]
  cases hconstructed : (p.directInit t [.xvalue t]).result with
  | error e => rfl
  | ok constructed =>
    obtain ⟨-, hlater, hresult⟩ :=
      (Check.Steady.ofFormed _).result_bind (fun _ => steady_moveAssignment _)
        (hlater _ hconstructed)
    rw [Except.bind, hresult]
    cases hdestroyed : p.destroy t with
    | error e => rfl
    | ok destroyed =>
      exact ((p.steady_assign ..).result_bind (fun _ => .pure _) (hlater _ hdestroyed)).2.2

/-! ### The swap of the library -/

/-- A call of the best of some `swap` functions for two lvalues of one type. -/
def swapAmong (p : Program) (t : Ty) (candidates : List Candidate) : Check Effects := do
  if candidates.isEmpty then throw .noViableFunction
  let selection ← p.resolve p.checker.convert candidates none [.lvalue t, .lvalue t] true
  return selection.effects

theorem swapWith_eq (library : Check (Option FunctionDecl)) :
    p.swapWith library (.lvalue t) (.lvalue t) = library >>= fun found =>
      p.swapAmong t (p.declaredSwaps t ++ (found.map (Candidate.library · true)).toList) := rfl

theorem steady_swapAmong (candidates : List Candidate) : (p.swapAmong t candidates).Steady := by
  unfold swapAmong
  dsimp only
  split
  · exact .throw .noViableFunction
  · exact (Check.Steady.isInherited.resolve p ..).bind fun _ => .pure _

/-- An lvalue is bound to a reference to its own type in two steps. -/
theorem takes_convert_lvalue (hfunction : t.isFunction = false) :
    ∃ c : Conversion, c.effects = .none ∧
      (p.checker.convert (.lvalue t) (.lvalueRef t) .copy true).Takes (.fresh .initialization) 2
        (.ok c) := by
  have hbound : p.bindAtOnce? (.lvalue t) t false =
      some (.ok { Conversion.identity with binding := some (referenceBinding t false false) }) := by
    have hcovers : t.cv.covers t.cv = true := by simp [Cv.covers]
    have hbind : bindRelated (.lvalue t) t false (.reachable 0) =
        .ok { Conversion.identity with binding := some (referenceBinding t false false) } := by
      simp only [bindRelated, Expr.lvalue, hcovers]
      rfl
    rw [bindAtOnce?, hfunction, if_neg Bool.false_ne_true, referenceRelation]
    rw [if_pos (by rfl), Option.map_some, hbind]
  refine ⟨{ Conversion.identity with binding := some (referenceBinding t false false) }, rfl, ?_⟩
  rw [checker_eq]
  apply Check.Takes.guarded ⟨by decide, List.not_mem_nil⟩
  · change ((p.checkerBelow _).bindReference (.lvalue t) (.lvalueRef t) .copy true).Takes _ _ _
    rw [bindReference_eq rfl, bindReferent_of_atOnce hbound]
    apply Check.Takes.guarded _ (.ofFormed _)
    · change 1 ≤ Limits.guardIterations
      decide
    · refine ⟨(by decide : 1 < Limits.initializationDepth), ?_⟩
      simp [Guard.entered, Guard.fresh, CheckKey.of]
  · change 2 ≤ Limits.guardIterations
    decide

/-- An argument that converts to its parameter is followed by the rest. -/
theorem takes_argumentConversions_cons {convert : ConvertArgument} {allowUser : Bool} {arg : Expr}
    {param : Ty} {args : List Expr} {params : List Ty} {c : Conversion}
    {cs : List (Option Conversion)} {g : Guard CheckKey} {m n : Nat}
    (h : (convert arg param .copy allowUser).Takes g m (.ok c))
    (hrest : (argumentConversions convert allowUser args params).Takes g n (.ok (some cs)))
    (hsteps : m + n ≤ g.limits.iterations) :
    (argumentConversions convert allowUser (arg :: args) (param :: params)).Takes g (m + n)
      (.ok (some (some c :: cs))) := by
  rw [argumentConversions]
  apply h.attempt.bind _ hsteps
  exact hrest.bind_pure (·.map (some c :: ·))

/-- The only candidate is selected if it is viable. -/
theorem takes_resolve_singleton {convert : ConvertArgument} {object : Option Expr}
    {args : List Expr} {allowUser : Bool} {candidate : Candidate}
    {conversions : List (Option Conversion)} {g : Guard CheckKey} {n : Nat} {r : Formed Selection}
    (h : (p.viableConversions convert object args allowUser candidate).Takes g n
      (.ok (some conversions))) (hselect : candidate.select conversions = r) :
    (p.resolve convert [candidate] object args allowUser).Takes g n r := by
  have hfound : (List.filterMapM (fun c => do
      let conversions ← p.viableConversions convert object args allowUser c
      return conversions.map (c, ·)) [candidate]).Takes g n (.ok [(candidate, conversions)]) := by
    rw [Check.filterMapM_cons_eq]
    exact (h.bind_pure fun found => found.map (candidate, ·)).bind_pure (·.toList ++ [])
  unfold resolve
  apply hfound.bind (n := 0) _ h.steps_le
  rw [← hselect]
  exact .ofFormed _

/-- The `std::swap` for two lvalues is called with them as they are. -/
theorem takes_resolve_librarySwap (hreference : t.isReference = false)
    (hfunction : t.isFunction = false) (e : Effects) :
    (p.resolve p.checker.convert [.library (librarySwap t e) true] none [.lvalue t, .lvalue t]
      true).Takes (.fresh .initialization) 4
        (.ok ⟨.library (librarySwap t e) true, ⟨e.nothrow, false⟩⟩) := by
  obtain ⟨c, heffects, hconvert⟩ := @takes_convert_lvalue p t hfunction
  have hparams : t.lvalueRefTo = .lvalueRef t := by
    cases t <;> first | rfl | cases hreference
  have hnone : (argumentConversions p.checker.convert true [] []).Takes
      (.fresh .initialization) 0 (.ok (some [])) := by
    rw [argumentConversions]
    exact .pure _ _
  have hlast := takes_argumentConversions_cons hconvert hnone (by decide)
  have hboth := takes_argumentConversions_cons hconvert hlast (by decide)
  have hviable : (p.viableConversions p.checker.convert none [.lvalue t, .lvalue t] true
      (.library (librarySwap t e) true)).Takes (.fresh .initialization) 4
        (.ok (some [none, some c, some c])) := by
    unfold viableConversions
    rw [if_neg (by simp [Candidate.library])]
    simp only [Candidate.library, librarySwap, hparams]
    exact hboth.bind_pure (·.map (none :: ·))
  apply takes_resolve_singleton hviable
  rw [Candidate.select_eq_ok_iff]
  refine ⟨rfl, rfl, ?_⟩
  simp [Candidate.callEffects, Candidate.library, librarySwap, heffects, Effects.and, Effects.none]

/-- What a call of the library's `swap` comes to, if the library has one. -/
def swapped : Option Effects → Formed Effects
  | none => .error .noViableFunction
  | some e => .ok ⟨e.nothrow, false⟩

theorem result_swapAmong {found : Option Effects} (hreference : t.isReference = false)
    (hfunction : found.isSome = true → t.isFunction = false) :
    (p.swapAmong t ((found.map (librarySwap t)).map (Candidate.library · true)).toList).result =
      swapped found := by
  cases found with
  | none => rfl
  | some e =>
    have hcall := takes_resolve_librarySwap (p := p) hreference (hfunction rfl) e
    have heffects := hcall.bind_pure (·.effects)
    exact Check.Settles.result ⟨4, heffects⟩

/-- Objects without a `swap` of their own are swapped by the library. -/
theorem result_swapWith {library : Check (Option FunctionDecl)} {found : Option Effects}
    (hlibrary : library.Steady) (hdeclared : p.declaredSwaps t = [])
    (hreference : t.isReference = false) (hfunction : found.isSome = true → t.isFunction = false)
    (hresult : library.InLimits (.fresh .initialization) →
      library.result = .ok (found.map (librarySwap t)))
    (h : (p.swapWith library (.lvalue t) (.lvalue t)).InLimits (.fresh .initialization)) :
    (p.swapWith library (.lvalue t) (.lvalue t)).result = swapped found := by
  rw [swapWith_eq] at h ⊢
  obtain ⟨hlimits, -, hparts⟩ := hlibrary.result_bind (fun _ => p.steady_swapAmong _) h
  rw [hparts, hresult hlimits, Except.bind, hdeclared, List.nil_append]
  exact result_swapAmong hreference hfunction

theorem not_isReference_of_element (h : t.element.isReference = false) : t.isReference = false := by
  cases t <;> first | rfl | exact h

theorem moveEffects_eq_ok {e : Effects} : p.moveEffects t = .ok e ↔
    ∃ constructed destroyed assigned, (p.directInit t [.xvalue t]).result = .ok constructed ∧
      p.destroy t = .ok destroyed ∧ (p.assign (.lvalue t) (.xvalue t)).result = .ok assigned ∧
      (constructed.and destroyed).and assigned = e := by
  unfold moveEffects
  cases (p.directInit t [.xvalue t]).result with
  | error _ => simp [bind, Except.bind]
  | ok constructed =>
    cases p.destroy t with
    | error _ => simp [bind, Except.bind]
    | ok destroyed =>
      cases (p.assign (.lvalue t) (.xvalue t)).result with
      | error _ => simp [bind, Except.bind]
      | ok assigned => simp [bind, Except.bind, pure, Except.pure]

/-- Only objects are moved. -/
theorem not_isFunction_of_moveEffects (hreference : t.element.isReference = false)
    (h : (p.moveEffects t.element).toOption.isSome = true) : t.isFunction = false := by
  cases he : p.moveEffects t.element with
  | error _ => simp [he, Except.toOption] at h
  | ok e =>
    obtain ⟨_, _, _, hconstructed, _⟩ := moveEffects_eq_ok.mp he
    have hobject := Solver.not_isVoid_of_directInit hreference (.of_result hconstructed)
    cases t with
    | function | functionNamed => cases hobject
    | _ => rfl

theorem stdSwap_of_moves (harray : t.isArray = false) (hfunction : t.isFunction = false) :
    p.stdSwap t = (do return (← Check.attempt (p.moves t)).map (librarySwap t)) := by
  cases t with
  | array => cases harray
  | function | functionNamed => cases hfunction
  | _ => rfl

theorem stdSwap_of_isFunction (hfunction : t.isFunction = true) : p.stdSwap t = pure none := by
  cases t <;> first | rfl | cases hfunction

theorem stdSwap_array (n : Nat) : p.stdSwap (.array t (some n)) = (do
    let swapped ← Check.attempt (p.swapWith (p.stdSwap t) (.lvalue t) (.lvalue t))
    return swapped.map (librarySwap (.array t (some n)))) := rfl

/-- What is no array is swapped by the library if it is moved. -/
theorem result_stdSwap_of_moves (harray : t.isArray = false)
    (hreference : t.element.isReference = false)
    (h : (p.stdSwap t).InLimits (.fresh .initialization)) :
    (p.stdSwap t).result = .ok ((p.moveEffects t.element).toOption.map (librarySwap t)) := by
  have helement : t.element = t := by
    cases t <;> first | rfl | cases harray
  cases hfunction : t.isFunction with
  | true =>
    have hnone : (p.moveEffects t.element).toOption = none := by
      rw [← Option.not_isSome_iff_eq_none]
      intro hsome
      simp [not_isFunction_of_moveEffects hreference hsome] at hfunction
    rw [stdSwap_of_isFunction hfunction, hnone]
    rfl
  | false =>
    rw [stdSwap_of_moves harray hfunction] at h ⊢
    obtain ⟨hlimits, -, hparts⟩ := steady_moves.attempt.result_bind (fun _ => .pure _) h
    rw [hparts, Check.result_attempt, result_moves (Check.inLimits_attempt.mp hlimits), helement]
    rfl

/-- The library swaps an array if it moves the elements. -/
theorem result_stdSwap (ht : t.isNormal = true) (hbounds : t.isBoundedThroughout = true)
    (hreference : t.element.isReference = false) (hdeclared : ¬p.DeclaresSwap t.element)
    (h : (p.stdSwap t).InLimits (.fresh .initialization)) :
    (p.stdSwap t).result = .ok ((p.moveEffects t.element).toOption.map (librarySwap t)) := by
  induction t using Ty.inductionOn with
  | array u b ih =>
    cases b with
    | none => cases hbounds
    | some n =>
      have hnone : p.declaredSwaps u = [] := declaredSwaps_eq_nil ht hdeclared
      have hsteady : (p.stdSwap u).Steady := Check.Steady.isInherited.stdSwap p u
      have hswap : (p.swapWith (p.stdSwap u) (.lvalue u) (.lvalue u)).Steady :=
        Check.Steady.isInherited.swapWith p hsteady _ _
      rw [stdSwap_array] at h ⊢
      obtain ⟨hlimits, -, hparts⟩ := hswap.attempt.result_bind (fun _ => .pure _) h
      have helement := result_swapWith hsteady hnone (not_isReference_of_element hreference)
        (not_isFunction_of_moveEffects hreference)
        (ih ht hbounds hreference hdeclared) (Check.inLimits_attempt.mp hlimits)
      rw [hparts, Check.result_attempt, helement, Ty.element]
      cases (p.moveEffects u.element).toOption <;> rfl
  | _ => exact result_stdSwap_of_moves rfl hreference h

/-- The two swaps of lvalues of a type, as one question. -/
def swapBack (p : Program) (t : Ty) : Check Effects := do
  let forward ← p.swap (.lvalue t) (.lvalue t)
  let backward ← p.swap (.lvalue t) (.lvalue t)
  return forward.and backward

/-- The two swaps take no more steps than the guard allows. So it is where no entry is denied. -/
def SwapsWithinLimits (p : Program) (t : Ty) : Prop :=
  (p.swapBack t).InLimits (.fresh .initialization)

instance (p : Program) (t : Ty) : Decidable (p.SwapsWithinLimits t) :=
  inferInstanceAs (Decidable (Check.InLimits _ _))

theorem result_swapBack (ht : t.isNormal = true) (hbounds : t.isBoundedThroughout = true)
    (hreference : t.element.isReference = false) (hdeclared : ¬p.DeclaresSwap t.element)
    (h : p.SwapsWithinLimits t) :
    (p.swapBack t).result = swapped (p.moveEffects t.element).toOption := by
  have hswap : p.swap (.lvalue t) (.lvalue t) =
      p.swapWith (p.stdSwap t) (.lvalue t) (.lvalue t) := by
    simp [swap, Expr.lvalue, Expr.isLvalue]
  have hsteady : (p.swap (.lvalue t) (.lvalue t)).Steady := Check.Steady.isInherited.swap p _ _
  have honce : (p.swap (.lvalue t) (.lvalue t)).InLimits (.fresh .initialization) →
      (p.swap (.lvalue t) (.lvalue t)).result = swapped (p.moveEffects t.element).toOption := by
    intro hlimits
    rw [hswap] at hlimits ⊢
    exact result_swapWith (Check.Steady.isInherited.stdSwap p t)
      (declaredSwaps_eq_nil ht hdeclared) (not_isReference_of_element hreference)
      (not_isFunction_of_moveEffects hreference)
      (result_stdSwap ht hbounds hreference hdeclared) hlimits
  obtain ⟨hfirst, hsecond, hparts⟩ :=
    hsteady.result_bind (fun _ => hsteady.bind fun _ => .pure _) h
  rw [swapBack, hparts, honce hfirst]
  cases hfound : (p.moveEffects t.element).toOption with
  | none => rfl
  | some e =>
    have hforward := (honce hfirst).trans (congrArg swapped hfound)
    obtain ⟨-, -, hlast⟩ := hsteady.result_bind (fun _ => .pure _) (hsecond _ hforward)
    rw [swapped, Except.bind, hlast, hforward]
    simp [swapped, Except.bind, Effects.and, Check.result]

/-! ### The traits of the three operations -/

theorem isObject_of_not_isVoid (ht : t.isNormal = true) (hreference : t.isReference = false)
    (h : (t.isVoid || t.isFunction) = false) : (p.category t).isObject = true := by
  have hplain : ∀ t : Ty, t.takesQualifier = true → t.isNormal = true → t.isVoid = false →
      (p.category t).isObject = true := by
    intro t hqualifier ht h
    cases t with
    | void => cases h
    | unknown => cases ht
    | lvalueRef | rvalueRef | qualified | array | function | functionNamed => cases hqualifier
    | builtin | memberPointer | record =>
      unfold category
      split <;> rfl
    | _ => rfl
  simp only [Bool.or_eq_false_iff] at h
  cases t with
  | qualified u cv =>
    simp only [Ty.isNormal, Bool.and_eq_true] at ht
    apply hplain u ht.1.2 ht.2
    cases u <;> first | exact h.1 | cases ht.1.2
  | array u b => rfl
  | lvalueRef | rvalueRef => cases hreference
  | function | functionNamed => cases h.2
  | _ => exact hplain _ rfl ht h.1

variable {s : Strength}

section Object

variable (hobject : (p.category t).isObject = true)
include hobject

/-- An object is constructed from an rvalue of its type. -/
theorem constructs_moveSource_iff (hreference : t.isReference = false) :
    p.solver.constructs t [p.solver.moveSource t] s = true ↔
      (∃ e, (p.directInit t [.xvalue t]).result = .ok e ∧ s.meets e = true) ∧
        (p.destroy t).isOk = true := by
  have hsource : p.solver.moveSource t = .rvalueRef t := addRvalueReference_of_isObject hobject
  have hexprs : Expr.declvals [.rvalueRef t] = .ok [.xvalue t] := by
    simp [Expr.declvals, Expr.declval, not_isFunction_of_isObject hobject]
  rw [hsource]
  exact constructs_iff hreference hexprs

/-- An rvalue of its type is assigned to an object. -/
theorem assigns_moveSource_iff :
    p.solver.assigns (p.solver.assignmentTarget t) (p.solver.moveSource t) s = true ↔
      ∃ e, (p.assign (.lvalue t) (.xvalue t)).result = .ok e ∧ s.meets e = true := by
  have hsource : p.solver.moveSource t = .rvalueRef t := addRvalueReference_of_isObject hobject
  have htarget : p.solver.assignmentTarget t = .lvalueRef t := addLvalueReference_of_isObject hobject
  have hvalue : Expr.declval (.rvalueRef t) = .ok (.xvalue t) := by
    rw [Expr.declval, not_isFunction_of_isObject hobject, if_neg Bool.false_ne_true]
  rw [hsource, htarget, assigns_solver, Option.any_eq_true]
  simp only [Solver.assignment_eq_some]
  constructor
  · rintro ⟨e, ⟨a, b, ha, hb, hassign⟩, hmeets⟩
    cases ha
    cases hvalue.symm.trans hb
    exact ⟨e, hassign, hmeets⟩
  · rintro ⟨e, hassign, hmeets⟩
    exact ⟨e, ⟨_, _, rfl, hvalue, hassign⟩, hmeets⟩

end Object

theorem destroys_iff (hreference : t.isReference = false) :
    p.solver.destroys t s = true ↔ ∃ e, p.destroy t = .ok e ∧ s.meets e = true := by
  rw [destroys_solver hreference, Introspection.destruction]
  cases p.destroy t <;> simp [Except.toOption]

/-- An object is moved with the effects that a strength asks for exactly if the traits of the three
operations hold of its type. -/
theorem meets_moveEffects (ht : t.isNormal = true) (hreference : t.isReference = false) :
    (∃ e, p.moveEffects t = .ok e ∧ s.meets e = true) ↔
      p.solver.constructs t [p.solver.moveSource t] s = true ∧
        p.solver.assigns (p.solver.assignmentTarget t) (p.solver.moveSource t) s = true ∧
        p.solver.destroys t s = true := by
  -- Only objects are constructed.
  have hobject : ∀ {exprs : List Expr} {e : Effects},
      (p.directInit t exprs).result = .ok e → (p.category t).isObject = true := by
    intro exprs e he
    apply isObject_of_not_isVoid ht hreference
    exact Solver.not_isVoid_of_directInit hreference (.of_result he)
  constructor
  · rintro ⟨e, he, hmeets⟩
    obtain ⟨a, b, c, hconstructed, hdestroyed, hassigned, rfl⟩ := moveEffects_eq_ok.mp he
    have hobject := hobject hconstructed
    simp only [Strength.meets_and, Bool.and_eq_true] at hmeets
    rw [constructs_moveSource_iff hobject hreference, assigns_moveSource_iff hobject,
      destroys_iff hreference, hdestroyed]
    exact ⟨⟨⟨a, hconstructed, hmeets.1.1⟩, rfl⟩, ⟨c, hassigned, hmeets.2⟩, ⟨b, rfl, hmeets.1.2⟩⟩
  · rintro ⟨hconstructs, hassigns, hdestroys⟩
    have hobject : (p.category t).isObject = true := by
      rw [constructs_solver, Option.any_eq_true] at hconstructs
      obtain ⟨e, he, _⟩ := hconstructs
      obtain ⟨_, _, hinit, _⟩ := Solver.construction_eq_some.mp he
      exact hobject hinit
    obtain ⟨⟨a, hconstructed, ha⟩, _⟩ :=
      (constructs_moveSource_iff hobject hreference).mp hconstructs
    obtain ⟨c, hassigned, hc⟩ := (assigns_moveSource_iff hobject).mp hassigns
    obtain ⟨b, hdestroyed, hb⟩ := (destroys_iff hreference).mp hdestroys
    refine ⟨_, moveEffects_eq_ok.mpr ⟨a, b, c, hconstructed, hdestroyed, hassigned, rfl⟩, ?_⟩
    simp only [Strength.meets_and, ha, hb, hc, Bool.and_self]

/-- What is constructed can be destroyed. -/
theorem destroys_of_constructs {args : List Ty} (hreference : t.isReference = false)
    (h : p.solver.constructs t args s = true) : p.solver.destroys t .possible = true := by
  rw [constructs_solver, Option.any_eq_true] at h
  obtain ⟨e, he, _⟩ := h
  obtain ⟨_, _, _, hdestroy⟩ := Solver.construction_eq_some.mp he
  rw [destroys_iff hreference]
  cases hresult : p.destroy t with
  | error _ => simp [hresult, hreference, Except.isOk, Except.toBool] at hdestroy
  | ok e => exact ⟨e, rfl, rfl⟩

theorem swapped_meets {found : Formed Effects} :
    (swapped found.toOption).toOption.any (·.nothrow) = true ↔
      ∃ e, found = .ok e ∧ Strength.nothrow.meets e = true := by
  cases found <;> simp [swapped, Except.toOption, Strength.meets]

theorem swapped_isOk {found : Formed Effects} : (swapped found.toOption).isOk = true ↔
    ∃ e, found = .ok e ∧ Strength.possible.meets e = true := by
  cases found <;> simp [swapped, Except.toOption, Except.isOk, Except.toBool, Strength.meets]

/-- Where no `swap` is declared, a type is swappable exactly if its elements are move constructible
and move assignable, and swappable without throwing exactly if the elements are moved and destroyed
without throwing. -/
theorem swap_agrees_with_moves (ht : t.IsFormed) (hobject : (p.category t).isObject = true)
    (hbounds : t.isBoundedThroughout = true) (hreference : t.element.isReference = false)
    (hdeclared : ¬p.DeclaresSwap t.element) (hlimits : p.SwapsWithinLimits t) :
    (p.Has .isSwappable t ↔
      p.Has .isMoveConstructible t.element ∧ p.Has .isMoveAssignable t.element) ∧
    (p.Has .isNothrowSwappable t ↔ p.Has .isNothrowMoveConstructible t.element ∧
      p.Has .isNothrowMoveAssignable t.element ∧ p.Has .isNothrowDestructible t.element) := by
  have ht : t.isNormal = true := Ty.isFormed_iff_isNormal.mp ht
  have hresult := result_swapBack ht hbounds hreference hdeclared hlimits
  have hboth : p.solver.swapBothWays (.lvalueRef t) (.lvalueRef t) = (p.swapBack t).result := rfl
  have hlvalues : ∀ property : Ty → Ty → Bool, p.solver.holdsOfLvalues property t =
      property (.lvalueRef t) (.lvalueRef t) := by
    intro property
    rw [Solver.holdsOfLvalues, program_solver, isReferenceable_of_isObject hobject,
      addLvalueReference_of_isObject hobject, Bool.true_and]
  have hnoexcept : p.solver.knowsNoexcept = true := Capabilities.supports_all .noexcept
  have hswappable : p.Has .isSwappable t ↔
      (swapped (p.moveEffects t.element).toOption).isOk = true := by
    rw [has_iff rfl, Solver.isSwappable, hlvalues, Solver.isSwappableWith, hboth, hresult]
  have hnothrow : p.Has .isNothrowSwappable t ↔
      (swapped (p.moveEffects t.element).toOption).toOption.any (·.nothrow) = true := by
    rw [has_iff rfl, Solver.isNothrowSwappable, hlvalues, Solver.isNothrowSwappableWith, hboth,
      hresult]
    simp [hnoexcept]
  have hmeets := fun s : Strength =>
    @meets_moveEffects p t.element s (isNormal_element ht) hreference
  constructor
  · rw [hswappable, swapped_isOk, hmeets, has_iff rfl, has_iff rfl]
    constructor
    · rintro ⟨hconstructs, hassigns, -⟩
      exact ⟨hconstructs, hassigns⟩
    · rintro ⟨hconstructs, hassigns⟩
      exact ⟨hconstructs, hassigns, destroys_of_constructs hreference (s := .possible) hconstructs⟩
  · rw [hnothrow, swapped_meets, hmeets, has_iff rfl, has_iff rfl, has_iff rfl]
    exact Iff.rfl

end Program

namespace Development

/-- A class of which objects are moved, a base of it, and a construction that may throw. -/
def movedBuffers : Development :=
  run .lp64
    [.start "Storage" .struct,
      .finish ⟨1⟩,
      .start "Buffer" .struct,
      .write ⟨2⟩ (.base (.record ⟨1⟩)),
      .write ⟨2⟩ (.constructor (.declare [.rvalueRef (.record ⟨2⟩)] .void [])),
      .write ⟨2⟩ (.assignment (.declare [.rvalueRef (.record ⟨2⟩)] .void [.noexcept])),
      .finish ⟨2⟩]

theorem reachable_movedBuffers : movedBuffers.Reachable := by
  refine reachable_run ?_
  intro a ha
  simp only [List.mem_cons, List.not_mem_nil, or_false] at ha
  rcases ha with rfl | rfl | rfl | rfl | rfl | rfl | rfl
  all_goals first
    | trivial
    | exact RecordStep.isWritten_of_types rfl (by decide)
    | exact RecordStep.isWritten_of_declare rfl (by decide)

/-- In a program without a `swap` no class declares one. -/
theorem not_declaresSwap {p : Program} (h : ∀ r ∈ p.records, r.swaps = []) (t : Ty) :
    ¬p.DeclaresSwap t := by
  rintro ⟨_, u, r, _, hr, hne⟩
  obtain ⟨id, _, hid, _⟩ := Program.completeRecord?_eq_some.mp hr
  unfold Program.record? at hid
  split at hid
  · cases hid
  · exact hne (h r (Array.mem_of_getElem? hid))

/-- An array of arrays of them is swapped by moving them, which may throw. -/
theorem swap_agrees_with_moves_movedBuffers :
    let t := Ty.array (.array (.record ⟨2⟩) (some 3)) (some 2)
    movedBuffers.Reachable ∧ t.IsFormed ∧ (movedBuffers.program.category t).isObject = true ∧
      t.isBoundedThroughout = true ∧ t.element.isReference = false ∧
      ¬movedBuffers.program.DeclaresSwap t.element ∧
      movedBuffers.program.SwapsWithinLimits t ∧
      movedBuffers.program.Has .isSwappable t ∧
      ¬movedBuffers.program.Has .isNothrowSwappable t := by
  intro t
  have hformed : t.IsFormed := Ty.isFormed_iff_isNormal.mpr (by decide)
  have hdeclared : ¬movedBuffers.program.DeclaresSwap t.element :=
    not_declaresSwap (by decide +kernel) _
  have hlimits : movedBuffers.program.SwapsWithinLimits t := by decide +kernel
  have hagrees := Program.swap_agrees_with_moves hformed rfl rfl rfl hdeclared hlimits
  refine ⟨reachable_movedBuffers, hformed, rfl, rfl, rfl, hdeclared, hlimits, ?_, ?_⟩
  · rw [hagrees.1]
    decide +kernel
  · rw [hagrees.2]
    decide +kernel

end Development
end TypeTraits
