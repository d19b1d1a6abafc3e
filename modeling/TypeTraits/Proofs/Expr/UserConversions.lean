import TypeTraits.Proofs.Expr.Checker
import TypeTraits.Proofs.Expr.Effects
import TypeTraits.Proofs.Expr.Hiding
import TypeTraits.Proofs.Program.Development

/-!
# One function of the user in a conversion

A conversion sequence runs at most one function of the user. Without leave to use one, a conversion
comes to a standard conversion, however deep it nests and whatever it binds to a temporary. With
leave, the arguments of the function are converted without it, and what the function gives goes on
by a standard conversion.
-/

namespace TypeTraits

/-- A conversion without a function of the user. -/
structure Conversion.IsStandard (c : Conversion) : Prop where
  kind : c.kind = .standard
  user : c.user = none

namespace Conversion

variable {c : Conversion}

theorem isStandard_identity : identity.IsStandard := ⟨rfl, rfl⟩

theorem isStandard_derivedToBase (distance : Nat) : (derivedToBase distance).IsStandard := by
  unfold derivedToBase
  split <;> exact ⟨rfl, rfl⟩

/-- What a reference is bound to does not count. -/
theorem IsStandard.withBinding (h : c.IsStandard) (binding : Option ReferenceBinding) :
    { c with binding }.IsStandard := ⟨h.kind, h.user⟩

/-- What is run by copying an object of the target's class does not count. -/
theorem IsStandard.withEffects (h : c.IsStandard) (effects : Effects) :
    { c with effects }.IsStandard := ⟨h.kind, h.user⟩

end Conversion

theorem BaseConversion.isStandard_sequence? {b : BaseConversion} {c : Conversion}
    (h : b.sequence? = .ok c) : c.IsStandard := by
  cases b with
  | reachable distance =>
    cases h
    exact Conversion.isStandard_derivedToBase distance
  | _ => cases h

namespace Program

variable {p : Program} {c : Conversion}

section Standard

theorem isStandard_objectConversion {o : Expr} {cls : Ty} {f : FunctionDecl}
    (h : p.objectConversion o cls f = some c) : c.IsStandard := by
  simp only [objectConversion] at h
  repeat' split at h
  all_goals first
    | cases h; exact (Conversion.isStandard_derivedToBase _).withBinding _
    | cases h

theorem isStandard_pointerConversion {s t : Ty} (h : p.pointerConversion s t = .ok c) :
    c.IsStandard := by
  simp only [pointerConversion] at h
  repeat' split at h
  all_goals first
    | exact BaseConversion.isStandard_sequence? h
    | cases h <;> exact ⟨rfl, rfl⟩

theorem isStandard_memberPointerConversion {sc s tc t : Ty}
    (h : p.memberPointerConversion sc s tc t = .ok c) : c.IsStandard := by
  simp only [memberPointerConversion] at h
  repeat' split at h
  all_goals first
    | exact BaseConversion.isStandard_sequence? h
    | cases h <;> exact ⟨rfl, rfl⟩

theorem isStandard_enumConversion {s t : Ty} {k : Builtin} (h : p.enumConversion s t k = .ok c) :
    c.IsStandard := by
  simp only [enumConversion] at h
  repeat' split at h
  all_goals cases h <;> exact ⟨rfl, rfl⟩

theorem isStandard_standardConversion {e : Expr} {t : Ty} {mode : InitMode}
    (h : p.standardConversion e t mode = .ok c) : c.IsStandard := by
  simp only [standardConversion] at h
  repeat' split at h
  all_goals first
    | exact isStandard_pointerConversion h
    | exact isStandard_memberPointerConversion h
    | exact isStandard_enumConversion h
    | cases h <;> exact ⟨rfl, rfl⟩

/-- Binding to a function or to an object of a related type runs nothing. -/
theorem isStandard_bindAtOnce? {source : Expr} {referent : Ty} {isRvalueRef : Bool}
    (h : p.bindAtOnce? source referent isRvalueRef = some (.ok c)) : c.IsStandard := by
  unfold bindAtOnce? at h
  split at h
  · have hbound := Option.some.inj h
    unfold bindFunction at hbound
    split at hbound
    · exact isStandard_standardConversion hbound
    · cases hbound
  · obtain ⟨relation, _, hbound⟩ := Option.map_eq_some_iff.mp h
    obtain ⟨sequence, binding, hsequence, rfl⟩ := bindRelated_eq_ok hbound
    exact (BaseConversion.isStandard_sequence? hsequence).withBinding _

variable {convert : ConvertArgument} {source : Expr} {target : Ty} {mode : InitMode}

/-- A conversion to a class that tries no function of an unrelated class is standard. -/
theorem isStandard_or_of_relatedConversion {unrelated : Record → Check Conversion}
    (h : (p.relatedConversion convert unrelated source target mode).Returns c) :
    c.IsStandard ∨
      ∃ r, p.completeRecord? target.unqualified = some r ∧ (unrelated r).Returns c := by
  obtain ⟨r, hr, ⟨_, rfl | ⟨distance, s, _, rfl⟩⟩ | ⟨_, h⟩⟩ := relatedConversion_returns h
  · exact Or.inl Conversion.isStandard_identity
  · exact Or.inl ((Conversion.isStandard_derivedToBase distance).withEffects _)
  · exact Or.inr ⟨r, hr, h⟩

theorem isStandard_directClassConversion
    (h : (p.directClassConversion convert source target mode).Returns c) : c.IsStandard := by
  rcases isStandard_or_of_relatedConversion h with hstandard | ⟨r, _, h⟩
  · exact hstandard
  · simp at h

/-- A property of the conversions that run a function of the user: of the three ways to find one,
with nested checks at any depth, and of a reference to the temporary that it gives. -/
structure OfUser (p : Program) (P : Expr → Ty → InitMode → Conversion → Prop) : Prop where
  toClass : ∀ {depth source target mode c r}, target.isRecord = true →
    p.completeRecord? target.unqualified = some r →
    (p.unrelatedConversion (p.checkerBelow depth).convert source target mode r).Returns c →
    P source target mode c
  fromClass : ∀ {depth source target mode c},
    (p.conversionFromClass (p.checkerBelow depth).convert source target mode).Returns c →
    P source target mode c
  toReference : ∀ {depth source target mode c referent isRvalueRef wantLvalue toRvalue},
    target.referent? = some (referent, isRvalueRef) →
    (p.bindThroughFunction (p.checkerBelow depth).convert source referent.unqualified referent.cv
      wantLvalue toRvalue mode).Returns c →
    P source target mode c
  toTemporary : ∀ {source target mode c referent isRvalueRef} binding,
    target.referent? = some (referent, isRvalueRef) →
    P source (referent.unqualified.qualify referent.cv) .copy c →
    P source target mode { c with binding }

section Depth

variable {P : Expr → Ty → InitMode → Conversion → Prop} {allowUser : Bool} {depth : Nat}

/-- A conversion is standard or, if that is allowed, runs a function of the user, when the bindings
one level deeper do. -/
theorem OfUser.standard_or_of_convertStep (hP : p.OfUser P)
    (hbind : ∀ source target mode c,
      ((p.checkerBelow depth).bindReference source target mode allowUser).Returns c →
        c.IsStandard ∨ allowUser = true ∧ P source target mode c)
    (h : (p.convertStep (p.checkerBelow depth) source target mode allowUser).Returns c) :
    c.IsStandard ∨ allowUser = true ∧ P source target mode c := by
  unfold convertStep at h
  split at h
  · exact hbind _ _ _ _ h
  · split at h
    · simp at h
    · split at h
      · rename_i htarget
        unfold classConversion at h
        split at h
        · rename_i hallowed
          refine (isStandard_or_of_relatedConversion h).imp_right ?_
          rintro ⟨r, hr, h⟩
          exact ⟨hallowed, hP.toClass htarget hr h⟩
        · exact Or.inl (isStandard_directClassConversion h)
      · split at h
        · split at h
          · rename_i hallowed
            exact Or.inr ⟨hallowed, hP.fromClass h⟩
          · simp at h
        · exact Or.inl (isStandard_standardConversion (Check.returns_ofFormed.mp h))

/-- So does the binding of a reference, when the conversions one level deeper do. -/
theorem OfUser.standard_or_of_bindReferent (hP : p.OfUser P) {referent : Ty} {isRvalueRef : Bool}
    (hreferent : target.referent? = some (referent, isRvalueRef))
    (hconvert : ∀ source target mode c,
      ((p.checkerBelow depth).convert source target mode allowUser).Returns c →
        c.IsStandard ∨ allowUser = true ∧ P source target mode c)
    (h : (p.bindReferent (p.checkerBelow depth).convert source referent isRvalueRef mode
      allowUser).Returns c) :
    c.IsStandard ∨ allowUser = true ∧ P source target mode c := by
  cases hatOnce : p.bindAtOnce? source referent isRvalueRef with
  | some bound =>
    rw [bindReferent_of_atOnce hatOnce, Check.returns_ofFormed] at h
    exact Or.inl (isStandard_bindAtOnce? (hatOnce.trans (congrArg some h)))
  | none =>
    rw [bindReferent_of_unrelated hatOnce] at h
    rcases bindUnrelated_returns h with ⟨hallowed, wantLvalue, toRvalue, h⟩ | h
    · exact Or.inr ⟨hallowed, hP.toReference hreferent h⟩
    · obtain ⟨found, hfound, h⟩ := Check.Returns.bind h
      rw [Check.returns_pure] at h
      subst h
      rcases hconvert _ _ _ _ hfound with hstandard | ⟨hallowed, hfound⟩
      · exact Or.inl (hstandard.withBinding _)
      · exact Or.inr ⟨hallowed, hP.toTemporary _ hreferent hfound⟩

/-- A conversion is standard or, if that is allowed, runs a function of the user, at every depth,
and so is the binding of a reference. -/
theorem OfUser.standard_or (hP : p.OfUser P) (allowUser : Bool) (depth : Nat) :
    (∀ source target mode c,
      ((p.checkerBelow depth).convert source target mode allowUser).Returns c →
        c.IsStandard ∨ allowUser = true ∧ P source target mode c) ∧
    ∀ source target mode c,
      ((p.checkerBelow depth).bindReference source target mode allowUser).Returns c →
        c.IsStandard ∨ allowUser = true ∧ P source target mode c := by
  induction depth with
  | zero => simp [checkerBelow, Checker.closed]
  | succ depth ih =>
    obtain ⟨hconvert, hbind⟩ := ih
    refine ⟨fun source target mode c h => hP.standard_or_of_convertStep hbind h.guarded,
      fun source target mode c h => ?_⟩
    cases hreferent : target.referent? with
    | none => simp [checkerBelow, checkerStep, hreferent] at h
    | some parts =>
      rw [bindReference_eq hreferent] at h
      exact hP.standard_or_of_bindReferent hreferent hconvert h.guarded

end Depth

/-- Without a function of the user a conversion is standard at every depth. -/
theorem isStandard_of_convert {depth : Nat}
    (h : ((p.checkerBelow depth).convert source target mode false).Returns c) : c.IsStandard := by
  have hany : p.OfUser fun _ _ _ _ => True := by
    constructor <;> intros <;> trivial
  rcases (hany.standard_or false depth).1 _ _ _ _ h with hstandard | ⟨hallowed, -⟩
  · exact hstandard
  · cases hallowed

end Standard

end Program

/-- What a call of a candidate gives: an object of the class for a constructor, and what its result
type tells for any other function. -/
def Candidate.returned (c : Candidate) : Expr :=
  if c.id.set = .constructor then .prvalue (.record c.id.record)
  else .callResult c.function.result

namespace Program

/-- The conversion that takes what a function of the user gave to the target of the
initialization. -/
inductive GoesOn (p : Program) (convert : ConvertArgument) (result : Expr) :
    Ty → InitMode → Conversion → Prop
  /-- A constructor gives an object of the target's class. -/
  | constructed {target : Ty} {mode : InitMode} (h : result = .prvalue target.unqualified) :
    GoesOn p convert result target mode .identity
  | toClass {target : Ty} {mode : InitMode} {c : Conversion}
    (h : (p.directClassConversion convert result target .copy).Returns c) :
    GoesOn p convert result target mode c
  | toValue {target : Ty} {mode : InitMode} {c : Conversion}
    (h : p.standardConversion result target mode = .ok c) : GoesOn p convert result target mode c
  /-- A reference is bound to the result or to a base of it. -/
  | bound {target referent : Ty} {isRvalueRef : Bool} {mode : InitMode}
    {relation : BaseConversion} {distance : Nat} {binding : Option ReferenceBinding}
    (htarget : target.referent? = some (referent, isRvalueRef))
    (hrelation :
      p.referenceRelation referent.unqualified result.type.unqualified = some relation)
    (hdistance : relation.distance? = some distance)
    (hcovers : referent.cv.covers result.type.cv = true) :
    GoesOn p convert result target mode { Conversion.derivedToBase distance with binding }
  /-- A reference is bound to a temporary that is initialized from the result. -/
  | temporary {target referent : Ty} {isRvalueRef : Bool} {mode : InitMode} {c : Conversion}
    {binding : Option ReferenceBinding}
    (htarget : target.referent? = some (referent, isRvalueRef))
    (h : GoesOn p convert result (referent.unqualified.qualify referent.cv) .copy c) :
    GoesOn p convert result target mode { c with binding }

variable {p : Program} {convert : ConvertArgument} {target : Ty} {mode : InitMode} {c : Conversion}

theorem GoesOn.isStandard {result : Expr} (h : p.GoesOn convert result target mode c) :
    c.IsStandard := by
  induction h with
  | constructed => exact Conversion.isStandard_identity
  | toClass h => exact isStandard_directClassConversion h
  | toValue h => exact isStandard_standardConversion h
  | bound => exact (Conversion.isStandard_derivedToBase _).withBinding _
  | temporary _ _ ih => exact ih.withBinding _

/-- A constructor or conversion function of a complete record, with how the conversion to the
target goes on after a call of it. -/
structure Converting (p : Program) (convert : ConvertArgument) (target : Ty) (mode : InitMode)
    (c : Candidate) : Prop where
  set : c.id.set = .constructor ∨ c.id.set = .conversion
  declared : ∃ r, p.record? c.id.record = some r ∧ r.complete = true ∧
    (r.functions c.id.set)[c.id.index]? = some c.function
  goesOn : p.GoesOn convert c.returned target mode (c.result.getD .identity)

/-- How a user-defined conversion came about: one candidate was selected for the source, the
conversions of its arguments and those of its competitors are standard or match an ellipsis, and
so is the conversion of what it gives. -/
structure UserDefined (p : Program) (source : Expr) (target : Ty) (mode : InitMode)
    (c : Conversion) where
  depth : Nat
  candidates : List Candidate
  selection : Selection
  second : Conversion
  selected : (p.resolve (p.checkerBelow depth).convert candidates (some source) [source]
    false).Returns selection
  eq : c = .userDefined selection.candidate.id second selection.effects
  mem : selection.candidate ∈ candidates
  set : selection.candidate.id.set = .constructor ∨ selection.candidate.id.set = .conversion
  declared : ∃ r, p.record? selection.candidate.id.record = some r ∧ r.complete = true ∧
    (r.functions selection.candidate.id.set)[selection.candidate.id.index]? =
      some selection.candidate.function
  arguments : ∀ candidate ∈ candidates, ∀ conversions,
    (p.viableConversions (p.checkerBelow depth).convert (some source) [source] false
      candidate).Returns (some conversions) →
    ∀ conversion, some conversion ∈ conversions →
      conversion.IsStandard ∨ conversion = .ellipsis
  goesOn : p.GoesOn (p.checkerBelow depth).convert selection.candidate.returned target mode second
  second_isStandard : second.IsStandard

variable {source : Expr} {depth : Nat}

/-- The arguments of a viable candidate are converted without a function of the user. -/
theorem isStandard_of_viableConversions {object : Option Expr} {args : List Expr}
    {candidate : Candidate} {conversions : List (Option Conversion)}
    (h : (p.viableConversions (p.checkerBelow depth).convert object args false
      candidate).Returns (some conversions)) {conversion : Conversion}
    (hmem : some conversion ∈ conversions) :
    conversion.IsStandard ∨ conversion = .ellipsis := by
  rcases viableConversions_returns h conversion hmem with
    ⟨o, cls, _, _, hobject⟩ | hellipsis | ⟨arg, _, param, _, hargument⟩
  · exact Or.inl (isStandard_objectConversion hobject)
  · exact Or.inr hellipsis
  · exact Or.inl (isStandard_of_convert hargument)

theorem userDefined_of_converting {candidates : List Candidate}
    (hcandidates : ∀ candidate ∈ candidates,
      p.Converting (p.checkerBelow depth).convert target mode candidate)
    (h : (p.userDefinedConversion (p.checkerBelow depth).convert candidates source).Returns c) :
    Nonempty (p.UserDefined source target mode c) := by
  obtain ⟨s, hs, rfl⟩ := userDefinedConversion_returns h
  obtain ⟨candidate, hmem, conversions, _, hselect⟩ := resolve_returns hs
  obtain ⟨_, _, rfl⟩ := Candidate.select_eq_ok_iff.mp hselect
  have hconverting := hcandidates candidate hmem
  exact ⟨{
    depth, candidates
    selection := _
    second := _
    selected := hs
    eq := rfl
    mem := hmem
    set := hconverting.set
    declared := hconverting.declared
    arguments := fun _ _ _ hviable _ hconversion =>
      isStandard_of_viableConversions hviable hconversion
    goesOn := hconverting.goesOn
    second_isStandard := hconverting.goesOn.isStandard }⟩

/-- A temporary that a function of the user gave is bound to the reference. -/
theorem UserDefined.bindTemporary {referent : Ty} {isRvalueRef : Bool}
    (htarget : target.referent? = some (referent, isRvalueRef))
    (u : p.UserDefined source (referent.unqualified.qualify referent.cv) .copy c)
    (binding : Option ReferenceBinding) :
    Nonempty (p.UserDefined source target mode { c with binding }) :=
  ⟨{ u with
    second := { u.second with binding }
    eq := congrArg (fun c : Conversion => { c with binding }) u.eq
    goesOn := .temporary htarget u.goesOn
    second_isStandard := u.second_isStandard.withBinding binding }⟩

/-- Each record has the number under which the program keeps it. -/
def Numbered (p : Program) : Prop := ∀ id r, p.record? id = some r → r.id = id

section Converting

variable (hp : p.Numbered)
include hp

theorem Numbered.completeRecord? {t : Ty} {r : Record} (h : p.completeRecord? t = some r) :
    t.recordId? = some r.id ∧ p.record? r.id = some r ∧ r.complete = true := by
  obtain ⟨hr, hcomplete⟩ := Option.filter_eq_some_iff.mp h
  obtain ⟨id, hid, hr⟩ := Option.bind_eq_some_iff.mp hr
  cases hp id r hr
  exact ⟨hid, hr, hcomplete⟩

/-- A function found in a complete record is declared in it. -/
theorem declared_of_mem_candidates {t : Ty} {r : Record} (hr : p.completeRecord? t = some r)
    {set : FunctionSet} {object : Option Ty} {candidate : Candidate}
    (hmem : candidate ∈ r.candidates set mode object) :
    ∃ r, p.record? candidate.id.record = some r ∧ r.complete = true ∧
      (r.functions candidate.id.set)[candidate.id.index]? = some candidate.function := by
  obtain ⟨hrecord, hfunction⟩ := Record.place_of_mem_candidates hmem
  obtain ⟨_, hr, hcomplete⟩ := hp.completeRecord? hr
  refine ⟨r, hrecord ▸ hr, hcomplete, ?_⟩
  rw [(Record.mem_candidates hmem).2.2.2.1]
  exact hfunction

/-- Conversion functions that are accepted with a conversion of what they give. -/
theorem converting_of_conversionCandidates {owner : Ty} {ownerMode : InitMode}
    {accept : FunctionDecl → Check (Option Conversion)} {candidates : List Candidate}
    (haccept : ∀ f c, (accept f).Returns (some c) →
      p.GoesOn convert (Expr.callResult f.result) target mode c)
    (h : (conversionCandidates (p.conversionOwners owner) ownerMode accept).Returns
      candidates) :
    ∀ candidate ∈ candidates, p.Converting convert target mode candidate := by
  intro candidate hmem
  obtain ⟨visible, hvisible, result, hresult, rfl⟩ := conversionCandidates_returns h _ hmem
  obtain ⟨place, hplace, hmem⟩ := mem_visibleConversions hvisible
  obtain ⟨t, ht⟩ := mem_conversionOwners hplace
  have hset := (Record.mem_candidates hmem).2.2.2.1
  have hdeclared := declared_of_mem_candidates hp ht hmem
  refine ⟨Or.inr hset, hdeclared, ?_⟩
  rw [Candidate.returned, if_neg (by simp [hset])]
  exact haccept _ _ hresult

theorem userDefined_of_conversionFromClass
    (h : (p.conversionFromClass (p.checkerBelow depth).convert source target mode).Returns c) :
    Nonempty (p.UserDefined source target mode c) := by
  obtain ⟨candidates, hcandidates, h⟩ := Check.Returns.bind h
  refine userDefined_of_converting (converting_of_conversionCandidates hp ?_ hcandidates) h
  intro f conversion hf
  rw [Check.returns_pure] at hf
  cases hs : p.standardConversion (Expr.callResult f.result) target mode with
  | error e => simp [hs, Except.toOption] at hf
  | ok found =>
    rw [hs] at hf
    cases hf
    exact .toValue hs

theorem userDefined_of_bindThroughFunction {referent : Ty} {isRvalueRef : Bool}
    {wantLvalue toRvalue : Bool} (htarget : target.referent? = some (referent, isRvalueRef))
    (h : (p.bindThroughFunction (p.checkerBelow depth).convert source referent.unqualified
      referent.cv wantLvalue toRvalue mode).Returns c) :
    Nonempty (p.UserDefined source target mode c) := by
  obtain ⟨candidates, hcandidates, h⟩ := Check.Returns.bind h
  refine userDefined_of_converting (converting_of_conversionCandidates hp ?_ hcandidates) h
  intro f conversion hf
  dsimp only at hf
  split at hf
  · simp at hf
  · rename_i hbinds
    simp only [Bool.or_eq_true, not_or, Bool.not_eq_true', Bool.not_eq_false] at hbinds
    rw [Check.returns_pure] at hf
    obtain ⟨distance, hdistance, rfl⟩ := Option.map_eq_some_iff.mp hf
    obtain ⟨relation, hrelation, hdistance⟩ := Option.bind_eq_some_iff.mp hdistance
    exact .bound htarget hrelation hdistance hbinds.2

theorem userDefined_of_unrelatedConversion {r : Record} (htarget : target.isRecord = true)
    (hr : p.completeRecord? target.unqualified = some r)
    (h : (p.unrelatedConversion (p.checkerBelow depth).convert source target mode r).Returns
      c) :
    Nonempty (p.UserDefined source target mode c) := by
  obtain ⟨id, hid⟩ := Option.isSome_iff_exists.mp htarget
  have hcls := Ty.unqualified_of_recordId? hid
  obtain ⟨functions, hfunctions, h⟩ := Check.Returns.bind h
  refine userDefined_of_converting ?_ h
  intro candidate hmem
  rcases List.mem_append.mp hmem with hmem | hmem
  · replace hmem := (List.mem_filter.mp hmem).1
    obtain ⟨_, hresult, _, hset, _⟩ := Record.mem_candidates hmem
    refine ⟨Or.inl hset, declared_of_mem_candidates hp hr hmem, ?_⟩
    rw [hresult]
    refine .constructed ?_
    have hnumber := (hp.completeRecord? hr).1
    rw [hcls] at hnumber
    rw [Candidate.returned, if_pos hset, (Record.place_of_mem_candidates hmem).1, hcls,
      Option.some.inj hnumber]
  · refine converting_of_conversionCandidates hp ?_ hfunctions candidate hmem
    intro f conversion hf
    dsimp only at hf
    split at hf
    · simp at hf
    · rw [hcls] at hf
      have hsame : p.directClassConversion (p.checkerBelow depth).convert
          (Expr.callResult f.result) (.record id) .copy =
            p.directClassConversion (p.checkerBelow depth).convert
              (Expr.callResult f.result) target .copy := by
        unfold directClassConversion relatedConversion
        rw [hcls]
        rfl
      exact .toClass (hsame ▸ hf.attempt)

/-- What runs a function of the user runs one, between standard conversions. -/
theorem ofUser_userDefined :
    p.OfUser fun source target mode c => Nonempty (p.UserDefined source target mode c) where
  toClass htarget hr h := userDefined_of_unrelatedConversion hp htarget hr h
  fromClass h := userDefined_of_conversionFromClass hp h
  toReference hreferent h := userDefined_of_bindThroughFunction hp hreferent h
  toTemporary binding hreferent := by
    rintro ⟨u⟩
    exact u.bindTemporary hreferent binding

end Converting

end Program

namespace Development

variable {d : Development}

/-- At most one function of the user takes part in a conversion, at every depth of nested checks:
none where it is not allowed, and otherwise one constructor or conversion function, with standard
conversions before and after it. -/
theorem one_user_conversion (hd : d.Reachable) (depth : Nat) (source : Expr) (target : Ty)
    (mode : InitMode) (c : Conversion) :
    (((d.program.checkerOfDepth depth).convert source target mode false).Returns c →
      c.kind = .standard ∧ c.user = none) ∧
    ∀ allowUser,
      ((d.program.checkerOfDepth depth).convert source target mode allowUser).Returns c →
        c.kind = .userDefined → Nonempty (d.program.UserDefined source target mode c) := by
  rw [Program.checkerOfDepth_eq]
  constructor
  · intro h
    have hstandard := Program.isStandard_of_convert h
    exact ⟨hstandard.kind, hstandard.user⟩
  · intro allowUser h hkind
    have hone := (Program.ofUser_userDefined hd.valid.id).standard_or allowUser (depth + 1)
    rcases hone.1 _ _ _ _ h with hstandard | ⟨-, huser⟩
    · simp [hstandard.kind] at hkind
    · exact huser

/-- A class that is made from a number, and one that is made from the first. -/
def wrappedTwice : Development :=
  run .lp64
    [.start "Number" .struct,
      .write ⟨1⟩ (.constructor (.declare [.builtin .long] .void [])),
      .finish ⟨1⟩,
      .start "Text" .struct,
      .write ⟨2⟩ (.constructor (.declare [.record ⟨1⟩] .void [])),
      .finish ⟨2⟩]

/-- A reference is bound to a temporary that one constructor makes of a number; two are not
chained. -/
theorem one_user_conversion_wrappedTwice :
    wrappedTwice.Reachable ∧
    (∃ c, c.kind = .userDefined ∧ c.user = some ⟨⟨1⟩, .constructor, 0⟩ ∧
      (wrappedTwice.program.convert (.prvalue (.builtin .int))
        (.lvalueRef (.qualified (.record ⟨1⟩) .const)) .copy).result = .ok c ∧
      Nonempty (wrappedTwice.program.UserDefined (.prvalue (.builtin .int))
        (.lvalueRef (.qualified (.record ⟨1⟩) .const)) .copy c)) ∧
    (wrappedTwice.program.convert (.prvalue (.builtin .int)) (.record ⟨2⟩) .direct).result =
      .error .noViableFunction := by
  have hreachable : wrappedTwice.Reachable := by
    refine reachable_run ?_
    intro a ha
    simp only [List.mem_cons, List.not_mem_nil, or_false] at ha
    rcases ha with rfl | rfl | rfl | rfl | rfl | rfl
    all_goals first
      | trivial
      | exact RecordStep.isWritten_of_declare rfl (by decide)
  have hconverts : (wrappedTwice.program.convert (.prvalue (.builtin .int))
      (.lvalueRef (.qualified (.record ⟨1⟩) .const)) .copy).result = .ok
        { kind := .userDefined
          effects := ⟨false, false⟩
          binding := some ⟨false, .record ⟨1⟩, .const, false, true⟩
          user := some ⟨⟨1⟩, .constructor, 0⟩ } := by
    decide +kernel
  refine ⟨hreachable, ⟨_, rfl, rfl, hconverts, ?_⟩, by decide +kernel⟩
  exact (one_user_conversion hreachable Limits.initializationDepth _ _ _ _).2 true
    (.of_result hconverts) rfl

end Development

end TypeTraits
