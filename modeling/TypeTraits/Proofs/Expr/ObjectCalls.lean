import TypeTraits.Proofs.Expr.Effects
import TypeTraits.Proofs.Expr.ParameterConversions
import TypeTraits.Proofs.Ty.Levels

/-!
# Calling an object

An object with one call operator is called as the operator is through a pointer to it: the
qualifiers of the operator admit the same objects, and the arguments are converted to the parameters
as the operator declares them. The function type behind a pointer has its parameters adjusted, which
only matters for arrays and functions, to which nothing converts, and for qualified classes. The
call finds the operator in the class of the object alone, and finds none in a union; a pointer to
the operator takes unions and objects of derived classes as well.
-/

namespace TypeTraits

/-- The signature of the function, with the parameters as they are declared. -/
def FunctionDecl.signature (f : FunctionDecl) : Signature :=
  ⟨f.result, f.params, ⟨f.variadic, f.cv, f.ref, f.noexcept⟩⟩

/-- A member function with these qualifiers may be called on the object. -/
def FunctionQualifiers.admits (q : FunctionQualifiers) (object : Expr) : Bool :=
  q.cv.covers object.type.cv &&
    match q.ref with
    | .none => true
    | .lvalue => !(object.isRvalue && q.cv != .const)
    | .rvalue => !object.isLvalue

/-- The function is the only call operator of the record, and code outside may call it. -/
structure Record.CallsOnly (r : Record) (f : FunctionDecl) : Prop where
  operators : r.callOperators = [f]
  access : f.access = .pub
  deleted : f.deleted = false
  explicit : f.explicit = false
  hidden : f.hidden = false

/-- The result of a well-formed call, and whether the call cannot throw. -/
def Check.outcome (c : Check (Expr × Effects)) : Option (Expr × Bool) :=
  c.result.toOption.map fun call => (call.1, call.2.nothrow)

@[simp] theorem Check.outcome_throw (e : Inapplicable) :
    (throw e : Check (Expr × Effects)).outcome = none := rfl

namespace Program

variable {p : Program} {object : Expr} {args : List Expr} {f : FunctionDecl} {cls t : Ty}

/-! ### A call of one function -/

/-- The conversions of the arguments to the parameters of a function that takes so many. -/
def passArguments (p : Program) (f : FunctionDecl) (args : List Expr) :
    Check (Option (List (Option Conversion))) :=
  if args.length < f.params.length || (args.length > f.params.length && !f.variadic) then
    return none
  else argumentConversions p.checker.convert true args f.params

/-- What a call of the function comes to where its object is admitted. -/
def callOutcome (p : Program) (f : FunctionDecl) (args : List Expr) : Option (Expr × Bool) :=
  (p.passArguments f args).result.toOption.join.map fun conversions =>
    (Expr.callResult f.result, (conversions.filterMap id).foldl
      (fun nothrow conversion => nothrow && conversion.effects.nothrow) f.noexcept)

theorem resolve_singleton (convert : ConvertArgument) (c : Candidate) (object : Option Expr)
    (args : List Expr) (allowUser : Bool) :
    p.resolve convert [c] object args allowUser =
      p.viableConversions convert object args allowUser c >>= fun
        | none => throw .noViableFunction
        | some conversions => Check.ofFormed (c.select conversions) := by
  unfold resolve
  simp only [List.filterMapM_cons, List.filterMapM_nil, bind_assoc, pure_bind]
  refine congrArg _ (funext fun conversions => ?_)
  cases conversions <;> rfl

/-- The binding of an object to the object parameter of a candidate, if it has one. -/
def boundObject (p : Program) (object : Option Expr) (c : Candidate) : Option Conversion :=
  object.bind fun o => c.object.bind fun cls => p.objectConversion o cls c.function

theorem viableConversions_eq {c : Candidate} (hset : c.id.set ≠ .conversion)
    (object : Option Expr) (args : List Expr) :
    p.viableConversions p.checker.convert object args true c =
      if c.object.isSome && (p.boundObject object c).isNone then pure none
      else p.passArguments c.function args >>= fun conversions =>
        pure (conversions.map (p.boundObject object c :: ·)) := by
  unfold viableConversions passArguments
  simp only [if_neg hset]
  change (if _ then pure none else if (c.object.isSome && (p.boundObject object c).isNone) = true
    then pure none else _) = _
  split_ifs <;> rfl

theorem nothrow_foldl_and (conversions : List Conversion) (e : Effects) :
    (conversions.foldl (fun e conversion => e.and conversion.effects) e).nothrow =
      conversions.foldl (fun nothrow conversion => nothrow && conversion.effects.nothrow)
        e.nothrow := by
  induction conversions generalizing e with
  | nil => rfl
  | cons conversion conversions ih => exact ih _

/-- The binding of the object does not throw. -/
theorem nothrow_callEffects {c : Candidate} (hresult : c.result = none) (object : Option Expr)
    (conversions : List (Option Conversion)) :
    (c.callEffects (p.boundObject object c :: conversions)).nothrow =
      (conversions.filterMap id).foldl
        (fun nothrow conversion => nothrow && conversion.effects.nothrow) c.function.noexcept := by
  unfold Candidate.callEffects
  rw [hresult]
  refine (nothrow_foldl_and _ _).trans ?_
  cases hbound : p.boundObject object c with
  | none => rfl
  | some bound =>
    obtain ⟨_, -, hbound⟩ := Option.bind_eq_some_iff.mp hbound
    obtain ⟨_, -, hbound⟩ := Option.bind_eq_some_iff.mp hbound
    simp only [List.filterMap_cons, List.foldl_cons, effects_objectConversion hbound, Effects.none,
      Bool.and_true]
    rfl

/-- A call with one candidate that may be called, where the candidate's object, if it has one, is
bound. -/
theorem outcome_of_singleton {c : Candidate} {object : Option Expr} {k : Selection → Expr}
    (hset : c.id.set ≠ .conversion) (hresult : c.result = none)
    (husable : c.function.isUsable = true)
    (hk : ∀ effects, k ⟨c, effects⟩ = Expr.callResult c.function.result) :
    Check.outcome (do
      let selection ← p.resolve p.checker.convert [c] object args true
      return (k selection, selection.effects)) =
      if c.object.isSome && (p.boundObject object c).isNone then none
      else p.callOutcome c.function args := by
  obtain ⟨hdeleted, haccess⟩ : c.function.deleted = false ∧ c.function.access = .pub := by
    simpa [FunctionDecl.isUsable] using husable
  have hselect : ∀ conversions, c.select conversions = .ok ⟨c, c.callEffects conversions⟩ :=
    fun conversions => Candidate.select_eq_ok_iff.mpr ⟨hdeleted, haccess, rfl⟩
  rw [resolve_singleton, viableConversions_eq hset]
  split
  · rfl
  · unfold Check.outcome callOutcome Check.result
    simp only [bind_assoc, pure_bind, Check.run_bind]
    rcases (p.passArguments c.function args).run (.fresh .initialization) with
      ⟨_ | _ | conversions, g⟩
    · rfl
    · rfl
    · have hnothrow := nothrow_callEffects (p := p) hresult object conversions
      dsimp only [Option.map_some]
      rw [hselect]
      change some (k _, _) = some (_, _)
      rw [hk, ← hnothrow]

/-- The qualifiers of a call operator admit an object of its class if the object can be bound. -/
theorem objectConversion_own :
    p.objectConversion object object.type.unqualified f =
      if f.signature.quals.admits object then
        some (.objectBinding object.type.unqualified f.cv 0 f.ref object.isRvalue)
      else none := by
  unfold objectConversion FunctionQualifiers.admits
  rw [Ty.splitCv_eq]
  simp only [FunctionDecl.signature, if_true]
  by_cases hcovers : f.cv.covers object.type.cv = true <;> simp only [hcovers] <;> rfl

/-- A call through a pointer to member function. -/
theorem outcome_memberCall {s : Signature} (hs : t.signature? = some s) :
    (p.memberCall object (.memberPointer cls t) args).outcome =
      if p.isReceiver object cls && s.quals.admits object then p.callOutcome s.toFunction args
      else none := by
  have hparts : (Ty.memberPointer cls t).memberPointerParts? = some (cls, t) := rfl
  have hcall : (p.callSignature s args).outcome = p.callOutcome s.toFunction args :=
    outcome_of_singleton (by simp [Candidate.library]) rfl rfl fun _ => rfl
  unfold memberCall FunctionQualifiers.admits
  simp only [hparts, hs]
  by_cases hreceiver : p.isReceiver object cls = true
  · by_cases hcovers : s.quals.cv.covers object.type.cv = true
    · cases s.quals.ref with
      | none => simp [hreceiver, hcovers, hcall]
      | lvalue =>
        by_cases hrvalue : (object.isRvalue && s.quals.cv != .const) = true <;>
          simp [hreceiver, hcovers, hrvalue, hcall]
      | rvalue =>
        by_cases hlvalue : object.isLvalue = true <;>
          simp [hreceiver, hcovers, hlvalue, hcall]
    · simp [hreceiver, hcovers]
  · simp [hreceiver]

/-! ### The call operator of a class -/

theorem calledFunction?_of_recordId? {c : RecordId} (h : t.recordId? = some c) :
    calledFunction? t = none := by
  cases t with
  | qualified t _ => cases t <;> cases h; rfl
  | record _ => rfl
  | _ => cases h

/-- The call operator as a candidate for objects of its class. -/
def operatorCandidate (r : Record) (f : FunctionDecl) (cls : Ty) : Candidate :=
  { id := ⟨r.id, .call, 0⟩, function := f, object := some cls }

theorem candidates_of_callsOnly {r : Record} (h : r.CallsOnly f) (cls : Ty) :
    r.candidates .call .copy (some cls) = [operatorCandidate r f cls] := by
  simp [Record.candidates, Record.functions, h.operators, h.hidden, h.explicit, operatorCandidate]

/-- A call of an object of a class with one call operator. -/
theorem outcome_call {c : RecordId} {r : Record} (hobject : object.type.recordId? = some c)
    (hr : p.completeRecord? (.record c) = some r) (hf : r.CallsOnly f) :
    (p.call object args).outcome =
      if !r.isUnion && f.signature.quals.admits object then p.callOutcome f args else none := by
  have hcomplete : p.completeRecord? object.type = some r := by
    rw [← hr]
    simp only [completeRecord?, recordOf?, hobject]
    rfl
  unfold call
  rw [calledFunction?_of_recordId? hobject]
  by_cases hunion : r.isUnion = true
  · have hclass : p.class? object.type = none := by simp [class?, hcomplete, Option.filter, hunion]
    simp [hclass, hunion]
  · have hclass : p.class? object.type = some r := by
      simp [class?, hcomplete, Option.filter, hunion]
    have hcall := @outcome_of_singleton p args (operatorCandidate r f object.type.unqualified)
      (some object) (fun selection => .callResult selection.candidate.function.result)
      (by simp [operatorCandidate]) rfl
      (by simp [operatorCandidate, FunctionDecl.isUsable, hf.access, hf.deleted]) fun _ => rfl
    have hbound : p.boundObject (some object) (operatorCandidate r f object.type.unqualified) =
        if f.signature.quals.admits object then
          some (.objectBinding object.type.unqualified f.cv 0 f.ref object.isRvalue)
        else none := objectConversion_own
    simp only [hclass, candidates_of_callsOnly hf]
    refine hcall.trans ?_
    rw [hbound]
    by_cases hadmits : f.signature.quals.admits object = true
    · simp [operatorCandidate, hunion, hadmits]
    · simp [operatorCandidate, hadmits]

/-- Objects of a class without a call operator of its own are not called. -/
theorem outcome_call_of_noOperators {e : RecordId} {r : Record}
    (hobject : object.type.recordId? = some e) (hr : p.record? e = some r)
    (hnone : r.callOperators = []) : (p.call object args).outcome = none := by
  unfold call
  rw [calledFunction?_of_recordId? hobject]
  cases hclass : p.class? object.type with
  | none => rfl
  | some found =>
    obtain ⟨id, hid, hfound, -⟩ := class?_eq_some.mp hclass
    cases hobject.symm.trans hid
    cases hr.symm.trans hfound
    simp [Record.candidates, Record.functions, hnone]

/-- What the call of a class object with one operator comes to through a pointer to the operator
with the parameters that it declares. -/
theorem outcome_call_eq {c : RecordId} {r : Record} (hobject : object.type.recordId? = some c)
    (hr : p.completeRecord? (.record c) = some r) (hf : r.CallsOnly f)
    (hunion : r.isUnion = false) :
    (p.call object args).outcome =
      (p.memberCall object (.memberPointer (.record c) f.signature.type) args).outcome := by
  have hreceiver : p.isReceiver object (.record c) = true := by
    simp [isReceiver, Ty.unqualified_of_recordId? hobject]
  rw [outcome_call hobject hr hf, outcome_memberCall (s := f.signature) rfl, hreceiver, hunion]
  rfl

/-- A call through a member pointer sees of the object whether it is a receiver, its qualification
and its value category. -/
theorem memberCall_congr {a b : Expr} (hreceiver : p.isReceiver a cls = p.isReceiver b cls)
    (hcv : a.type.cv = b.type.cv) (hcategory : a.category = b.category) :
    p.memberCall a (.memberPointer cls t) args = p.memberCall b (.memberPointer cls t) args := by
  have hparts : (Ty.memberPointer cls t).memberPointerParts? = some (cls, t) := rfl
  unfold memberCall
  simp only [hparts, hreceiver, hcv, Expr.isRvalue, Expr.isLvalue, hcategory]
  rfl

/-- An object is called through a member pointer of a base as its base subobject is. -/
theorem memberCall_of_derived {c : RecordId}
    (hbase : (p.baseConversion object.type.unqualified (.record c)).isReachable = true) :
    p.memberCall object (.memberPointer (.record c) t) args =
      p.memberCall ⟨(Ty.record c).qualify object.type.cv, object.category⟩
        (.memberPointer (.record c) t) args := by
  refine memberCall_congr ?_ ?_ rfl
  · have hclass : ((Ty.record c).qualify object.type.cv).unqualified = .record c :=
      Ty.unqualified_qualify (t := .record c) rfl
    simp [isReceiver, hbase, hclass]
  · have hcv : ((Ty.record c).qualify object.type.cv).cv = ∅ ∪ object.type.cv :=
      Ty.cv_qualify (t := .record c) rfl
    exact (hcv.trans (Cv.empty_union _)).symm

/-! ### The parameters of a pointer to the operator -/

/-- A call of the function comes to the same with its parameters adjusted. -/
theorem callOutcome_asParameter (hparams : ∀ t ∈ f.params, t.PassesAlike) :
    p.callOutcome { f with params := f.params.map Ty.asParameter } args = p.callOutcome f args := by
  have hpass : (p.passArguments { f with params := f.params.map Ty.asParameter } args).result =
      (p.passArguments f args).result := by
    unfold passArguments
    simp only [List.length_map]
    split
    · rfl
    · exact congrArg Prod.fst (run_argumentConversions_asParameter hparams rfl)
  unfold callOutcome
  rw [hpass]

/-- A pointer to the function with its parameters adjusted is called as one with the parameters as
they are declared. -/
theorem outcome_memberCall_functionOf (hparams : ∀ t ∈ f.params, t.PassesAlike) :
    (p.memberCall object (.memberPointer cls (.functionOf f.signature)) args).outcome =
      (p.memberCall object (.memberPointer cls f.signature.type) args).outcome := by
  have hadjusted : (Ty.functionOf f.signature).signature? =
      some { f.signature with params := f.params.map Ty.asParameter } := rfl
  rw [outcome_memberCall hadjusted, outcome_memberCall (s := f.signature) rfl]
  exact congrArg (if p.isReceiver object cls && f.signature.quals.admits object then · else none)
    (callOutcome_asParameter hparams)

/-- A function with an array or a function for a parameter is never called. -/
theorem callOutcome_eq_none (hp : p.ConvertsToNormal) (hargs : ∀ a ∈ args, a.type.isNormal = true)
    (ht : t ∈ f.params) (hkind : t.isArray = true ∨ t.isFunction = true) :
    p.callOutcome f args = none := by
  have hpass : ∀ conversions, (p.passArguments f args).result ≠ .ok (some conversions) := by
    intro conversions hresult
    have hreturns := Check.Returns.of_result hresult
    unfold passArguments at hreturns
    split at hreturns
    · simp at hreturns
    · rename_i harity
      simp only [Bool.or_eq_true, decide_eq_true_eq, not_or, Nat.not_lt] at harity
      rw [checker_eq] at hreturns
      obtain ⟨i, hi, rfl⟩ := List.mem_iff_getElem.mp ht
      have hi' : i < args.length := by omega
      have hpair : (args[i], f.params[i]) ∈ args.zip f.params := by
        rw [← List.getElem_zip (h := by simp [hi, hi'])]
        exact List.getElem_mem _
      obtain ⟨c, hc⟩ := argumentConversions_converts hreturns _ hpair
      exact not_convert_returns hp (hargs _ (List.getElem_mem hi')) hkind hc
  unfold callOutcome
  rcases hresult : (p.passArguments f args).result with _ | _ | conversions
  · rfl
  · rfl
  · exact absurd hresult (hpass conversions)

end Program

namespace Development

variable {d : Development}

/-- Calling an object and calling its operator. For a class with one call operator, an object of the
class is called as the operator is through a member pointer whose function has the parameters that
the operator declares: with the same result, if there is one, and with the same promise not to
throw. The pointer whose parameters are adjusted does the same as long as no parameter is an array,
a function or a qualified class; an operator that declares an array or a function is never called on
an object. Objects of unions are never called, nor are those of a class without an operator of its
own that derives from the one with the operator; the pointer takes the latter as it takes their base
subobjects. -/
theorem call_by_operator (h : d.Reachable) {c : RecordId} {r : Record} {f : FunctionDecl}
    (hr : d.program.completeRecord? (.record c) = some r) (hf : r.CallsOnly f) :
    (∀ object args, object.type.recordId? = some c → (∀ a ∈ args, a.type.IsFormed) →
      (r.isUnion = true ∨ (∃ t ∈ f.params, t.isArray = true ∨ t.isFunction = true) →
        (d.program.call object args).outcome = none) ∧
      (r.isUnion = false → (d.program.call object args).outcome =
        (d.program.memberCall object (.memberPointer (.record c) f.signature.type) args).outcome) ∧
      (r.isUnion = false → (∀ t ∈ f.params, t.isArray = false ∧ t.isFunction = false ∧
          (t.isRecord = true → t.cv = ∅)) →
        (d.program.call object args).outcome =
          (d.program.memberCall object (.memberPointer (.record c) (.functionOf f.signature))
            args).outcome)) ∧
    ∀ object args e derived, object.type.recordId? = some e → d.program.record? e = some derived →
      derived.callOperators = [] →
      (d.program.baseConversion (.record e) (.record c)).isReachable = true →
        (d.program.call object args).outcome = none ∧
        ∀ member, d.program.memberCall object (.memberPointer (.record c) member) args =
          d.program.memberCall ⟨(Ty.record c).qualify object.type.cv, object.category⟩
            (.memberPointer (.record c) member) args := by
  constructor
  · intro object args hobject hargs
    refine ⟨fun hnever => ?_, fun hunion => ?_, fun hunion hparams => ?_⟩
    · rw [Program.outcome_call hobject hr hf]
      obtain hunion | ⟨t, ht, hkind⟩ := hnever
      · simp [hunion]
      · have hargs : ∀ a ∈ args, a.type.isNormal = true :=
          fun a ha => Ty.isFormed_iff_isNormal.mp (hargs a ha)
        simp [Program.callOutcome_eq_none h.convertsToNormal hargs ht hkind]
    · exact Program.outcome_call_eq hobject hr hf hunion
    · have hnormal := h.isNormal_operators hr f (by simp [hf.operators])
      rw [Program.outcome_call_eq hobject hr hf hunion,
        Program.outcome_memberCall_functionOf fun t ht => ?_]
      obtain ⟨harray, hfunction, hclass⟩ := hparams t ht
      exact ⟨hnormal t (List.mem_append_left _ ht), harray, hfunction, hclass⟩
  · intro object args e derived hobject he hnone hbase
    refine ⟨Program.outcome_call_of_noOperators hobject he hnone, fun member => ?_⟩
    refine Program.memberCall_of_derived ?_
    rwa [Ty.unqualified_of_recordId? hobject]

/-- The operator `bool operator()(const int, double&) const & noexcept`. -/
def constantOperator : FunctionDecl :=
  .declare [.qualified (.builtin .int) .const, .lvalueRef (.builtin .double)] (.builtin .bool)
    [.cv .const, .ref .lvalue, .noexcept]

/-- A class with a call operator and a class derived from it. -/
def derivedFunctor : Development :=
  run .lp64
    [.start "Functor" .struct,
      .write ⟨1⟩ (.callOperator constantOperator),
      .finish ⟨1⟩,
      .start "Derived" .struct,
      .write ⟨2⟩ (.base (.record ⟨1⟩)),
      .finish ⟨2⟩]

theorem reachable_derivedFunctor : derivedFunctor.Reachable := by
  refine reachable_run ?_
  intro a ha
  simp only [List.mem_cons, List.not_mem_nil, or_false] at ha
  rcases ha with rfl | rfl | rfl | rfl | rfl | rfl
  all_goals first
    | trivial
    | exact RecordStep.isWritten_of_declare rfl (by decide)
    | exact RecordStep.isWritten_of_types rfl (by decide)

/-- A constant rvalue is called through the pointer and directly, and as an object of the derived
class through the pointer alone. -/
theorem call_by_operator_derivedFunctor :
    let p := derivedFunctor.program
    let pointer := Ty.memberPointer (.record ⟨1⟩) (.functionOf constantOperator.signature)
    let args := [Expr.prvalue (.builtin .short), Expr.lvalue (.builtin .double)]
    let object := Expr.xvalue (.qualified (.record ⟨1⟩) .const)
    let derivedObject := Expr.xvalue (.qualified (.record ⟨2⟩) .const)
    derivedFunctor.Reachable ∧
      (∃ r, p.completeRecord? (.record ⟨1⟩) = some r ∧ r.CallsOnly constantOperator ∧
        r.isUnion = false) ∧
      (∃ derived, p.record? ⟨2⟩ = some derived ∧ derived.callOperators = []) ∧
      (p.baseConversion (.record ⟨2⟩) (.record ⟨1⟩)).isReachable = true ∧
      (∀ a ∈ args, a.type.IsFormed) ∧
      (p.memberCall object pointer args).outcome = some (.prvalue (.builtin .bool), true) ∧
      (p.call object args).outcome = some (.prvalue (.builtin .bool), true) ∧
      (p.memberCall derivedObject pointer args).outcome =
        some (.prvalue (.builtin .bool), true) ∧
      (p.call derivedObject args).outcome = none := by
  intro p pointer args object derivedObject
  have hfunctor : ((p.completeRecord? (.record ⟨1⟩)).any fun r =>
      decide (r.callOperators = [constantOperator]) && !r.isUnion) = true := by decide +kernel
  have hderived : ((p.record? ⟨2⟩).any fun r => r.callOperators.isEmpty) = true := by
    decide +kernel
  obtain ⟨r, hr, hfunctor⟩ := (Option.any_eq_true _ _).mp hfunctor
  obtain ⟨derived, he, hnone⟩ := (Option.any_eq_true _ _).mp hderived
  simp only [Bool.and_eq_true, decide_eq_true_eq, Bool.not_eq_true'] at hfunctor
  have hf : r.CallsOnly constantOperator := ⟨hfunctor.1, rfl, rfl, rfl, rfl⟩
  have hnone : derived.callOperators = [] := List.isEmpty_iff.mp hnone
  have hbase : (p.baseConversion (.record ⟨2⟩) (.record ⟨1⟩)).isReachable = true := by
    decide +kernel
  have hargs : ∀ a ∈ args, a.type.IsFormed := by
    intro a ha
    simp only [args, List.mem_cons, List.not_mem_nil, or_false] at ha
    rcases ha with rfl | rfl <;> exact Ty.isFormed_iff_isNormal.mpr rfl
  have hmember : (p.memberCall object pointer args).outcome =
      some (.prvalue (.builtin .bool), true) := by decide +kernel
  obtain ⟨hown, hothers⟩ := call_by_operator reachable_derivedFunctor hr hf
  obtain ⟨-, -, hdirect⟩ := hown object args rfl hargs
  obtain ⟨hnever, hbaseObject⟩ := hothers derivedObject args ⟨2⟩ derived rfl he hnone hbase
  refine ⟨reachable_derivedFunctor, ⟨r, hr, hf, hfunctor.2⟩, ⟨derived, he, hnone⟩, hbase, hargs,
    hmember, (hdirect hfunctor.2 (by decide)).trans hmember, ?_, hnever⟩
  exact (congrArg Check.outcome (hbaseObject _)).trans hmember

end Development
end TypeTraits
