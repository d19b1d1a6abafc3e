import TypeTraits.Trait.Invocation
import TypeTraits.Proofs.Expr.PointerOperands
import TypeTraits.Proofs.Trait.CommonType
import TypeTraits.Proofs.Trait.Construction

/-!
# No pointer to a reference is formed

Where no declared type hides a reference and only objects are wrapped, expressions never have a
reference for their type: each operation on operands of such types gives an operand of such a type.
So the pointers that operations on expressions form, and conversions, decay, common types, function
types and invocations, are pointers to types that are no references. What an operation for forming
pointers does with a reference makes no difference to any of them.
-/

namespace TypeTraits
namespace PointerOperation

variable (pointer : PointerOperation) (p : Program) (s : Solver)

/-! ### Decay and function types -/

/-- Pointer to what `t` refers to. -/
def addPointer (t : Ty) : Check Ty :=
  let target := t.withoutReference
  if p.isReferenceable target || target.isVoid then pointer target else return t

/-- The type of a parameter passed by value, taken from a type that is no reference. -/
def decayObject (t : Ty) : Check Ty :=
  match t with
  | .array u _ => pointer u
  | .function .. | .functionNamed _ => pointer.addPointer p t
  | t => return t.removeCv

/-- The type a parameter passed by value would have. -/
def decay (t : Ty) : Check Ty := pointer.decayObject p t.withoutReference

/-- The type that is left when decay no longer changes it. -/
def settle : Ty → Check Ty
  | .lvalueRef t => settle t
  | .rvalueRef t => settle t
  | .qualified t _ => settle t
  | .array t _ => pointer t
  | .function r ps q => pointer.decayObject p (.function r ps q)
  | t => return t

/-- The type a parameter declared with this type has. -/
def asParameter : Ty → Check Ty
  | .qualified t _ => return t
  | .array t _ => pointer t
  | .function r ps q => pointer (.function r ps q)
  | .functionNamed n => pointer (.functionNamed n)
  | t => return t

/-- The function type that a declarator with these parameters declares. -/
def functionOf (s : Signature) : Check Ty := do
  return .function s.result (← s.params.mapM pointer.asParameter) s.quals

/-! ### Common types -/

/-- Where the conditional operator puts values of two types. -/
def conditionalOfValues (a b : Ty) : Check (Option Ty) :=
  match Expr.declval a, Expr.declval b with
  | .ok x, .ok y => do
    match ← Check.attempt (pointer.conditional p x y) with
    | some e => return some (← pointer.decay p e.type)
    | none => return none
  | _, _ => return none

/-- Where the conditional operator puts `const` lvalues of two types. -/
def conditionalOfLvalues (a b : Ty) : Check Ty := do
  let result ← pointer.conditional p (.lvalue (a.qualify .const)) (.lvalue (b.qualify .const))
  return result.type.removeCvref

/-- The question for the common type of two types. -/
def commonPair (a b : Ty) : Check Ty := do
  let a ← pointer.settle p a
  let b ← pointer.settle p b
  match ← pointer.conditionalOfValues p a b with
  | some t => return t
  | none =>
    if a.isVoid || b.isVoid then throw .voidExpression
    pointer.conditionalOfLvalues p a b

/-- The questions for the common type of `common` and further types, from left to right. None is
asked after one that has no answer. -/
def commonOfRest (common : Ty) : List Ty → List (Check Ty)
  | [] => []
  | t :: rest =>
    let question := pointer.commonPair p common t
    question :: match question.result with
      | .ok common => commonOfRest common rest
      | .error _ => []

/-- The questions for the common type of a list of types. The answer to the last one is the common
type. -/
def commonType : List Ty → List (Check Ty)
  | [] => []
  | [t] => [pointer.commonPair p t t]
  | t :: rest => pointer.commonOfRest p t rest

/-! ### Invocations -/

/-- The object that the first argument designates for a member of `cls`. -/
def receiver (cls arg : Ty) : Check (Receiver × Expr × Effects) := do
  let object ← Check.ofFormed (Expr.declval arg)
  let decayed ← pointer.decay s.program arg
  if decayed.unqualified = cls ∨ s.program.isBaseOf cls decayed then
    return (.object, object, .none)
  match (s.program.recordOf? decayed).bind (·.wraps) with
  | some wrapped => return (.wrapper, .lvalue wrapped, .none)
  | none =>
    let (target, effects) ← pointer.indirection s.program object
    return (.pointer, target, effects)

/-- Invokes a pointer to a member. -/
def invokeMember (callable cls member : Ty) (args : List Ty) : Check Invocation :=
  match args with
  | [] => throw .wrongArity
  | first :: rest => do
    Check.ofFormed (s.checkMember member rest)
    let (receiver, object, reached) ← pointer.receiver s cls first
    let (result, effects) ←
      if member.isFunction then do
        let exprs ← Check.ofFormed (Expr.declvals rest)
        pointer.memberCall s.program object callable exprs
      else do
        let accessed ← Check.ofFormed (s.program.memberAccess object callable)
        pure (accessed, Effects.none)
    return ⟨receiver.rule member.isFunction, result.declaredType, reached.and effects⟩

/-- Calls anything else. -/
def invokeCall (callable : Ty) (args : List Ty) : Check Invocation := do
  let f ← Check.ofFormed (Expr.declval callable)
  let exprs ← Check.ofFormed (Expr.declvals args)
  let (result, effects) ← pointer.call s.program f exprs
  return ⟨.call, result.declaredType, effects⟩

/-- `INVOKE(declval<F>(), declval<Args>()...)`. -/
def invoke (callable : Ty) (args : List Ty) : Check Invocation := do
  let decayed ← pointer.decay s.program callable
  match decayed.memberPointerParts? with
  | some (cls, member) => pointer.invokeMember s decayed.unqualified cls member args
  | none => pointer.invokeCall s callable args

namespace Serves

variable {pointer : PointerOperation} {ok : Ty → Prop} (h : pointer.Serves ok) {p : Program}
  {s : Solver} {a b c t : Ty} {e : Expr} {ts : List Ty}

include h

theorem addPointer_eq (ht : ok t.withoutReference) :
    pointer.addPointer p t = pure (p.addPointer t) := by
  unfold addPointer Program.addPointer
  dsimp only
  rw [h.forms ht, apply_ite pure]

theorem addPointer_within (ht : ok t) : ok (p.addPointer t) := by
  unfold Program.addPointer
  dsimp only
  split
  · exact h.pointerTo (h.withoutReference ht)
  · exact ht

theorem decayObject_eq (ht : ok t) : pointer.decayObject p t = pure (p.decayObject t) := by
  cases t with
  | array t b => exact h.forms (h.element ht)
  | function r ps q => exact h.addPointer_eq (h.withoutReference ht)
  | functionNamed n => exact h.addPointer_eq (p := p) (h.withoutReference ht)
  | _ => rfl

theorem decayObject_within (ht : ok t) : ok (p.decayObject t) := by
  cases t with
  | array t b => exact h.pointerTo (h.element ht)
  | function r ps q => exact h.addPointer_within (p := p) ht
  | functionNamed n => exact h.addPointer_within (p := p) ht
  | _ => exact h.unqualified ht

theorem decay_eq (ht : ok t.withoutReference) : pointer.decay p t = pure (p.decay t) :=
  h.decayObject_eq ht

theorem decay_within (ht : ok t.withoutReference) : ok (p.decay t) := h.decayObject_within ht

theorem settle_eq (ht : ok t.withoutReference) :
    pointer.settle p t = pure (p.settle t) ∧ ok (p.settle t) := by
  induction t using Ty.inductionOn with
  | lvalueRef t ih => exact ih (h.withoutReference ht)
  | rvalueRef t ih => exact ih (h.withoutReference ht)
  | qualified t cv ih => exact ih (h.withoutReference (h.unqualified ht))
  | array t b _ => exact ⟨h.forms (h.element ht), h.pointerTo (h.element ht)⟩
  | function r ps q _ _ => exact ⟨h.decayObject_eq ht, h.decayObject_within ht⟩
  | _ => exact ⟨rfl, ht⟩

theorem asParameter_eq (ht : ok t.withoutReference) :
    pointer.asParameter t = pure t.asParameter := by
  cases t with
  | array t b => exact h.forms (h.element ht)
  | function r ps q => exact h.function rfl
  | functionNamed n => exact h.function rfl
  | _ => rfl

theorem functionOf_eq {f : Signature} (hparams : ∀ t ∈ f.params, ok t.withoutReference) :
    pointer.functionOf f = pure (.functionOf f) := by
  have hmap : f.params.mapM pointer.asParameter = pure (f.params.map Ty.asParameter) := by
    generalize f.params = params at hparams
    induction params with
    | nil => rfl
    | cons t params ih =>
      obtain ⟨ht, hparams⟩ := List.forall_mem_cons.mp hparams
      rw [List.mapM_cons, h.asParameter_eq ht, ih hparams]
      rfl
  unfold functionOf
  rw [hmap]
  rfl

/-! ### Common types -/

theorem declval_within (ht : ok t.withoutReference) (he : Expr.declval t = .ok e) : ok e.type := by
  have hobject : ∀ {u : Ty}, ok u →
      Except.ok (if u.isVoid then Expr.prvalue .void else .xvalue u) = (.ok e : Formed Expr) →
      ok e.type := by
    intro u hu he
    cases he
    split
    · exact h.void
    · exact hu
  cases t with
  | lvalueRef t =>
    cases he
    exact ht
  | rvalueRef t =>
    cases he
    split <;> exact ht
  | function r ps q =>
    unfold Expr.declval at he
    dsimp only at he
    split at he
    · cases he
    · cases he
      exact ht
  | functionNamed n => cases he
  | unknown n => cases he
  | _ => exact hobject ht he

theorem declvals_within (hts : ∀ t ∈ ts, ok t.withoutReference) {exprs : List Expr}
    (he : Expr.declvals ts = .ok exprs) : ∀ e ∈ exprs, ok e.type := by
  induction ts generalizing exprs with
  | nil =>
    cases he
    exact List.forall_mem_nil _
  | cons t ts ih =>
    obtain ⟨ht, hts⟩ := List.forall_mem_cons.mp hts
    obtain ⟨e, rest, rfl, he, hrest⟩ := Expr.declvals_cons he
    exact List.forall_mem_cons.mpr ⟨h.declval_within ht he, ih hts hrest⟩

theorem conditionalOfValues_within (ha : ok a.withoutReference) (hb : ok b.withoutReference)
    (hc : (p.conditionalOfValues a b).Returns (some c)) : ok c := by
  unfold Program.conditionalOfValues at hc
  split at hc
  · next x y hx hy =>
    obtain ⟨o, ho, hc⟩ := hc.bind
    obtain ⟨e, rfl, rfl⟩ := Option.map_eq_some_iff.mp (Check.returns_pure.mp hc)
    exact h.decay_within (h.withoutReference
      (h.conditional_returns (h.declval_within ha hx) (h.declval_within hb hy) ho.attempt))
  · simp at hc

theorem conditionalOfLvalues_within (ha : ok a) (hb : ok b)
    (hc : (p.conditionalOfLvalues a b).Returns c) : ok c := by
  obtain ⟨e, he, hc⟩ := hc.bind
  cases Check.returns_pure.mp hc
  exact h.unqualified (h.withoutReference
    (h.conditional_returns (h.qualify .const ha) (h.qualify .const hb) he))

/-- A common type is one that operands may have. -/
theorem commonOfDecayed_within (ha : ok a) (hb : ok b)
    (hc : (p.commonOfDecayed a b).Returns c) : ok c := by
  obtain ⟨o, ho, hc⟩ := hc.bind
  cases o with
  | some t =>
    cases Check.returns_pure.mp hc
    exact h.conditionalOfValues_within (h.withoutReference ha) (h.withoutReference hb) ho
  | none =>
    dsimp only at hc
    split at hc
    · simp at hc
    · exact h.conditionalOfLvalues_within ha hb hc

variable (hp : p.DeclaresWithin ok)

include hp

theorem conditionalOfValues_eq (ha : ok a.withoutReference) (hb : ok b.withoutReference) :
    pointer.conditionalOfValues p a b = p.conditionalOfValues a b := by
  unfold conditionalOfValues
  split
  · next x y hx hy =>
    have hx' := h.declval_within ha hx
    have hy' := h.declval_within hb hy
    simp only [Program.conditionalOfValues, hx, hy]
    rw [h.conditional_eq hp hx' hy']
    refine Check.bind_congr_of_returns fun o ho => ?_
    cases o with
    | none => rfl
    | some e =>
      have he := h.conditional_returns hx' hy' ho.attempt
      simp only [h.decay_eq (h.withoutReference he)]
      rfl
  · next hnone =>
    unfold Program.conditionalOfValues
    split
    · next x y hx hy => exact absurd hy (hnone x y hx)
    · rfl

theorem conditionalOfLvalues_eq (ha : ok a) (hb : ok b) :
    pointer.conditionalOfLvalues p a b = p.conditionalOfLvalues a b := by
  unfold conditionalOfLvalues Program.conditionalOfLvalues
  rw [h.conditional_eq hp (h.qualify .const ha) (h.qualify .const hb)]

theorem commonPair_eq (ha : ok a.withoutReference) (hb : ok b.withoutReference) :
    pointer.commonPair p a b = p.commonOfDecayed (p.settle a) (p.settle b) := by
  obtain ⟨haeq, ha⟩ := h.settle_eq (p := p) ha
  obtain ⟨hbeq, hb⟩ := h.settle_eq (p := p) hb
  unfold commonPair
  rw [haeq, hbeq, pure_bind, pure_bind,
    h.conditionalOfValues_eq hp (h.withoutReference ha) (h.withoutReference hb),
    h.conditionalOfLvalues_eq hp ha hb]
  rfl

end Serves

/-- With pointers always formed the question is the one that the common type is the answer to. -/
theorem exact_commonPair (p : Program) (a b : Ty) :
    exact.commonPair p a b = p.commonOfDecayed (p.settle a) (p.settle b) :=
  exact_serves.commonPair_eq p.declaresWithin_true trivial trivial

theorem commonPair_eq_result (p : Program) (a b : Ty) :
    p.commonPair a b = (exact.commonPair p a b).result.toOption := by
  rw [exact_commonPair]
  rfl

theorem foldlM_commonPair_eq (p : Program) (a t : Ty) (ts : List Ty) :
    (t :: ts).foldlM p.commonPair a =
      (exact.commonOfRest p a (t :: ts)).getLast?.bind
        fun question => question.result.toOption := by
  induction ts generalizing a t with
  | nil =>
    rw [List.foldlM_cons, commonPair_eq_result, commonOfRest]
    cases hresult : (exact.commonPair p a t).result with
    | error _ => simp [hresult, Except.toOption]
    | ok c => simp [commonOfRest, hresult, Except.toOption]
  | cons u ts ih =>
    rw [List.foldlM_cons, commonPair_eq_result, commonOfRest]
    cases hresult : (exact.commonPair p a t).result with
    | error _ => simp [hresult, Except.toOption]
    | ok c =>
      have hrest := ih c u
      simp only [commonOfRest] at hrest ⊢
      rw [List.getLast?_cons_cons, ← hrest]
      rfl

/-- The common type is the answer to the last question, if any is asked. -/
theorem commonType_eq_getLast? (p : Program) (ts : List Ty) :
    p.commonType ts =
      (exact.commonType p ts).getLast?.bind fun question => question.result.toOption := by
  cases ts with
  | nil => rfl
  | cons t rest =>
    cases rest with
    | nil => exact commonPair_eq_result p t t
    | cons u rest => exact foldlM_commonPair_eq p t u rest

namespace Serves

variable {pointer : PointerOperation} {ok : Ty → Prop} (h : pointer.Serves ok) {p : Program}
  {s : Solver} (hp : p.DeclaresWithin ok) {a b : Ty} {ts : List Ty}

include h hp

theorem commonOfRest_eq (ha : ok a.withoutReference) (hts : ∀ t ∈ ts, ok t.withoutReference) :
    pointer.commonOfRest p a ts = exact.commonOfRest p a ts := by
  induction ts generalizing a with
  | nil => rfl
  | cons t ts ih =>
    obtain ⟨ht, hts⟩ := List.forall_mem_cons.mp hts
    have hpair := h.commonPair_eq hp ha ht
    unfold commonOfRest
    dsimp only
    rw [exact_commonPair, hpair]
    refine congrArg _ ?_
    cases hresult : (p.commonOfDecayed (p.settle a) (p.settle t)).result with
    | error _ => rfl
    | ok c =>
      have hc := h.commonOfDecayed_within (h.settle_eq ha).2 (h.settle_eq ht).2
        (.of_result hresult)
      exact ih (h.withoutReference hc) hts

theorem commonType_eq (hts : ∀ t ∈ ts, ok t.withoutReference) :
    pointer.commonType p ts = exact.commonType p ts := by
  cases ts with
  | nil => rfl
  | cons t rest =>
    obtain ⟨ht, hrest⟩ := List.forall_mem_cons.mp hts
    cases rest with
    | nil => exact congrArg ([·]) ((h.commonPair_eq hp ht ht).trans (exact_commonPair p t t).symm)
    | cons u rest => exact h.commonOfRest_eq hp ht hrest

end Serves

/-! ### Invocations -/

namespace Serves

variable {pointer : PointerOperation} {ok : Ty → Prop} (h : pointer.Serves ok) {s : Solver}
  (hp : s.program.DeclaresWithin ok) {args : List Ty}

include h hp

theorem receiver_eq (cls : Ty) {arg : Ty}
    (harg : ok arg.withoutReference) : pointer.receiver s cls arg = s.receiver cls arg := by
  unfold receiver Solver.receiver
  rw [h.decay_eq harg]
  simp only [h.indirection_eq hp]
  rfl

theorem invokeMember_eq (callable cls member : Ty)
    (hargs : ∀ arg ∈ args, ok arg.withoutReference) :
    pointer.invokeMember s callable cls member args =
      s.invokeMember callable cls member args := by
  cases args with
  | nil => rfl
  | cons first rest =>
    obtain ⟨hfirst, hrest⟩ := List.forall_mem_cons.mp hargs
    unfold invokeMember Solver.invokeMember
    dsimp only
    rw [h.receiver_eq hp cls hfirst]
    refine bind_congr fun _ => bind_congr fun ⟨receiver, object, reached⟩ => ?_
    dsimp only
    refine ite_congr rfl (fun _ => ?_) fun _ => rfl
    refine Check.bind_congr_of_returns fun exprs hexprs => ?_
    rw [h.memberCall_eq hp object callable
      (h.declvals_within hrest (Check.returns_ofFormed.mp hexprs))]

theorem invokeCall_eq (callable : Ty)
    (hargs : ∀ arg ∈ args, ok arg.withoutReference) :
    pointer.invokeCall s callable args = s.invokeCall callable args := by
  unfold invokeCall Solver.invokeCall
  refine bind_congr fun f => Check.bind_congr_of_returns fun exprs hexprs => ?_
  rw [h.call_eq hp f (h.declvals_within hargs (Check.returns_ofFormed.mp hexprs))]

/-- The question of an invocation is the one that it is the answer to. -/
theorem invoke_eq {callable : Ty} (hcallable : ok callable.withoutReference)
    (hargs : ∀ arg ∈ args, ok arg.withoutReference) :
    pointer.invoke s callable args =
      match (s.program.decay callable).memberPointerParts? with
      | some (cls, member) =>
        s.invokeMember (s.program.decay callable).unqualified cls member args
      | none => s.invokeCall callable args := by
  unfold invoke
  rw [h.decay_eq hcallable, pure_bind]
  simp only [h.invokeMember_eq hp _ _ _ hargs, h.invokeCall_eq hp _ hargs]

end Serves

theorem invoke_eq_result (s : Solver) (callable : Ty) (args : List Ty) :
    s.invoke callable args = (exact.invoke s callable args).result := by
  rw [exact_serves.invoke_eq s.program.declaresWithin_true trivial fun _ _ => trivial]
  rfl

end PointerOperation

/-! ### Operands -/

namespace Program

/-- No type that a record mentions hides a reference, and no record wraps one. -/
structure HidesNoReference (p : Program) : Prop where
  mentioned : ∀ r ∈ p.records, ∀ t ∈ r.types, t.hidesNoReference = true
  wrapped : ∀ r ∈ p.records, ∀ t, r.wraps = some t → t.isReference = false

/-- It is enough that the records are declared with types that can be written. -/
theorem HidesNoReference.of_isWritten {p : Program}
    (hwritten : ∀ r ∈ p.records, ∀ t ∈ r.types, t.IsWritten)
    (hwrapped : ∀ r ∈ p.records, ∀ t, r.wraps = some t → t.isReference = false) :
    p.HidesNoReference :=
  ⟨fun r hr t ht => (hwritten r hr t ht).hidesNoReference, hwrapped⟩

theorem HidesNoReference.declaresWithin {p : Program} (hp : p.HidesNoReference) :
    p.DeclaresWithin fun t => t.isOperandType = true where
  result r hr f hf := by
    refine Ty.isOperandType_withoutReference (hp.mentioned r hr _ ?_)
    simp only [Record.types, List.mem_append, List.mem_flatMap]
    exact .inl (.inr ⟨f, hf, .inr (List.mem_singleton_self _)⟩)
  wrapped r hr t ht := by
    refine Ty.isOperandType_iff.mpr ⟨hp.wrapped r hr t ht, hp.mentioned r hr t ?_⟩
    simp only [Record.types, List.mem_append, ht]
    exact .inr (by simp)

/-- The expressions that are formed of operands have the types of operands: no references, and none
is hidden in them. -/
structure FormsOperands (p : Program) : Prop where
  declval {t : Ty} {e : Expr} : t.hidesNoReference = true → Expr.declval t = .ok e →
    e.type.isOperandType = true
  callResult {t : Ty} : t.hidesNoReference = true → (Expr.callResult t).type.isOperandType = true
  prvalueOf {t : Ty} : t.isOperandType = true → (Expr.prvalueOf t).type.isOperandType = true
  indirection {e : Expr} {result : Expr × Effects} : e.type.isOperandType = true →
    (p.indirection e).Returns result → result.1.type.isOperandType = true
  call {callee : Expr} {args : List Expr} {result : Expr × Effects} :
    callee.type.isOperandType = true → (p.call callee args).Returns result →
    result.1.type.isOperandType = true
  memberCall {object : Expr} {member : Ty} {args : List Expr} {result : Expr × Effects} :
    member.isOperandType = true → (p.memberCall object member args).Returns result →
    result.1.type.isOperandType = true
  memberAccess {object e : Expr} {member : Ty} : member.isOperandType = true →
    p.memberAccess object member = .ok e → e.type.isOperandType = true
  conditional {a b e : Expr} : a.type.isOperandType = true → b.type.isOperandType = true →
    (p.conditional a b).Returns e → e.type.isOperandType = true

end Program

/-- Whatever an operation does with a reference, what forms pointers of operands and of types that
hide no reference comes to the same with it: no pointer to a reference is formed. -/
structure PointerOperation.FormsAlike (pointer : PointerOperation) (s : Solver) : Prop where
  indirection (e : Expr) : pointer.indirection s.program e = s.program.indirection e
  call (callee : Expr) {args : List Expr} : (∀ arg ∈ args, arg.type.isOperandType = true) →
    pointer.call s.program callee args = s.program.call callee args
  memberCall (object : Expr) (member : Ty) {args : List Expr} :
    (∀ arg ∈ args, arg.type.isOperandType = true) →
    pointer.memberCall s.program object member args = s.program.memberCall object member args
  conditional {a b : Expr} : a.type.isOperandType = true → b.type.isOperandType = true →
    pointer.conditional s.program a b = s.program.conditional a b
  convert {source : Expr} : source.type.isOperandType = true → ∀ target mode allowUser,
    pointer.convert s.program source target mode allowUser =
      s.program.convert source target mode allowUser
  decay {t : Ty} : t.hidesNoReference = true → pointer.decay s.program t = pure (s.program.decay t)
  commonType {ts : List Ty} : (∀ t ∈ ts, t.hidesNoReference = true) →
    pointer.commonType s.program ts = exact.commonType s.program ts ∧
      s.program.commonType ts =
        (exact.commonType s.program ts).getLast?.bind fun question => question.result.toOption
  functionOf {f : Signature} : (∀ t ∈ f.params, t.hidesNoReference = true) →
    pointer.functionOf f = pure (.functionOf f)
  invoke {callable : Ty} {args : List Ty} : callable.hidesNoReference = true →
    (∀ arg ∈ args, arg.hidesNoReference = true) →
    pointer.invoke s callable args = exact.invoke s callable args ∧
      s.invoke callable args = (exact.invoke s callable args).result

namespace Solver

/-- Where no declared type hides a reference and only objects are wrapped, expressions are never of
reference type and no pointer to a reference is formed. -/
theorem no_pointer_to_reference (s : Solver) (hp : s.program.HidesNoReference) :
    s.program.FormsOperands ∧
      ∀ pointer : PointerOperation, pointer.IsFaithful → pointer.FormsAlike s := by
  have hdeclares := hp.declaresWithin
  have hwithout : ∀ {ts : List Ty}, (∀ t ∈ ts, t.hidesNoReference = true) →
      ∀ t ∈ ts, t.withoutReference.isOperandType = true :=
    fun hts t ht => Ty.isOperandType_withoutReference (hts t ht)
  constructor
  · -- Which operation forms pointers does not matter here, as long as there is one.
    have h : PointerOperation.exact.Serves fun t => t.isOperandType = true :=
      PointerOperation.IsFaithful.serves fun _ _ => rfl
    exact {
      declval := fun ht => h.declval_within (Ty.isOperandType_withoutReference ht)
      callResult := fun ht => h.callResult (Ty.isOperandType_withoutReference ht)
      prvalueOf := h.prvalueOf
      indirection := h.indirection_returns hdeclares
      call := h.call_returns hdeclares
      memberCall := h.memberCall_returns
      memberAccess := h.memberAccess_eq_ok
      conditional := h.conditional_returns }
  · intro pointer hpointer
    have h := hpointer.serves
    have hexact := PointerOperation.exact_serves
    exact {
      indirection := h.indirection_eq hdeclares
      call := fun callee _ hargs => h.call_eq hdeclares callee hargs
      memberCall := fun object member _ hargs => h.memberCall_eq hdeclares object member hargs
      conditional := h.conditional_eq hdeclares
      convert := h.convert_eq hdeclares
      decay := fun ht => h.decay_eq (Ty.isOperandType_withoutReference ht)
      commonType := fun hts => ⟨h.commonType_eq hdeclares (hwithout hts),
        PointerOperation.commonType_eq_getLast? s.program _⟩
      functionOf := fun hparams => h.functionOf_eq (hwithout hparams)
      invoke := fun hcallable hargs =>
        ⟨(h.invoke_eq hdeclares (Ty.isOperandType_withoutReference hcallable)
            (hwithout hargs)).trans
          (hexact.invoke_eq s.program.declaresWithin_true trivial fun _ _ => trivial).symm,
        PointerOperation.invoke_eq_result s _ _⟩ }

/-- A class that converts and dereferences to an array of constants and gives a function when
called, each by reference, and a wrapper of it. -/
def referenceGiver : Program :=
  let constants : Ty := .lvalueRef (.array (.qualified (.builtin .int) .const) (some 3))
  (Development.run .lp64
    [.start "Giver" .struct,
      .write ⟨1⟩ (.conversion (.declare [] constants [])),
      .write ⟨1⟩ (.callOperator (.declare [.rvalueRef (.builtin .int)]
        (.rvalueRef (.function (.lvalueRef (.builtin .int)) [] {})) [])),
      .write ⟨1⟩ (.indirection (.declare [] constants [])),
      .finish ⟨1⟩,
      .start "Wrapper" .struct,
      .write ⟨2⟩ (.wraps (.record ⟨1⟩)),
      .finish ⟨2⟩]).program

/-- The operation that fails for references. -/
def failsForReferences : PointerOperation := fun t =>
  if t.isReference then throw .notAnObject else return .pointer t

/-- The operation that fails for references does not fail where the class gives them. -/
theorem no_pointer_to_reference_referenceGiver :
    let s : Solver := { program := referenceGiver }
    let giver : Ty := .record ⟨1⟩
    let constants : Ty := .array (.qualified (.builtin .int) .const) (some 3)
    let toConstant : Ty := .pointer (.qualified (.builtin .int) .const)
    s.program.HidesNoReference ∧ failsForReferences.IsFaithful ∧
      (failsForReferences (.lvalueRef (.builtin .int))).result = .error .notAnObject ∧
      (failsForReferences.indirection s.program (.lvalue giver)).result =
        .ok (.lvalue constants, ⟨false, false⟩) ∧
      (failsForReferences.conditional s.program (.lvalue constants) (.xvalue toConstant)).result =
        .ok (.prvalue toConstant) ∧
      ((failsForReferences.commonType s.program [giver, toConstant]).getLast?.bind
        fun question => question.result.toOption) = some toConstant ∧
      s.program.FormsOperands ∧ failsForReferences.FormsAlike s := by
  intro s giver constants toConstant
  have hp : s.program.HidesNoReference := ⟨by decide +kernel, by decide +kernel⟩
  have hfaithful : failsForReferences.IsFaithful := fun t ht => by
    simp [failsForReferences, ht]
  obtain ⟨hoperands, halike⟩ := no_pointer_to_reference s hp
  have h := halike failsForReferences hfaithful
  refine ⟨hp, hfaithful, rfl, ?_, ?_, ?_, hoperands, h⟩
  · rw [h.indirection]
    decide +kernel
  · rw [h.conditional rfl rfl]
    decide +kernel
  · have hhides : ∀ t ∈ [giver, toConstant], t.hidesNoReference = true := by decide
    rw [(h.commonType hhides).1, ← (h.commonType hhides).2]
    decide +kernel

end Solver
end TypeTraits
