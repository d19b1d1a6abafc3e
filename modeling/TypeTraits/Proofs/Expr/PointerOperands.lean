import TypeTraits.Expr.Operators
import TypeTraits.Proofs.Expr.ConditionalTypes
import TypeTraits.Proofs.Expr.PointerOperation

/-!
# Pointers that operations on operands form

Indirection, calls and the conditional operator with the operation that forms pointers as a
parameter. On operands whose types are in a closed set they form pointers to types of the set and to
functions only, and what they give is an operand of such a type again.
-/

namespace TypeTraits
namespace PointerOperation

/-- The check is decided, and the type of what it gives, if anything, is in the set. -/
def GivesWithin {α : Type} (ok : Ty → Prop) (type : α → Ty) (c : Check (Option α))
    (o : Option α) : Prop :=
  c = pure o ∧ ∀ a, o = some a → ok (type a)

namespace GivesWithin

variable {α β : Type} {ok : Ty → Prop} {k : α → Ty} {l : β → Ty}

theorem none : GivesWithin ok k (return none) none := ⟨rfl, nofun⟩

theorem some {a : α} (ha : ok (k a)) : GivesWithin ok k (return some a) (some a) :=
  ⟨rfl, by rintro _ ⟨⟩; exact ha⟩

theorem map {c : Check (Option α)} {o : Option α} (h : GivesWithin ok k c o) {f : α → β}
    (hf : ∀ a, ok (k a) → ok (l (f a))) :
    GivesWithin ok l (do return (← c).map f) (o.map f) := by
  obtain ⟨rfl, hok⟩ := h
  refine ⟨rfl, fun b hb => ?_⟩
  obtain ⟨a, ha, rfl⟩ := Option.map_eq_some_iff.mp hb
  exact hf a (hok a ha)

end GivesWithin

section Operations

variable (pointer : PointerOperation) (p : Program)

/-! ### Indirection and calls -/

/-- What `*e` designates. -/
def indirection (e : Expr) : Check (Expr × Effects) :=
  match e.type.pointee? with
  | some t => if t.isVoid then throw .voidExpression else return (.lvalue t, .none)
  | none =>
    match p.class? e.type with
    | none => throw .notCallable
    | some r => do
      let candidates := r.candidates .indirection .copy (some e.type.unqualified)
      let selection ← p.resolve (pointer.convert p) candidates (some e) [] true
      return (Expr.callResult selection.candidate.function.result, selection.effects)

/-- A call of a function with a known signature. -/
def callSignature (s : Signature) (args : List Expr) : Check (Expr × Effects) := do
  let selection ←
    p.resolve (pointer.convert p) [Candidate.library s.toFunction false] none args true
  return (Expr.callResult s.result, selection.effects)

/-- `f(args)` for a function, a pointer to one, or an object with call operators. -/
def call (callee : Expr) (args : List Expr) : Check (Expr × Effects) :=
  match Program.calledFunction? callee.type with
  | some f =>
    match f.signature? with
    | some s => if s.isAbominable then throw .notCallable else pointer.callSignature p s args
    | none => throw .notCallable
  | none =>
    match p.class? callee.type with
    | none => throw .notCallable
    | some r => do
      let candidates := r.candidates .call .copy (some callee.type.unqualified)
      if candidates.isEmpty then throw .notCallable
      let selection ← p.resolve (pointer.convert p) candidates (some callee) args true
      return (Expr.callResult selection.candidate.function.result, selection.effects)

/-- `(object.*member)(args)` for a pointer to member function. -/
def memberCall (object : Expr) (member : Ty) (args : List Expr) : Check (Expr × Effects) :=
  match member.memberPointerParts? with
  | none => throw .notCallable
  | some (cls, target) =>
    match target.signature? with
    | none => throw .notCallable
    | some s => do
      if !p.isReceiver object cls then throw .invalidReceiver
      if !s.quals.cv.covers object.type.cv then throw .dropsQualifiers
      match s.quals.ref with
      | .none => pure ()
      | .lvalue => if object.isRvalue && s.quals.cv != .const then throw .invalidReceiver
      | .rvalue => if object.isLvalue then throw .invalidReceiver
      pointer.callSignature p s args

/-! ### Composite types -/

/-- The pointer to a type, if there is one. -/
def toOptional : Option Ty → Check (Option Ty)
  | some t => return some (← pointer t)
  | none => return none

/-- What a pointer combines to with `t`, when what it points to is combined by `combine`. -/
def combinePointer (combine : Ty → Check (Option (Ty × Bool))) (t : Ty) :
    Check (Option (Ty × Bool)) :=
  match t.pointee? with
  | some y => do
    match ← combine y with
    | some (u, changed) => return some (← pointer u, changed)
    | none => return none
  | none => return none

/-- What a pointer to a member of `c` combines to with `t`, when what it points to is combined by
`combine`. -/
def combineMember (combine : Ty → Check (Option (Ty × Bool))) (c t : Ty) :
    Check (Option (Ty × Bool)) :=
  match t.memberPointerParts? with
  | some (d, y) =>
    if c = d then return (← combine y).map fun (u, changed) => (.memberPointer c u, changed)
    else return none
  | none => return none

/-- The type that two types differing in qualification only combine to. -/
def combineCv (a b : Ty) : Check (Option (Ty × Bool)) := do
  let (s, aCv) := a.splitCv
  let (t, bCv) := b.splitCv
  let inner : Check (Option (Ty × Bool)) :=
    if s = t then return some (s, false)
    else
      match a with
      | .pointer x | .qualified (.pointer x) _ | .qualified (.qualified (.pointer x) _) _ =>
        pointer.combinePointer (combineCv x) t
      | .memberPointer c x | .qualified (.memberPointer c x) _
      | .qualified (.qualified (.memberPointer c x) _) _ =>
        combineMember (combineCv x) c t
      | _ => return none
  return (← inner).map fun (u, changed) =>
    let cv := aCv ∪ bCv ∪ (if changed then Cv.const else ∅)
    (u.qualify cv, changed || cv != aCv || cv != bCv)

/-- The type of an operand whose value is taken. -/
def asOperand (t : Ty) : Check Ty :=
  if t.isArray || t.isFunction then pointer.asValue t
  else if t.isRecord then return t
  else return t.unqualified

/-- The composite of pointers to `a` and `b`. -/
def compositePointer (a b : Ty) : Check (Option Ty) := do
  let (s, aCv) := a.splitCv
  let (t, bCv) := b.splitCv
  let cv := aCv ∪ bCv
  if s.isVoid && !t.isFunction || t.isVoid && !s.isFunction then
    pointer.toOptional (some (Ty.void.qualify cv))
  else if s != t && s.isRecord && t.isRecord then
    if p.isBaseOf s t then pointer.toOptional (some (s.qualify cv))
    else if p.isBaseOf t s then pointer.toOptional (some (t.qualify cv))
    else return none
  else
    match s.commonFunction? t with
    | some f => pointer.toOptional (some f)
    | none => pointer.toOptional ((← pointer.combineCv a b).map Prod.fst)

/-- The composite of pointers to members `a` of `c` and `b` of `d`. -/
def compositeMember (c a d b : Ty) : Check (Option Ty) :=
  match p.moreDerived? c d with
  | none => return none
  | some cls =>
    match a.commonFunction? b with
    | some f => return some (.memberPointer cls f)
    | none => return (← pointer.combineCv a b).map fun (u, _) => .memberPointer cls u

/-- The composite of two pointer, member pointer or null pointer operands. -/
def compositeType (a b : Ty) : Check (Option Ty) :=
  match a, b with
  | .nullptr, .pointer _ | .nullptr, .memberPointer .. => return some b
  | .pointer _, .nullptr | .memberPointer .., .nullptr => return some a
  | _, _ =>
    match a.pointee?, b.pointee? with
    | some x, some y => pointer.compositePointer p x y
    | _, _ =>
      match a.memberPointerParts?, b.memberPointerParts? with
      | some (c, x), some (d, y) => pointer.compositeMember p c x d y
      | _, _ => return none

/-! ### The conditional operator -/

/-- The value of a conditional whose operands do not agree as glvalues. -/
def conditionalValue (a b : Expr) : Check Expr := do
  let s ← pointer.asOperand a.type
  let t ← pointer.asOperand b.type
  if s = t then return .prvalue s
  else if s.isRecord || t.isRecord then throw .noConversion
  else
    match p.arithmeticType? s t with
    | some u => return .prvalue u
    | none =>
      match ← pointer.compositeType p s t with
      | some u => return .prvalue u
      | none => throw .noConversion

/-- The operand `source` converted to match `target`. -/
def matchOperand (source target : Expr) (classInvolved : Bool) : Check (Option Expr) := do
  if target.category = .lvalue then
    let conversion ← Check.attempt (pointer.convert p source target.type.lvalueRefTo .copy true)
    if let some c := conversion then
      if c.binding.any (!·.temporary) && (source.isLvalue || c.kind == .userDefined) then
        return some (.lvalue target.type)
  if target.category = .xvalue then
    let conversion ← Check.attempt (pointer.convert p source target.type.rvalueRefTo .copy true)
    if let some c := conversion then
      if c.binding.any (!·.temporary) then return some (.xvalue target.type)
  if target.category ≠ .prvalue ∧ !classInvolved then return none
  let (s, sourceCv) := source.type.splitCv
  let (t, targetCv) := target.type.splitCv
  if p.areRelatedClasses s t then
    if !(s == t || p.isBaseOf t s) || !targetCv.covers sourceCv then return none
    let conversion ← Check.attempt (pointer.convert p source target.type .copy true)
    return conversion.map fun _ => .prvalue target.type
  else
    let value ← pointer.asOperand target.type
    let conversion ← Check.attempt (pointer.convert p source value .copy true)
    return conversion.map fun _ => .prvalueOf value

/-- The type and category of `true ? a : b`. -/
def conditional (a b : Expr) : Check Expr := do
  if a.type.isVoid || b.type.isVoid then
    if a.type.isVoid && b.type.isVoid then return .prvalue .void
    throw .voidExpression
  if Program.sameGlvalue a b then return a
  let classInvolved := a.type.isRecord || b.type.isRecord
  let cvOnly := a.category == b.category && a.isGlvalue &&
    a.type.unqualified == b.type.unqualified
  if (a.type != b.type && classInvolved) || cvOnly then
    let x ← pointer.matchOperand p a b classInvolved
    let y ← pointer.matchOperand p b a classInvolved
    match x, y with
    | some _, some _ => throw .ambiguous
    | some x, none =>
      if Program.sameGlvalue x b then return x else pointer.conditionalValue p x b
    | none, some y =>
      if Program.sameGlvalue a y then return a else pointer.conditionalValue p a y
    | none, none => pointer.conditionalValue p a b
  else pointer.conditionalValue p a b

end Operations

namespace Serves

variable {pointer : PointerOperation} {ok : Ty → Prop} (h : pointer.Serves ok) {p : Program}
  (hp : p.DeclaresWithin ok) {a b c d s t u : Ty} {e : Expr} {args : List Expr}
  {result : Expr × Effects}

include h

/-! ### Indirection and calls -/

/-- What a call gives is an operand, whichever function of a record is selected. -/
theorem result_of_resolve (hresults : ∀ r ∈ p.records, ∀ f ∈ r.allFunctions,
      ok f.result.withoutReference) {r : Record} (hr : p.class? t = some r) {set : FunctionSet}
    {mode : InitMode} {cls : Option Ty} {convert : ConvertArgument} {object : Option Expr}
    {allowUser : Bool} {s : Selection}
    (hs : (p.resolve convert (r.candidates set mode cls) object args allowUser).Returns s) :
    ok (Expr.callResult s.candidate.function.result).type := by
  obtain ⟨c, hc, conversions, -, hselect⟩ := Program.resolve_returns hs
  obtain ⟨-, -, rfl⟩ := Candidate.select_eq_ok_iff.mp hselect
  exact h.callResult (hresults r (Program.mem_records_of_class? hr) _
    (r.functions_subset set (Record.mem_candidates hc).1))

include hp

theorem indirection_eq (e : Expr) : pointer.indirection p e = p.indirection e := by
  unfold indirection
  simp only [h.resolve_eq hp (List.forall_mem_nil _)]
  rfl

theorem indirection_returns (he : ok e.type) (hresult : (p.indirection e).Returns result) :
    ok result.1.type := by
  unfold Program.indirection at hresult
  split at hresult
  · next t ht =>
    split at hresult
    · simp at hresult
    · cases Check.returns_pure.mp hresult
      exact h.pointee he ht
  · split at hresult
    · simp at hresult
    · next r hr =>
      obtain ⟨s, hs, hresult⟩ := hresult.bind
      cases Check.returns_pure.mp hresult
      exact h.result_of_resolve hp.result hr hs

theorem callSignature_eq (s : Signature) (hargs : ∀ arg ∈ args, ok arg.type) :
    pointer.callSignature p s args = p.callSignature s args := by
  unfold callSignature Program.callSignature
  rw [h.resolve_eq hp hargs]

omit hp in
theorem callSignature_returns {s : Signature} (hs : ok s.result.withoutReference)
    (hresult : (p.callSignature s args).Returns result) : ok result.1.type := by
  obtain ⟨_, -, hresult⟩ := hresult.bind
  cases Check.returns_pure.mp hresult
  exact h.callResult hs

theorem call_eq (callee : Expr) (hargs : ∀ arg ∈ args, ok arg.type) :
    pointer.call p callee args = p.call callee args := by
  unfold call
  simp only [h.callSignature_eq hp _ hargs, h.resolve_eq hp hargs]
  rfl

theorem call_returns {callee : Expr} (hcallee : ok callee.type)
    (hresult : (p.call callee args).Returns result) : ok result.1.type := by
  unfold Program.call at hresult
  split at hresult
  · next f hf =>
    have hfunction : ok f := by
      unfold Program.calledFunction? at hf
      split at hf
      · cases hf
        exact hcallee
      · exact h.pointee hcallee (Option.filter_eq_some_iff.mp hf).1
    split at hresult
    · next s hs =>
      split at hresult
      · simp at hresult
      · exact h.callSignature_returns (h.result hfunction hs) hresult
    · simp at hresult
  · split at hresult
    · simp at hresult
    · next r hr =>
      dsimp only at hresult
      split at hresult
      · simp at hresult
      · obtain ⟨s, hs, hresult⟩ := hresult.bind
        cases Check.returns_pure.mp hresult
        exact h.result_of_resolve hp.result hr hs

theorem memberCall_eq (object : Expr) (member : Ty) (hargs : ∀ arg ∈ args, ok arg.type) :
    pointer.memberCall p object member args = p.memberCall object member args := by
  unfold memberCall
  simp only [h.callSignature_eq hp _ hargs]
  rfl

omit hp

theorem memberCall_returns {object : Expr} {member : Ty} (hmember : ok member)
    (hresult : (p.memberCall object member args).Returns result) : ok result.1.type := by
  unfold Program.memberCall at hresult
  split at hresult
  · simp at hresult
  · next cls target hparts =>
    split at hresult
    · simp at hresult
    · next s hs =>
      have hcall : ∀ result, (p.callSignature s args).Returns result → ok result.1.type :=
        fun _ => h.callSignature_returns (h.result (h.memberPointee hmember hparts) hs)
      dsimp only at hresult
      split at hresult
      · simp at hresult
      · split at hresult
        · simp at hresult
        · split at hresult
          · exact hcall _ hresult
          · split at hresult
            · simp at hresult
            · exact hcall _ hresult
          · split at hresult
            · simp at hresult
            · exact hcall _ hresult

theorem memberAccess_eq_ok {object : Expr} {member : Ty} (hmember : ok member)
    (he : p.memberAccess object member = .ok e) : ok e.type := by
  unfold Program.memberAccess at he
  split at he
  · cases he
  · next cls target hparts =>
    split at he
    · cases he
    · split at he
      · cases he
      · have htarget := h.qualify object.type.cv (h.memberPointee hmember hparts)
        cases he
        split <;> exact htarget

/-! ### Composite types -/

theorem toOptional_eq {o : Option Ty} (ho : ∀ t, o = some t → ok t) :
    GivesWithin ok id (pointer.toOptional o) (o.map .pointer) := by
  cases o with
  | none => exact .none
  | some t =>
    have ht := ho t rfl
    simp only [toOptional, h.forms ht]
    exact .some (h.pointerTo ht)

theorem combinePointer_eq {combine : Ty → Check (Option (Ty × Bool))}
    {combined : Ty → Option (Ty × Bool)}
    (hcombine : ∀ y, ok y → GivesWithin ok Prod.fst (combine y) (combined y)) (ht : ok t) :
    GivesWithin ok Prod.fst (pointer.combinePointer combine t)
      (match t.pointee? with
      | some y => (combined y).map fun (u, changed) => (.pointer u, changed)
      | none => none) := by
  unfold combinePointer
  split
  · next y hy =>
    obtain ⟨heq, hok⟩ := hcombine y (h.pointee ht hy)
    rw [heq, pure_bind]
    cases hr : combined y with
    | none => exact .none
    | some r =>
      have hr := hok r hr
      simp only [h.forms hr]
      exact .some (h.pointerTo hr)
  · exact .none

theorem combineMember_eq {combine : Ty → Check (Option (Ty × Bool))}
    {combined : Ty → Option (Ty × Bool)}
    (hcombine : ∀ y, ok y → GivesWithin ok Prod.fst (combine y) (combined y)) (ht : ok t) :
    GivesWithin ok Prod.fst (combineMember combine c t)
      (match t.memberPointerParts? with
      | some (d, y) =>
        if c = d then (combined y).map fun (u, changed) => (.memberPointer c u, changed) else none
      | none => none) := by
  unfold combineMember
  split
  · next d y hy =>
    split
    · exact (hcombine y (h.memberPointee ht hy)).map fun _ hr => h.memberPointerTo hr
    · exact .none
  · exact .none

/-- Combining two types of the set forms pointers to types of the set, and gives one of them. The
induction is on the size of the type, as a pointer is found under two qualifications at once. -/
theorem combineCv_eq (ha : ok a) (hb : ok b) :
    GivesWithin ok Prod.fst (pointer.combineCv a b) (a.combineCv b) := by
  induction hn : sizeOf a using Nat.strong_induction_on generalizing a b with
  | h n ih =>
    subst hn
    have hbelow : ∀ x, sizeOf x < sizeOf a → ok x → ∀ y, ok y →
        GivesWithin ok Prod.fst (pointer.combineCv x y) (x.combineCv y) :=
      fun x hlt hx y hy => ih _ hlt hx hy rfl
    have hs : ok a.splitCv.1 := h.unqualified ha
    have ht : ok b.splitCv.1 := h.unqualified hb
    rw [combineCv.eq_def, Ty.combineCv.eq_def]
    generalize a.splitCv = aParts at hs ⊢
    generalize b.splitCv = bParts at ht ⊢
    obtain ⟨s, aCv⟩ := aParts
    obtain ⟨t, bCv⟩ := bParts
    refine GivesWithin.map (k := Prod.fst) ?_ ?_
    · dsimp only
      by_cases hsame : s = t
      · rw [if_pos hsame, if_pos hsame]
        exact .some hs
      rw [if_neg hsame, if_neg hsame]
      cases a with
      | pointer x => exact h.combinePointer_eq (hbelow x (by simp) (h.pointee ha rfl)) ht
      | memberPointer c x =>
        exact h.combineMember_eq (hbelow x (by simp) (h.memberPointee ha rfl)) ht
      | qualified inner cv =>
        cases inner with
        | pointer x =>
          exact h.combinePointer_eq (hbelow x (by simp; omega) (h.pointee ha rfl)) ht
        | memberPointer c x =>
          exact h.combineMember_eq (hbelow x (by simp; omega) (h.memberPointee ha rfl)) ht
        | qualified core cv' =>
          have hcore := h.unqualified ha
          cases core with
          | pointer x =>
            exact h.combinePointer_eq (hbelow x (by simp; omega) (h.pointee hcore rfl)) ht
          | memberPointer c x =>
            exact h.combineMember_eq (hbelow x (by simp; omega) (h.memberPointee hcore rfl)) ht
          | _ => exact .none
        | _ => exact .none
      | _ => exact .none
    · rintro ⟨u, changed⟩ hu
      exact h.qualify _ hu

omit h in
theorem commonFunction?_within (ha : ok a) (hb : ok b) (hu : a.commonFunction? b = some u) :
    ok u := by
  obtain ⟨x, y, -, -, -, rfl⟩ := Ty.commonFunction?_eq_some hu
  split
  · exact hb
  · exact ha

theorem compositePointer_eq (ha : ok a) (hb : ok b) :
    GivesWithin ok id (pointer.compositePointer p a b) (p.compositePointer? a b) := by
  have hs : ok a.splitCv.1 := h.unqualified ha
  have ht : ok b.splitCv.1 := h.unqualified hb
  have hformed : ∀ {u : Ty}, ok u →
      GivesWithin ok id (pointer.toOptional (some u)) (some (.pointer u)) :=
    fun hu => h.toOptional_eq (by rintro _ ⟨⟩; exact hu)
  unfold compositePointer Program.compositePointer?
  generalize hsplit : a.splitCv = aParts at hs ⊢
  generalize hsplit' : b.splitCv = bParts at ht ⊢
  obtain ⟨s, aCv⟩ := aParts
  obtain ⟨t, bCv⟩ := bParts
  dsimp only at hs ht ⊢
  split
  · exact hformed (h.qualify _ h.void)
  split
  · split
    · exact hformed (h.qualify _ hs)
    split
    · exact hformed (h.qualify _ ht)
    · exact .none
  cases hcommon : s.commonFunction? t with
  | some f => exact hformed (commonFunction?_within hs ht hcommon)
  | none =>
    obtain ⟨heq, hok⟩ := h.combineCv_eq ha hb
    have htarget : ∀ u, (a.combineCv b).map Prod.fst = some u → ok u := by
      intro u hu
      obtain ⟨r, hr, rfl⟩ := Option.map_eq_some_iff.mp hu
      exact hok r hr
    have hpointer := h.toOptional_eq htarget
    rw [Option.map_map] at hpointer
    dsimp only
    rw [heq, pure_bind]
    exact hpointer

theorem compositeMember_eq (ha : ok a) (hb : ok b) :
    GivesWithin ok id (pointer.compositeMember p c a d b)
      ((p.moreDerived? c d).bind fun cls =>
        match a.commonFunction? b with
        | some f => some (.memberPointer cls f)
        | none => (a.combineCv b).map fun (u, _) => .memberPointer cls u) := by
  unfold compositeMember
  cases p.moreDerived? c d with
  | none => exact .none
  | some cls =>
    dsimp only [Option.bind_some]
    cases hcommon : a.commonFunction? b with
    | some f => exact .some (h.memberPointerTo (commonFunction?_within ha hb hcommon))
    | none => exact (h.combineCv_eq ha hb).map fun _ hr => h.memberPointerTo hr

theorem compositeType_eq (ha : ok a) (hb : ok b) :
    GivesWithin ok id (pointer.compositeType p a b) (p.compositeType? a b) := by
  unfold compositeType
  split
  case h_1 | h_2 => exact .some hb
  case h_3 | h_4 => exact .some ha
  case h_5 =>
    have hpointers : ∀ x y, a.pointee? = some x → b.pointee? = some y →
        GivesWithin ok id (pointer.compositePointer p x y) (p.compositePointer? x y) :=
      fun x y hx hy => h.compositePointer_eq (h.pointee ha hx) (h.pointee hb hy)
    have hmembers := fun (c x d y : Ty) (hx : a.memberPointerParts? = some (c, x))
        (hy : b.memberPointerParts? = some (d, y)) =>
      h.compositeMember_eq (p := p) (c := c) (d := d) (h.memberPointee ha hx)
        (h.memberPointee hb hy)
    have hnone : GivesWithin ok id (return none) none := .none
    grind [Program.compositeType?]

/-! ### The conditional operator -/

theorem asValue_within (ht : ok t) : ok t.asValue := by
  cases t with
  | array t b => exact h.pointerTo (h.element ht)
  | function r ps q => exact h.pointerTo ht
  | functionNamed n => exact h.pointerTo ht
  | _ => exact h.unqualified ht

theorem asOperand_within (ht : ok t) : ok t.asOperand := by
  unfold Ty.asOperand
  split
  · exact h.asValue_within ht
  · split
    · exact ht
    · exact h.unqualified ht

theorem asOperand_eq (ht : ok t) : pointer.asOperand t = pure t.asOperand := by
  unfold asOperand Ty.asOperand
  rw [h.asValue_eq ht, apply_ite pure, apply_ite pure]

theorem conditionalValue_eq {a b : Expr} (ha : ok a.type) (hb : ok b.type) :
    pointer.conditionalValue p a b = Check.ofFormed (p.conditionalValue a b) := by
  have hcomposite := h.compositeType_eq (p := p) (h.asOperand_within ha) (h.asOperand_within hb)
  unfold conditionalValue Program.conditionalValue
  rw [h.asOperand_eq ha, h.asOperand_eq hb, pure_bind, pure_bind]
  dsimp only
  split
  · rfl
  · split
    · rfl
    · rw [hcomposite.1, pure_bind]
      cases p.arithmeticType? a.type.asOperand b.type.asOperand with
      | some u => rfl
      | none => cases p.compositeType? a.type.asOperand b.type.asOperand <;> rfl

theorem conditionalValue_eq_ok {a b : Expr} (ha : ok a.type) (hb : ok b.type)
    (he : p.conditionalValue a b = .ok e) : ok e.type := by
  unfold Program.conditionalValue at he
  dsimp only at he
  split at he
  · cases he
    exact h.asOperand_within ha
  · split at he
    · cases he
    · split at he
      · next u hu =>
        cases he
        rcases Option.or_eq_some_iff.mp hu with hu | ⟨-, hu⟩
        · obtain ⟨-, -, x, y, -, -, rfl⟩ := Program.arithmeticType?_eq_some hu
          exact h.builtin _
        · exact (h.compositeType_eq (h.asOperand_within ha) (h.asOperand_within hb)).2 u hu
      · cases he

theorem matchOperand_returns {a b : Expr} {classInvolved : Bool} (hb : ok b.type)
    (he : (p.matchOperand a b classInvolved).Returns (some e)) : ok e.type := by
  unfold Program.matchOperand at he
  rcases he.returnIfBinds with he | he
  · cases he
    exact hb
  rcases he.returnIfBinds with he | he
  · cases he
    exact hb
  split at he
  · simp at he
  dsimp only at he
  split at he
  · split at he
    · simp at he
    · obtain ⟨o, -, he⟩ := he.bind
      obtain ⟨_, rfl, rfl⟩ := Option.map_eq_some_iff.mp (Check.returns_pure.mp he)
      exact hb
  · obtain ⟨o, -, he⟩ := he.bind
    obtain ⟨_, rfl, rfl⟩ := Option.map_eq_some_iff.mp (Check.returns_pure.mp he)
    exact h.prvalueOf (h.asOperand_within hb)

/-- What a conditional of operands gives is one of them, converted or not, or a value of both. -/
theorem conditional_returns {a b : Expr} (ha : ok a.type) (hb : ok b.type)
    (he : (p.conditional a b).Returns e) : ok e.type := by
  have hvalue : ∀ c d : Expr, ok c.type → ok d.type →
      (Check.ofFormed (p.conditionalValue c d)).Returns e → ok e.type :=
    fun c d hc hd he => h.conditionalValue_eq_ok hc hd (Check.returns_ofFormed.mp he)
  unfold Program.conditional at he
  dsimp only at he
  split at he
  · split at he
    · cases Check.returns_pure.mp he
      exact h.void
    · simp at he
  split at he
  · cases Check.returns_pure.mp he
    exact ha
  split at he
  · obtain ⟨x, hx, he⟩ := he.bind
    obtain ⟨y, hy, he⟩ := he.bind
    cases x with
    | none =>
      cases y with
      | none => exact hvalue a b ha hb he
      | some y =>
        have hy := h.matchOperand_returns ha hy
        dsimp only at he
        split at he
        · cases Check.returns_pure.mp he
          exact ha
        · exact hvalue a y ha hy he
    | some x =>
      have hx := h.matchOperand_returns hb hx
      cases y with
      | none =>
        dsimp only at he
        split at he
        · cases Check.returns_pure.mp he
          exact hx
        · exact hvalue x b hx hb he
      | some y => simp at he
  · exact hvalue a b ha hb he

include hp

theorem matchOperand_eq {a b : Expr} (ha : ok a.type) (hb : ok b.type) (classInvolved : Bool) :
    pointer.matchOperand p a b classInvolved = p.matchOperand a b classInvolved := by
  unfold matchOperand
  simp only [h.convert_eq hp ha, h.asOperand_eq hb, pure_bind]
  rfl

/-- A conditional of operands forms pointers to types of the set and to functions only. -/
theorem conditional_eq {a b : Expr} (ha : ok a.type) (hb : ok b.type) :
    pointer.conditional p a b = p.conditional a b := by
  have hthrow : ∀ rest : Unit → Check Expr,
      throw .voidExpression >>= rest = throw .voidExpression := fun _ => rfl
  unfold conditional Program.conditional
  dsimp only
  refine ite_congr rfl (fun _ => ?_) fun _ => ?_
  · exact ite_congr rfl (fun _ => rfl) fun _ => (hthrow _).trans (hthrow _).symm
  refine ite_congr rfl (fun _ => rfl) fun _ => ?_
  refine ite_congr rfl (fun _ => ?_) fun _ => h.conditionalValue_eq ha hb
  rw [h.matchOperand_eq hp ha hb, h.matchOperand_eq hp hb ha]
  refine Check.bind_congr_of_returns fun x hx => Check.bind_congr_of_returns fun y hy => ?_
  cases x with
  | none =>
    cases y with
    | none => exact h.conditionalValue_eq ha hb
    | some y =>
      exact ite_congr rfl (fun _ => rfl) fun _ =>
        h.conditionalValue_eq ha (h.matchOperand_returns ha hy)
  | some x =>
    cases y with
    | none =>
      exact ite_congr rfl (fun _ => rfl) fun _ =>
        h.conditionalValue_eq (h.matchOperand_returns hb hx) hb
    | some y => rfl

end Serves
end PointerOperation
end TypeTraits
