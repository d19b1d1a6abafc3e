import TypeTraits.Trait.CommonType
import TypeTraits.Proofs.Expr.ConditionalTypes
import TypeTraits.Proofs.Program.Development

/-!
# Laws of the common type

The common type of a list sees its types only as decayed, is itself decayed, and is found from left
to right. Two values that are no classes have their decayed type in common if it is the same, and
else what the arithmetic conversions or the composition of pointers give; the second try with
`const` lvalues only serves functions that nothing can point to.
-/

namespace TypeTraits
namespace Program

variable {p : Program} {a b t u c : Ty} {e : Expr}

/-- Of the decayed types only functions have no value. -/
theorem declval_of_isDecayed (h : t.isDecayed = true) :
    Expr.declval t =
      if t.isFunction then .error .notAnObject
      else .ok (if t.isVoid then .prvalue .void else .xvalue t) := by
  cases t with
  | function r ps q =>
    have habominable : Signature.isAbominable ⟨r, ps, q⟩ = true := h
    simp [Expr.declval, habominable, Ty.isFunction]
  | qualified _ _ | lvalueRef _ | rvalueRef _ | array _ _ | functionNamed _ | unknown _ => cases h
  | _ => rfl

theorem exists_declval (h : t.isDecayed = true) (hfunction : t.isFunction = false) :
    ∃ e, Expr.declval t = .ok e :=
  ⟨_, by rw [declval_of_isDecayed h, hfunction, if_neg (by simp)]⟩

theorem type_of_declval (h : t.isDecayed = true) (he : Expr.declval t = .ok e) : e.type = t := by
  rw [declval_of_isDecayed h] at he
  split at he
  · cases he
  · split at he
    · next hvoid =>
      cases he
      exact (Ty.eq_void_of_isVoid h hvoid).symm
    · cases he
      rfl

/-- Both tries at the common type of two decayed types. -/
def commonOfDecayed (p : Program) (a b : Ty) : Check Ty := do
  match ← p.conditionalOfValues a b with
  | some t => return t
  | none =>
    if a.isVoid || b.isVoid then throw .voidExpression
    p.conditionalOfLvalues a b

theorem commonPair_eq (ha : a.isNormal = true) (hb : b.isNormal = true) :
    p.commonPair a b = (p.commonOfDecayed (p.decay a) (p.decay b)).result.toOption := by
  rw [← settle_eq_decay ha, ← settle_eq_decay hb]
  rfl

theorem conditionalOfValues_returns (ha : a.isNormal = true) (hb : b.isNormal = true)
    (hda : a.isDecayed = true) (hdb : b.isDecayed = true)
    (h : (p.conditionalOfValues a b).Returns (some c)) :
    ∃ v : Ty, v.IsValue ∧ c = v.unqualified := by
  unfold conditionalOfValues at h
  split at h
  · next x y hx hy =>
    obtain ⟨result, hresult, h⟩ := h.bind
    obtain ⟨e, rfl, rfl⟩ := Option.map_eq_some_iff.mp (Check.returns_pure.mp h)
    have hvalue : e.type.IsValue :=
      isValue_conditional (type_of_declval hda hx ▸ .of_isDecayed ha hda)
        (type_of_declval hdb hy ▸ .of_isDecayed hb hdb) hresult.attempt
    exact ⟨e.type, hvalue, decay_of_isValue hvalue⟩
  · simp at h

theorem conditionalOfLvalues_returns (ha : a.IsValue) (hb : b.IsValue)
    (h : (p.conditionalOfLvalues a b).Returns c) : ∃ v : Ty, v.IsValue ∧ c = v.unqualified := by
  obtain ⟨e, he, h⟩ := h.bind
  cases Check.returns_pure.mp h
  have hvalue : e.type.IsValue := isValue_conditional (ha.qualify .const) (hb.qualify .const) he
  exact ⟨e.type, hvalue, removeCvref_of_isValue hvalue⟩

/-- Both tries give the type of a value without its qualifiers. -/
theorem exists_value_of_commonPair (ha : a.isNormal = true) (hb : b.isNormal = true)
    (h : p.commonPair a b = some c) : ∃ v : Ty, v.IsValue ∧ c = v.unqualified := by
  obtain ⟨hna, hda⟩ := decayed_decay (p := p) ha
  obtain ⟨hnb, hdb⟩ := decayed_decay (p := p) hb
  rw [commonPair_eq ha hb] at h
  have hreturns : (p.commonOfDecayed (p.decay a) (p.decay b)).Returns c := by
    refine Check.Returns.of_result ?_
    cases hresult : (p.commonOfDecayed (p.decay a) (p.decay b)).result with
    | error _ => simp [hresult, Except.toOption] at h
    | ok t => simpa [hresult, Except.toOption] using h
  obtain ⟨first, hfirst, h⟩ := hreturns.bind
  cases first with
  | some t =>
    cases Check.returns_pure.mp h
    exact conditionalOfValues_returns hna hnb hda hdb hfirst
  | none =>
    dsimp only at h
    split at h
    · simp at h
    · exact conditionalOfLvalues_returns (isValue_decay ha) (isValue_decay hb) h

theorem isNormal_of_commonPair (ha : a.isNormal = true) (hb : b.isNormal = true)
    (h : p.commonPair a b = some c) : c.isNormal = true := by
  obtain ⟨v, hv, rfl⟩ := exists_value_of_commonPair ha hb h
  exact hv.unqualified.normal

theorem decay_of_commonPair (ha : a.isNormal = true) (hb : b.isNormal = true)
    (h : p.commonPair a b = some c) : p.decay c = c := by
  obtain ⟨v, hv, rfl⟩ := exists_value_of_commonPair ha hb h
  exact decay_of_isDecayed hv.decayed

theorem commonPair_decay_left (ha : a.isNormal = true) : p.commonPair (p.decay a) b =
    p.commonPair a b := by
  have hsettle : p.settle (p.decay a) = p.settle a := by
    rw [settle_eq_decay ha, settle_eq_decay (decayed_decay ha).1, decay_decay ha]
  simp only [commonPair, hsettle]

theorem commonPair_decay_right (hb : b.isNormal = true) : p.commonPair a (p.decay b) =
    p.commonPair a b := by
  have hsettle : p.settle (p.decay b) = p.settle b := by
    rw [settle_eq_decay hb, settle_eq_decay (decayed_decay hb).1, decay_decay hb]
  simp only [commonPair, hsettle]

theorem conditional_self (hvoid : e.type.isVoid = false) (hglvalue : e.isGlvalue = true) :
    p.conditional e e = Check.ofFormed (.ok e) := by
  simp [conditional, hvoid, sameGlvalue, hglvalue]
  rfl

/-- A first try that is decided without a conversion. -/
theorem conditionalOfValues_of_formed {x y : Expr} {r : Formed Expr} (hx : Expr.declval a = .ok x)
    (hy : Expr.declval b = .ok y) (h : p.conditional x y = Check.ofFormed r) :
    p.conditionalOfValues a b = pure (r.toOption.map fun e => p.decay e.type) := by
  unfold conditionalOfValues
  rw [hx, hy]
  dsimp only
  rw [h]
  cases r <;> rfl

theorem commonOfDecayed_of_some (h : p.conditionalOfValues a b = pure (some c)) :
    p.commonOfDecayed a b = pure c := by
  rw [commonOfDecayed, h, pure_bind]

theorem commonOfDecayed_of_none (h : p.conditionalOfValues a b = pure none)
    (ha : a.isVoid = false) (hb : b.isVoid = false) :
    p.commonOfDecayed a b = p.conditionalOfLvalues a b := by
  rw [commonOfDecayed, h, pure_bind]
  simp [ha, hb]

theorem conditionalOfValues_of_isFunction (ha : a.isDecayed = true)
    (hfunction : a.isFunction = true) :
    p.conditionalOfValues a b = pure none ∧ p.conditionalOfValues b a = pure none := by
  have hdeclval : Expr.declval a = .error .notAnObject := by
    rw [declval_of_isDecayed ha, if_pos hfunction]
  unfold conditionalOfValues
  rw [hdeclval]
  cases Expr.declval b <;> exact ⟨rfl, rfl⟩

theorem qualify_of_isFunction {cv : Cv} (h : t.isFunction = true) : t.qualify cv = t := by
  unfold Ty.qualify
  split
  · rfl
  · cases t <;> first | rfl | cases h

theorem commonOfDecayed_self (h : a.isDecayed = true) : p.commonOfDecayed a a = pure a := by
  cases hfunction : a.isFunction with
  | true =>
    have hvoid : a.isVoid = false := by cases a <;> first | rfl | cases hfunction
    rw [commonOfDecayed_of_none (conditionalOfValues_of_isFunction h hfunction).1 hvoid hvoid,
      conditionalOfLvalues, qualify_of_isFunction hfunction, conditional_self hvoid rfl]
    change (pure a.removeCvref : Check Ty) = _
    cases a <;> first | rfl | cases hfunction
  | false =>
    have hdeclval := declval_of_isDecayed h
    rw [hfunction, if_neg (by simp)] at hdeclval
    refine commonOfDecayed_of_some ?_
    cases hvoid : a.isVoid with
    | true =>
      obtain rfl := Ty.eq_void_of_isVoid h hvoid
      exact conditionalOfValues_of_formed (r := .ok (.prvalue .void)) hdeclval hdeclval rfl
    | false =>
      rw [hvoid] at hdeclval
      rw [conditionalOfValues_of_formed hdeclval hdeclval (conditional_self hvoid rfl)]
      exact congrArg (fun u => (pure (some u) : Check (Option Ty))) (decay_of_isDecayed h)

theorem commonPair_self (ht : t.isNormal = true) : p.commonPair t t = some (p.decay t) := by
  rw [commonPair_eq ht ht, commonOfDecayed_self (decayed_decay ht).2]
  rfl

/-! ### Values without a class -/

/-- The value of an operand is not changed by qualifiers. -/
theorem asOperand_qualify {cv : Cv} (h : t.IsPlainValue) :
    (t.qualify cv).asOperand = t.asOperand := by
  cases hfunction : t.isFunction with
  | true => rw [qualify_of_isFunction hfunction]
  | false =>
    have hvalue : (t.qualify cv).IsValue := h.isValue.qualify cv
    have hfunction' : (t.qualify cv).isFunction = false := by
      unfold Ty.qualify
      split
      · exact hfunction
      · cases t <;> first | rfl | cases hfunction
    have hclass' : (t.qualify cv).isRecord = false := by
      rw [Ty.isRecord, Ty.recordId?_qualify]
      exact h.notClass
    rw [Ty.asOperand_of_isDecayed hfunction h.decayed, Ty.asOperand, hvalue.isArray, hfunction',
      Bool.or_self, if_neg (by simp), hclass', if_neg (by simp), Ty.unqualified_qualify h.normal,
      Ty.unqualified_of_isDecayed h.decayed]

/-- What two decayed types without a class have in common. -/
def commonValue? (p : Program) (a b : Ty) : Option Ty :=
  if a = b then some a
  else if a.isVoid || b.isVoid then none
  else p.valueType? a.asOperand b.asOperand

section Values

variable (ha : a.IsPlainValue) (hb : b.IsPlainValue)

include ha hb

/-- Operands of two types are brought to one value. -/
theorem conditional_eq_valueType? {x y : Expr} (cv : Cv) (hne : a ≠ b) (hva : a.isVoid = false)
    (hvb : b.isVoid = false) (hx : x.type = a.qualify cv) (hy : y.type = b.qualify cv) :
    p.conditional x y = Check.ofFormed
      (match p.valueType? a.asOperand b.asOperand with
      | some u => .ok (.prvalue u)
      | none => .error .noConversion) := by
  have hrecord : ∀ {t : Ty}, t.isRecord = false → (t.qualify cv).isRecord = false := by
    intro t ht
    rw [Ty.isRecord, Ty.recordId?_qualify]
    exact ht
  have hoperandA : x.type.asOperand = a.asOperand := hx ▸ asOperand_qualify ha
  have hoperandB : y.type.asOperand = b.asOperand := hy ▸ asOperand_qualify hb
  have hdiffers : x.type.unqualified ≠ y.type.unqualified := by
    rw [hx, hy, Ty.unqualified_qualify ha.normal, Ty.unqualified_qualify hb.normal,
      Ty.unqualified_of_isDecayed ha.decayed, Ty.unqualified_of_isDecayed hb.decayed]
    exact hne
  have hvalue := conditionalValue_of_not_class (p := p) (hoperandA ▸ ha.asOperand.notClass)
    (hoperandB ▸ hb.asOperand.notClass)
  rw [hoperandA, hoperandB] at hvalue
  exact (conditional_of_not_class (hx ▸ hrecord ha.notClass) (hy ▸ hrecord hb.notClass)
    (hx ▸ (Ty.isVoid_qualify a cv).trans hva) (hy ▸ (Ty.isVoid_qualify b cv).trans hvb)
    hdiffers).trans (congrArg Check.ofFormed hvalue)

/-- The first try at two types fails for functions and finds what values of other types are brought
to. -/
theorem conditionalOfValues_of_ne (hne : a ≠ b) :
    p.conditionalOfValues a b = pure none ∨
      (a.isVoid || b.isVoid) = false ∧
        p.conditionalOfValues a b = pure (p.valueType? a.asOperand b.asOperand) := by
  cases hfa : a.isFunction with
  | true => exact .inl (conditionalOfValues_of_isFunction ha.decayed hfa).1
  | false =>
    cases hfb : b.isFunction with
    | true => exact .inl (conditionalOfValues_of_isFunction hb.decayed hfb).2
    | false =>
      obtain ⟨x, hx⟩ := exists_declval ha.decayed hfa
      obtain ⟨y, hy⟩ := exists_declval hb.decayed hfb
      have htypeA := type_of_declval ha.decayed hx
      have htypeB := type_of_declval hb.decayed hy
      cases hvoid : (a.isVoid || b.isVoid) with
      | true =>
        have hmismatch : x.type.isVoid ≠ y.type.isVoid := by
          rw [htypeA, htypeB]
          intro hboth
          rw [hboth, Bool.or_self] at hvoid
          exact hne ((Ty.eq_void_of_isVoid ha.decayed (hboth.trans hvoid)).trans
            (Ty.eq_void_of_isVoid hb.decayed hvoid).symm)
        exact .inl (conditionalOfValues_of_formed hx hy (conditional_of_void hmismatch))
      | false =>
        obtain ⟨hva, hvb⟩ := Bool.or_eq_false_iff.mp hvoid
        refine .inr ⟨rfl, ?_⟩
        rw [conditionalOfValues_of_formed hx hy
          (conditional_eq_valueType? ha hb ∅ hne hva hvb
            (htypeA.trans (Ty.qualify_empty a).symm) (htypeB.trans (Ty.qualify_empty b).symm))]
        cases hvalue : p.valueType? a.asOperand b.asOperand with
        | none => rfl
        | some u =>
          have hu := decay_of_isDecayed (p := p)
            (decayed_valueType? ha.asOperand hb.asOperand hvalue).2
          exact congrArg (fun u => (pure (some u) : Check (Option Ty))) hu

theorem conditionalOfLvalues_of_ne (hne : a ≠ b) (hva : a.isVoid = false) (hvb : b.isVoid = false) :
    (p.conditionalOfLvalues a b).result.toOption = p.valueType? a.asOperand b.asOperand := by
  rw [conditionalOfLvalues, conditional_eq_valueType? ha hb .const hne hva hvb rfl rfl]
  cases hvalue : p.valueType? a.asOperand b.asOperand with
  | none => rfl
  | some u =>
    have hu := (decayed_valueType? ha.asOperand hb.asOperand hvalue).2
    have hcvref : u.removeCvref = u := by
      cases u <;> first | rfl | cases hu
    exact congrArg some hcvref

theorem commonOfDecayed_of_ne (hne : a ≠ b) :
    (p.commonOfDecayed a b).result.toOption =
      if a.isVoid || b.isVoid then none else p.valueType? a.asOperand b.asOperand := by
  have hlvalues := conditionalOfLvalues_of_ne (p := p) ha hb hne
  cases hvoid : (a.isVoid || b.isVoid) with
  | true =>
    rcases conditionalOfValues_of_ne (p := p) ha hb hne with hnone | ⟨hvoid', -⟩
    · rw [commonOfDecayed, hnone, pure_bind]
      simp only [hvoid]
      rfl
    · simp [hvoid] at hvoid'
  | false =>
    obtain ⟨hva, hvb⟩ := Bool.or_eq_false_iff.mp hvoid
    rcases conditionalOfValues_of_ne (p := p) ha hb hne with hnone | ⟨-, hvalue⟩
    · rw [commonOfDecayed_of_none hnone hva hvb, hlvalues hva hvb]
      rfl
    · cases hu : p.valueType? a.asOperand b.asOperand with
      | none =>
        rw [commonOfDecayed_of_none (hu ▸ hvalue) hva hvb, hlvalues hva hvb, hu]
        rfl
      | some u =>
        rw [commonOfDecayed_of_some (hu ▸ hvalue)]
        rfl

end Values

theorem commonPair_of_not_class (ha : a.isNormal = true) (hb : b.isNormal = true)
    (hca : (p.decay a).isRecord = false) (hcb : (p.decay b).isRecord = false) :
    p.commonPair a b = p.commonValue? (p.decay a) (p.decay b) := by
  rw [commonPair_eq ha hb, commonValue?]
  by_cases hsame : p.decay a = p.decay b
  · rw [if_pos hsame, ← hsame, commonOfDecayed_self (decayed_decay ha).2]
    rfl
  · rw [if_neg hsame, commonOfDecayed_of_ne (isPlainValue_decay ha hca) (isPlainValue_decay hb hcb)
      hsame]

/-! ### The laws -/

theorem commonType_pair (t u : Ty) : p.commonType [t, u] = p.commonPair t u :=
  Option.bind_fun_some _

theorem commonType_cons_cons (t u : Ty) (rest : List Ty) :
    p.commonType (t :: u :: rest) = (u :: rest).foldlM p.commonPair t := rfl

theorem foldlM_commonPair_map_decay {rest : List Ty} (hrest : ∀ t ∈ rest, t.isNormal = true)
    (c : Ty) : (rest.map p.decay).foldlM p.commonPair c = rest.foldlM p.commonPair c := by
  induction rest generalizing c with
  | nil => rfl
  | cons t rest ih =>
    rw [List.forall_mem_cons] at hrest
    simp only [List.map_cons, List.foldlM_cons, commonPair_decay_right hrest.1, ih hrest.2]

theorem commonType_map_decay {ts : List Ty} (hts : ∀ t ∈ ts, t.isNormal = true) :
    p.commonType (ts.map p.decay) = p.commonType ts := by
  match ts with
  | [] => rfl
  | [t] =>
    have ht := hts t List.mem_cons_self
    exact (commonPair_decay_left ht).trans (commonPair_decay_right ht)
  | t :: u :: rest =>
    obtain ⟨ht, hrest⟩ := List.forall_mem_cons.mp hts
    rw [List.map_cons, List.map_cons, commonType_cons_cons, commonType_cons_cons, ← List.map_cons,
      foldlM_commonPair_map_decay hrest, List.foldlM_cons, List.foldlM_cons,
      commonPair_decay_left ht]

theorem commonType_append {ts : List Ty} (hts : ∀ t ∈ ts, t.isNormal = true) (hne : ts ≠ [])
    (u : Ty) : p.commonType (ts ++ [u]) = (p.commonType ts).bind fun c => p.commonType [c, u] := by
  match ts with
  | [t] =>
    have ht := hts t List.mem_cons_self
    change ((p.commonPair t u).bind some) =
      (p.commonPair t t).bind fun c => (p.commonPair c u).bind some
    simp only [commonPair_self ht, Option.bind_some, commonPair_decay_left ht]
  | t :: v :: rest =>
    change ((v :: rest) ++ [u]).foldlM p.commonPair t = _
    rw [List.foldlM_append]
    rfl

/-- What a fold has found is decayed. -/
theorem decay_of_foldlM {rest : List Ty} (hrest : ∀ t ∈ rest, t.isNormal = true)
    (ht : t.isNormal = true) (hdecay : p.decay t = t)
    (h : rest.foldlM p.commonPair t = some c) : p.decay c = c := by
  induction rest generalizing t with
  | nil =>
    cases h
    exact hdecay
  | cons u rest ih =>
    rw [List.forall_mem_cons] at hrest
    rw [List.foldlM_cons] at h
    obtain ⟨v, hv, h⟩ := Option.bind_eq_some_iff.mp h
    exact ih hrest.2 (isNormal_of_commonPair ht hrest.1 hv) (decay_of_commonPair ht hrest.1 hv) h

theorem decay_of_commonType {ts : List Ty} (hts : ∀ t ∈ ts, t.isNormal = true)
    (h : p.commonType ts = some c) : p.decay c = c := by
  match ts with
  | [t] =>
    have ht := hts t List.mem_cons_self
    exact decay_of_commonPair ht ht h
  | t :: u :: rest =>
    obtain ⟨ht, hrest⟩ := List.forall_mem_cons.mp hts
    rw [List.forall_mem_cons] at hrest
    rw [commonType_cons_cons, List.foldlM_cons] at h
    obtain ⟨v, hv, h⟩ := Option.bind_eq_some_iff.mp h
    exact decay_of_foldlM hrest.2 (isNormal_of_commonPair ht hrest.1 hv)
      (decay_of_commonPair ht hrest.1 hv) h

/-- Decay is idempotent, and the common type of one type is that type decayed. The common type of a
list does not change when the types are decayed before, is itself decayed, and continues from the
common type of the list without its last type. -/
theorem commonType_laws (p : Program) :
    (∀ t : Ty, t.IsFormed → p.decay (p.decay t) = p.decay t ∧
      p.commonType [t] = some (p.decay t) ∧ p.commonType [t, t] = some (p.decay t)) ∧
    ∀ ts : List Ty, (∀ t ∈ ts, t.IsFormed) →
      p.commonType (ts.map p.decay) = p.commonType ts ∧
      (∀ c, p.commonType ts = some c → p.decay c = c) ∧
      (ts ≠ [] → ∀ u : Ty, u.IsFormed →
        p.commonType (ts ++ [u]) = (p.commonType ts).bind fun c => p.commonType [c, u]) := by
  constructor
  · intro t ht
    have ht := Ty.isFormed_iff_isNormal.mp ht
    have hself := commonPair_self (p := p) ht
    exact ⟨decay_decay ht, hself, (commonType_pair t t).trans hself⟩
  · intro ts hts
    have hts : ∀ t ∈ ts, t.isNormal = true := fun t ht => Ty.isFormed_iff_isNormal.mp (hts t ht)
    exact ⟨commonType_map_decay hts, fun _ => decay_of_commonType hts,
      fun hne u _ => commonType_append hts hne u⟩

end Program

namespace Development

/-- A class that converts to `int`. -/
def countingClass : Development :=
  run .lp64
    [.start "Count" .struct,
      .write ⟨1⟩ (.conversion (.declare [] (.builtin .int) [.cv .const])),
      .finish ⟨1⟩]

theorem reachable_countingClass : countingClass.Reachable := by
  refine reachable_run ?_
  intro a ha
  simp only [List.mem_cons, List.not_mem_nil, or_false] at ha
  rcases ha with rfl | rfl | rfl
  all_goals first | trivial | exact RecordStep.isWritten_of_declare rfl (by decide)

/-- A reference to the class and `int` come to `int` through the conversion function, and so come to
`long` with `long`. -/
theorem commonType_laws_countingClass :
    let p := countingClass.program
    let ts : List Ty := [.lvalueRef (.qualified (.record ⟨1⟩) .const), .builtin .int]
    countingClass.Reachable ∧ (∀ t ∈ ts, t.IsFormed) ∧ ts ≠ [] ∧ (Ty.builtin .long).IsFormed ∧
      p.commonType ts = some (.builtin .int) ∧
      p.commonType (ts.map p.decay) = some (.builtin .int) ∧
      p.commonType (ts ++ [.builtin .long]) = some (.builtin .long) := by
  intro p ts
  have hts : ∀ t ∈ ts, t.IsFormed := by
    intro t ht
    simp only [ts, List.mem_cons, List.not_mem_nil, or_false] at ht
    rcases ht with rfl | rfl <;> exact Ty.isFormed_iff_isNormal.mpr rfl
  have hcommon : p.commonType ts = some (.builtin .int) := by decide +kernel
  obtain ⟨hmap, -, happend⟩ := (Program.commonType_laws p).2 ts hts
  refine ⟨reachable_countingClass, hts, List.cons_ne_nil _ _, .builtin .long, hcommon,
    hmap.trans hcommon, ?_⟩
  rw [happend (List.cons_ne_nil _ _) _ (.builtin .long), hcommon]
  decide +kernel

end Development
end TypeTraits
