import TypeTraits.Proofs.Trait.CommonSymmetry
import TypeTraits.Proofs.Trait.DerivedConversions

/-!
# Converting to the common type

Two types that decay to no class convert to the type that they have in common by one standard
conversion each. Arithmetic conversions are such conversions, and joined qualifiers are added by
one. The hierarchy is asked twice: the common type of two pointers to classes takes any base, and
that of two member pointers any derived class, while the conversion wants the base unambiguous and
accessible, and does not change the class of a member pointer together with what it points to.
-/

namespace TypeTraits
namespace Program

variable {p : Program} {a b c d u x y z : Ty}

/-- What joining pointers leaves to the hierarchy: a pointer to a class converts to a base that it
is joined to, and a pointer to a member of a base converts to its type in the derived class. -/
def Joins (p : Program) (source target : Ty) : Prop :=
  (∀ x y, source.pointee? = some x → target.pointee? = some y → x.isRecord = true →
    y.isRecord = true → (p.baseConversion x y).isReachable = true) ∧
  ∀ c x d y, source.memberPointerParts? = some (c, x) → target.memberPointerParts? = some (d, y) →
    c = d ∨ x = y ∧ (p.baseConversion d c).isReachable = true

theorem baseConversion_same (h : x.unqualified = y.unqualified) :
    p.baseConversion x y = .reachable 0 := if_pos h

theorem pointerConversion_toVoid (hvoid : z.unqualified.isVoid = true)
    (hcovers : z.cv.covers a.cv = true) (hfunction : a.unqualified.isFunction = false) :
    (p.pointerConversion a z).isOk = true := by
  unfold pointerConversion
  split
  · rfl
  · simp only [Ty.splitCv_eq, hcovers, hvoid, hfunction]
    rfl

/-- Adding qualifiers and dropping `noexcept` keep a class. -/
theorem unqualified_of_converts (ha : a.isNormal = true) (hz : z.isNormal = true)
    (hrecord : a.isRecord = true)
    (h : (a.qualificationConvertible z || a.dropsNoexcept z) = true) :
    a.unqualified = z.unqualified := by
  obtain ⟨id, hid⟩ := Option.isSome_iff_exists.mp hrecord
  have hlevel : a.level? = none := by
    rw [← Ty.level?_unqualified ha, Ty.unqualified_of_recordId? hid]
    rfl
  have hdrops : a.dropsNoexcept z = false := by
    cases a <;> first | rfl | cases hrecord
  rw [hdrops, Bool.or_false, Ty.qualificationConvertible_eq ha hz, Bool.and_eq_true] at h
  simpa [Ty.convertsBelow, hlevel] using h.2

theorem pointerConversion_toBase (ha : a.isNormal = true) (hz : z.isNormal = true)
    (hrecord : a.isRecord = true) (hrecord' : z.isRecord = true)
    (hne : a.unqualified ≠ z.unqualified) (hcovers : z.cv.covers a.cv = true) :
    (p.pointerConversion a z).isOk = (p.baseConversion a z).isReachable := by
  have hbase : p.baseConversion a.unqualified z.unqualified = p.baseConversion a z := by
    unfold baseConversion
    rw [Ty.unqualified_unqualified ha, Ty.unqualified_unqualified hz]
  have hvoid : z.unqualified.isVoid = false := by
    rw [Ty.isVoid_unqualified hz, Ty.isVoid_of_isRecord hrecord']
  rw [pointerConversion, if_neg fun h => hne (unqualified_of_converts ha hz hrecord h)]
  simp only [Ty.splitCv_eq, hcovers, hvoid, Ty.isRecord_unqualified ha, Ty.isRecord_unqualified hz,
    hrecord, hrecord', hbase]
  exact BaseConversion.isOk_sequence? _

theorem not_isFunction_of_joinsToVoid (h : joinsToVoid x y = true) : x.isFunction = false := by
  simp only [joinsToVoid, Bool.or_eq_true, Bool.and_eq_true, Bool.not_eq_true'] at h
  rcases h with ⟨hvoid, -⟩ | ⟨-, hfunction⟩
  · cases x <;> first | rfl | cases hvoid
  · exact hfunction

/-- A pointer converts by adding qualifiers or dropping `noexcept`, whatever the hierarchy. -/
theorem isOk_pointerConversion_of_adds (ha : a.isNormal = true) (hz : z.isNormal = true)
    (hadds : (a.qualificationConvertible z || a.dropsNoexcept z) = true) :
    (p.pointerConversion a z).isOk = true ↔
      (a.isRecord = true → z.isRecord = true → (p.baseConversion a z).isReachable = true) := by
  rw [pointerConversion, if_pos hadds]
  refine iff_of_true rfl fun hrecord _ => ?_
  rw [baseConversion_same (unqualified_of_converts ha hz hrecord hadds)]
  rfl

/-- A pointer converts to one to `void` with its qualifiers and those of another one. -/
theorem isOk_pointerConversion_void (hvoid : joinsToVoid a.unqualified b.unqualified = true) :
    (p.pointerConversion a (Ty.void.qualify (a.cv ∪ b.cv))).isOk = true := by
  have hcv : (Ty.void.qualify (a.cv ∪ b.cv)).cv = a.cv ∪ b.cv :=
    (Ty.cv_qualify rfl).trans (Cv.empty_union _)
  refine pointerConversion_toVoid ?_ ?_ (not_isFunction_of_joinsToVoid hvoid)
  · rw [Ty.unqualified_qualify rfl]
    rfl
  · rw [hcv]
    exact Cv.covers_union _ (Cv.covers_self _)

/-- A pointer to a class converts to one to a class with its qualifiers and others if that is a base
of it. -/
theorem isOk_pointerConversion_record {id : RecordId} {cv : Cv} (ha : a.isNormal = true)
    (hrecord : a.isRecord = true) :
    (p.pointerConversion a ((Ty.record id).qualify (a.cv ∪ cv))).isOk = true ↔
      (p.baseConversion a ((Ty.record id).qualify (a.cv ∪ cv))).isReachable = true := by
  have hz : ((Ty.record id).qualify (a.cv ∪ cv)).isNormal = true := Ty.isNormal_qualify rfl
  obtain ⟨-, hrecordZ, hunqualified⟩ := Ty.qualify_record id (a.cv ∪ cv)
  have hcovers : ((Ty.record id).qualify (a.cv ∪ cv)).cv.covers a.cv = true := by
    rw [Ty.cv_qualify rfl]
    exact (congrArg (Cv.covers · a.cv) (Cv.empty_union _)).trans
      (Cv.covers_union _ (Cv.covers_self _))
  by_cases hkept : a.unqualified = .record id
  · have hadds : a.qualificationConvertible ((Ty.record id).qualify (a.cv ∪ cv)) = true := by
      rw [Ty.qualificationConvertible_eq ha hz, hcovers, Ty.convertsBelow, hunqualified, hkept]
      simp
    rw [isOk_pointerConversion_of_adds ha hz (by rw [hadds, Bool.true_or])]
    exact ⟨fun h => h hrecord hrecordZ, fun h _ _ => h⟩
  · rw [pointerConversion_toBase ha hz hrecord hrecordZ (fun h => hkept (h.trans hunqualified))
      hcovers]

/-- A pointer converts to a pointer that it is joined to if its class does. -/
theorem isOk_pointerConversion (ha : a.isNormal = true) (hb : b.isNormal = true)
    (h : p.compositePointer? a b = some (.pointer z)) :
    (p.pointerConversion a z).isOk = true ↔
      (a.isRecord = true → z.isRecord = true → (p.baseConversion a z).isReachable = true) := by
  have hz : z.isNormal = true := (decayed_compositePointer? ha hb h).1
  obtain ⟨_, ⟨⟩, hcases⟩ := compositePointer?_eq_some ha hb h
  rcases hcases with ⟨hvoid, rfl⟩ | ⟨hbase, x, hx, rfl⟩ | hjoined
  · refine iff_of_true (isOk_pointerConversion_void hvoid) fun _ hrecord => ?_
    rw [Ty.isRecord, Ty.recordId?_qualify] at hrecord
    cases hrecord
  · simp only [joinsToBase, Bool.and_eq_true, bne_iff_ne] at hbase
    obtain ⟨⟨-, hrecordA⟩, hrecordB⟩ := hbase
    have hclass : ∃ id, x = .record id := by
      rcases eq_of_baseOfTwo? hx with rfl | ⟨rfl, -⟩
      · exact ⟨_, Ty.eq_record_of_recordId? ha (Option.isSome_iff_exists.mp hrecordA).choose_spec⟩
      · exact ⟨_, Ty.eq_record_of_recordId? hb (Option.isSome_iff_exists.mp hrecordB).choose_spec⟩
    obtain ⟨id, rfl⟩ := hclass
    have hrecord : a.isRecord = true := (Ty.isRecord_unqualified ha).symm.trans hrecordA
    refine (isOk_pointerConversion_record ha hrecord).trans ⟨fun h _ _ => h, fun h => ?_⟩
    exact h hrecord (Ty.qualify_record id _).2.1
  · exact isOk_pointerConversion_of_adds ha hz (Ty.converts_joined? ha hb hjoined)

theorem joins_of_neither (hpointer : a.pointee? = none ∨ b.pointee? = none)
    (hmember : a.memberPointerParts? = none ∨ b.memberPointerParts? = none) : p.Joins a b := by
  constructor
  · intro x y hx hy
    simp [hx, hy] at hpointer
  · intro c x d y hx hy
    simp [hx, hy] at hmember

theorem joins_pointer_iff : p.Joins (.pointer x) (.pointer z) ↔
    (x.isRecord = true → z.isRecord = true → (p.baseConversion x z).isReachable = true) := by
  refine ⟨fun h => h.1 x z rfl rfl, fun h => ⟨?_, ?_⟩⟩
  · rintro _ _ ⟨⟩ ⟨⟩
    exact h
  · intro c x d y hx
    cases hx

theorem joins_memberPointer_iff : p.Joins (.memberPointer c x) (.memberPointer z u) ↔
    (c = z ∨ x = u ∧ (p.baseConversion z c).isReachable = true) := by
  refine ⟨fun h => h.2 c x z u rfl rfl, fun h => ⟨?_, ?_⟩⟩
  · intro x y hx
    cases hx
  · rintro _ _ _ _ ⟨⟩ ⟨⟩
    exact h

theorem joins_self (t : Ty) : p.Joins t t := by
  constructor
  · intro x y hx hy _ _
    cases hx.symm.trans hy
    rw [baseConversion_same rfl]
    rfl
  · intro c x d y hx hy
    cases hx.symm.trans hy
    exact .inl rfl

/-- A member pointer converts to one that it is joined to if it keeps its class, or keeps what it
points to and its class is a base. -/
theorem isOk_memberPointerConversion (hx : x.isNormal = true) (hy : y.isNormal = true)
    (hjoined : x.joined? y = some u) :
    (p.memberPointerConversion c x z u).isOk = true ↔
      (c = z ∨ x = u ∧ (p.baseConversion z c).isReachable = true) := by
  unfold memberPointerConversion
  by_cases hclass : c = z
  · rw [if_pos hclass, if_pos (Ty.converts_joined? hx hy hjoined)]
    exact iff_of_true rfl (.inl hclass)
  · rw [if_neg hclass]
    by_cases hkept : x = u
    · simp [hkept, hclass]
    · simp [hkept, hclass, Except.isOk, Except.toBool]

section Standard

variable {e : Expr}

theorem isOk_standardConversion_self (he : e.type.asValue = a) (ha : a.isDecayed = true) :
    (p.standardConversion e a .copy).isOk = true := by
  rw [standardConversion, he, Ty.unqualified_of_isDecayed ha, if_pos rfl]
  rfl

/-- An operand converts to the composite type if the hierarchy lets it. -/
theorem isOk_standardConversion_composite (ha : a.isNormal = true) (hb : b.isNormal = true)
    (hda : a.isDecayed = true) (hdu : u.isDecayed = true) (h : p.Composite a b u)
    (he : e.type.asValue = a) :
    (p.standardConversion e u .copy).isOk = true ↔ p.Joins a u := by
  by_cases hsame : a = u
  · subst hsame
    exact iff_of_true (isOk_standardConversion_self he hda) (joins_self a)
  rw [standardConversion, he, Ty.unqualified_of_isDecayed hdu, if_neg hsame]
  cases h with
  | nullLeft hlevel =>
    refine iff_of_true ?_ (joins_of_neither (.inl rfl) (.inl rfl))
    cases b <;> first | rfl | cases hlevel | cases hdu
  | nullRight _ => exact absurd rfl hsame
  | @pointers x y _ h =>
    obtain ⟨z, rfl, -⟩ := compositePointer?_eq_some (a := x) (b := y) ha hb h
    exact (isOk_pointerConversion (a := x) (b := y) ha hb h).trans joins_pointer_iff.symm
  | @members c d x y z u hcls hjoined =>
    simp only [Ty.isNormal, Bool.and_eq_true] at ha hb
    exact (isOk_memberPointerConversion ha.2 hb.2 hjoined).trans joins_memberPointer_iff.symm

/-- An arithmetic operand converts to every builtin type. -/
theorem isOk_standardConversion_builtin {k : Builtin} (ha : a.isDecayed = true)
    (h : p.isArithmeticOperand a = true) (he : e.type.asValue = a) :
    (p.standardConversion e (.builtin k) .copy).isOk = true := by
  unfold standardConversion
  simp only [he]
  split
  · rfl
  · cases a with
    | builtin s => rfl
    | enum i =>
      change (p.enumConversion (.enum i) (.builtin k) k).isOk = true
      unfold enumConversion
      unfold isArithmeticOperand at h
      cases he : p.enumOf? (.enum i) with
      | none => simp [he, Ty.builtin?, Ty.core] at h
      | some e => simp_all [Ty.builtin?, Ty.core, Except.isOk, Except.toBool]
    | qualified _ _ | lvalueRef _ | rvalueRef _ | array _ _ | functionNamed _ | unknown _ =>
      cases ha
    | _ => simp [isArithmeticOperand, enumOf?, Ty.enumId?, Ty.builtin?, Ty.core] at h

end Standard

/-- A type that is no reference has the value that decay leaves of it. -/
theorem asValue_eq_asOperand (h : t.isNormal = true) (hreference : t.isReference = false) :
    t.asValue = (p.decayObject t).asOperand ∧ t.isVoid = (p.decayObject t).isVoid ∧
      t.isRecord = (p.decayObject t).isRecord := by
  cases t with
  | lvalueRef t | rvalueRef t => cases hreference
  | functionNamed _ | unknown _ => cases h
  | function r ps q =>
    rw [decayObject_function]
    cases Signature.isAbominable ⟨r, ps, q⟩ <;> exact ⟨rfl, rfl, rfl⟩
  | qualified t cv =>
    cases t <;> simp [Ty.isNormal, Ty.takesQualifier] at h <;> exact ⟨rfl, rfl, rfl⟩
  | _ => exact ⟨rfl, rfl, rfl⟩

theorem isVoid_decay (h : x.isVoid = true) : (p.decay x).isVoid = true := by
  cases x with
  | qualified x cv => cases x <;> first | rfl | cases h
  | _ => first | rfl | cases h

/-- The operand that stands for a type has the value that decay leaves of the type. -/
theorem exists_operand (hx : x.isNormal = true)
    (habominable : ∀ f, x.signature? = some f → f.isAbominable = false) :
    ∃ e, Expr.declval x = .ok e ∧ e.type.asValue = (p.decay x).asOperand ∧
      e.type.isVoid = (p.decay x).isVoid ∧ e.type.isRecord = (p.decay x).isRecord := by
  obtain ⟨hnormal, hreference⟩ := withoutReference_of_isNormal hx
  have hvalue := asValue_eq_asOperand (p := p) hnormal hreference
  rw [decay]
  cases x with
  | lvalueRef x => exact ⟨_, rfl, hvalue⟩
  | rvalueRef x =>
    refine ⟨_, rfl, ?_⟩
    split <;> exact hvalue
  | function r ps q =>
    have hplain : Signature.isAbominable ⟨r, ps, q⟩ = false := habominable _ rfl
    exact ⟨_, by simp [Expr.declval, hplain]; rfl, hvalue⟩
  | functionNamed _ | unknown _ => cases hx
  | qualified x cv =>
    cases x <;> simp [Ty.isNormal, Ty.takesQualifier] at hx <;> exact ⟨_, rfl, rfl, rfl, rfl⟩
  | _ => exact ⟨_, rfl, hvalue⟩

/-- How a decayed type comes to the type that it has in common with another one. -/
inductive Meets (p : Program) (a b : Ty) : Ty → Prop
  | same (h : a = b) : Meets p a b a
  | value (ha : a.isVoid = false) (hb : b.isVoid = false) (h : a.asOperand = b.asOperand) :
      Meets p a b a.asOperand
  | arithmetic (ha : a.isVoid = false) (hb : b.isVoid = false)
      (hoperand : p.isArithmeticOperand a.asOperand = true)
      (hoperand' : p.isArithmeticOperand b.asOperand = true) (kind : Builtin) :
      Meets p a b (.builtin kind)
  | composite {c : Ty} (ha : a.isVoid = false) (hb : b.isVoid = false)
      (h : p.Composite a.asOperand b.asOperand c) : Meets p a b c

section Meets

variable (ha : a.IsPlainValue) (hb : b.IsPlainValue)

include ha hb

theorem meets_of_commonValue? (h : p.commonValue? a b = some c) : p.Meets a b c := by
  unfold commonValue? at h
  split at h
  · next hsame =>
    cases h
    exact .same hsame
  · obtain ⟨hvoid, h⟩ := Option.ite_none_left_eq_some.mp h
    rw [Bool.or_eq_true, not_or, Bool.not_eq_true, Bool.not_eq_true] at hvoid
    unfold valueType? at h
    split at h
    · next hsame =>
      cases h
      exact .value hvoid.1 hvoid.2 hsame
    · rcases Option.or_eq_some_iff.mp h with h | ⟨-, h⟩
      · obtain ⟨hoperand, hoperand', x, y, -, -, rfl⟩ := arithmeticType?_eq_some h
        exact .arithmetic hvoid.1 hvoid.2 hoperand hoperand' _
      · exact .composite hvoid.1 hvoid.2
          (composite_of_compositeType? ha.asOperand.decayed hb.asOperand.decayed h)

theorem Meets.symm (hp : p.BasesAcyclic) (h : p.Meets a b c) : p.Meets b a c := by
  cases h with
  | same h =>
    subst h
    exact .same rfl
  | value hva hvb h => exact h ▸ .value hvb hva h.symm
  | arithmetic hva hvb hoperand hoperand' kind => exact .arithmetic hvb hva hoperand' hoperand kind
  | composite hva hvb h =>
    exact .composite hvb hva (h.symm hp ha.asOperand.normal hb.asOperand.normal)

theorem Meets.facts (h : p.Meets a b c) :
    c.isDecayed = true ∧ c.isRecord = false ∧ c.isVoid = a.isVoid := by
  have hvoid : ∀ {t : Ty}, t.isDecayed = true → t.isVoid = false → t.asOperand.isVoid = false := by
    intro t ht hv
    cases t <;> first | rfl | cases hv | cases ht
  cases h with
  | same h => exact ⟨ha.decayed, ha.notClass, rfl⟩
  | value hva hvb h =>
    exact ⟨ha.asOperand.decayed, ha.asOperand.notClass, (hvoid ha.decayed hva).trans hva.symm⟩
  | arithmetic hva hvb _ _ kind => exact ⟨rfl, rfl, hva.symm⟩
  | composite hva hvb h =>
    have hlevel := h.level? ha.asOperand.normal hb.asOperand.normal
    have hdecayed := (h.decayed ha.asOperand.normal hb.asOperand.normal ha.asOperand.decayed
      hb.asOperand.decayed).2
    rw [hva]
    cases c <;> first | exact ⟨rfl, rfl, rfl⟩ | cases hlevel | cases hdecayed

/-- An operand converts to the type that it has in common with another one if the hierarchy lets
pointers convert. -/
theorem Meets.isOk_standardConversion {e : Expr} (h : p.Meets a b c)
    (hfunction : c.isFunction = false) (he : e.type.asValue = a.asOperand) :
    (p.standardConversion e c .copy).isOk = true ↔ p.Joins a.asOperand c := by
  have hdecayed := (h.facts ha hb).1
  cases h with
  | same _ =>
    rw [Ty.asOperand_of_isDecayed hfunction hdecayed] at he ⊢
    exact iff_of_true (isOk_standardConversion_self he hdecayed) (joins_self _)
  | value _ _ _ =>
    exact iff_of_true (isOk_standardConversion_self he hdecayed) (joins_self _)
  | arithmetic _ _ hoperand _ kind =>
    exact iff_of_true (isOk_standardConversion_builtin ha.asOperand.decayed hoperand he)
      (joins_of_neither (.inr rfl) (.inr rfl))
  | composite _ _ h =>
    exact isOk_standardConversion_composite ha.asOperand.normal hb.asOperand.normal
      ha.asOperand.decayed hdecayed h he

end Meets

end Program

namespace Solver

open Program

variable {s : Solver} {x b c : Ty}

/-- A type converts to the type that it has in common with another one if that is no function, if
only `void` is brought to `void`, and if the hierarchy lets pointers convert. -/
theorem isConvertible_of_meets (hx : x.isNormal = true)
    (habominable : ∀ f, x.signature? = some f → f.isAbominable = false)
    (ha : (s.program.decay x).IsPlainValue) (hb : b.IsPlainValue)
    (h : s.program.Meets (s.program.decay x) b c) :
    s.isConvertible x c = true ↔ c.isFunction = false ∧ (c.isVoid = true → x.isVoid = true) ∧
      s.program.Joins (s.program.decay x).asOperand c := by
  obtain ⟨hdecayed, hclass, hvoid⟩ := h.facts ha hb
  obtain ⟨e, hdeclval, hvalue, hevoid, herecord⟩ := exists_operand (p := s.program) hx habominable
  rw [isConvertible_eq_converts, converts]
  cases hcvoid : c.isVoid with
  | true =>
    obtain rfl := Ty.eq_void_of_isVoid hdecayed hcvoid
    rw [Bool.or_true, if_pos rfl, Bool.and_true]
    exact ⟨fun h => ⟨rfl, fun _ => h, joins_of_neither (.inr rfl) (.inr rfl)⟩, fun h => h.2.1 rfl⟩
  | false =>
    have hxvoid : x.isVoid = false := by
      rw [← Bool.not_eq_true]
      intro hxvoid
      rw [isVoid_decay hxvoid, hcvoid] at hvoid
      cases hvoid
    rw [hxvoid, Bool.or_self, if_neg (by simp), Ty.isArray_of_isDecayed hdecayed, Bool.false_or]
    cases hfunction : c.isFunction with
    | true => simp
    | false =>
      rw [if_neg (by simp), hdeclval]
      dsimp only
      rw [copyInit_standard (Ty.isReference_of_isDecayed hdecayed) hclass
        (hevoid.trans (hvoid.symm.trans hcvoid)) (herecord.trans ha.notClass)]
      have hstandard := h.isOk_standardConversion ha hb hfunction hvalue
      have hmap : ∀ r : Formed Conversion, (r.map (·.effects)).isOk = r.isOk := by
        intro r
        cases r <;> rfl
      rw [hmap, hstandard]
      simp

end Solver

namespace Development

variable {d : Development} {t u c : Ty} {s : Solver}

/-- What converts to the common type of two types that decay to no class. Each of them does, as far
as the hierarchy lets pointers and member pointers convert. The other two conditions are about
references to `void` and to functions that nothing points to: they decay to `void`, to which no
reference converts, and to a function, to which nothing does. -/
theorem commonType_converts (h : d.Reachable) (hs : s.program = d.program) (ht : t.IsFormed)
    (hu : u.IsFormed) (htplain : ∀ f, t.signature? = some f → f.isAbominable = false)
    (huplain : ∀ f, u.signature? = some f → f.isAbominable = false)
    (htclass : (d.program.decay t).isRecord = false)
    (huclass : (d.program.decay u).isRecord = false) (hc : d.program.commonType [t, u] = some c) :
    ∀ x ∈ [t, u], s.isConvertible x c = true ↔
      c.isFunction = false ∧ (c.isVoid = true → x.isVoid = true) ∧
        d.program.Joins (d.program.decay x).asOperand c := by
  have ht := Ty.isFormed_iff_isNormal.mp ht
  have hu := Ty.isFormed_iff_isNormal.mp hu
  have hvalueT := Program.isPlainValue_decay ht htclass
  have hvalueU := Program.isPlainValue_decay hu huclass
  rw [Program.commonType_pair, Program.commonPair_of_not_class ht hu htclass huclass] at hc
  have hmeets := Program.meets_of_commonValue? hvalueT hvalueU hc
  intro x hx
  simp only [List.mem_cons, List.not_mem_nil, or_false] at hx
  rw [← hs] at hvalueT hvalueU hmeets ⊢
  rcases hx with rfl | rfl
  · exact Solver.isConvertible_of_meets ht htplain hvalueT hvalueU hmeets
  · have hacyclic : s.program.BasesAcyclic := hs ▸ h.valid.basesAcyclic
    exact Solver.isConvertible_of_meets hu huplain hvalueU hvalueT
      (hmeets.symm hvalueT hvalueU hacyclic)

/-- A base with a private and a public derived class. -/
def privateAndPublic : Development :=
  run .lp64
    [.start "Base" .struct,
      .finish ⟨1⟩,
      .start "Private" .struct,
      .write ⟨2⟩ (.baseWith (.record ⟨1⟩) .priv false),
      .finish ⟨2⟩,
      .start "Public" .struct,
      .write ⟨3⟩ (.base (.record ⟨1⟩)),
      .finish ⟨3⟩]

theorem reachable_privateAndPublic : privateAndPublic.Reachable := by
  refine reachable_run ?_
  intro a ha
  simp only [List.mem_cons, List.not_mem_nil, or_false] at ha
  rcases ha with rfl | rfl | rfl | rfl | rfl | rfl | rfl | rfl
  all_goals first | trivial | exact RecordStep.isWritten_of_types rfl (by decide)

/-- A pointer to a class with a private base is joined to a pointer to the base and does not convert
to it, nor does a member pointer that is to change its class and add a qualifier. -/
theorem commonType_converts_privateAndPublic :
    let p := privateAndPublic.program
    let s : Solver := { program := p }
    let base := Ty.pointer (.record ⟨1⟩)
    let derived := Ty.pointer (.record ⟨2⟩)
    let member := Ty.memberPointer (.record ⟨1⟩) (.builtin .int)
    let constMember := Ty.memberPointer (.record ⟨3⟩) (.qualified (.builtin .int) .const)
    privateAndPublic.Reachable ∧ (∀ t ∈ [base, derived, member, constMember], t.IsFormed) ∧
      p.commonType [base, derived] = some base ∧ s.isConvertible base base = true ∧
      s.isConvertible derived base = false ∧
      p.commonType [member, constMember] = some constMember ∧
      s.isConvertible member constMember = false := by
  intro p s base derived member constMember
  have hformed : ∀ t ∈ [base, derived, member, constMember], t.IsFormed := by
    intro t ht
    simp only [List.mem_cons, List.not_mem_nil, or_false] at ht
    rcases ht with rfl | rfl | rfl | rfl <;> exact Ty.isFormed_iff_isNormal.mpr (by decide)
  have hpointer : p.commonType [base, derived] = some base := by decide +kernel
  have hmember : p.commonType [member, constMember] = some constMember := by decide +kernel
  have hpointers := commonType_converts (s := s) reachable_privateAndPublic (by dsimp only [s])
    (hformed base (by simp)) (hformed derived (by simp)) nofun nofun rfl rfl hpointer
  have hmembers := commonType_converts (s := s) reachable_privateAndPublic (by dsimp only [s])
    (hformed member (by simp)) (hformed constMember (by simp)) nofun nofun rfl rfl hmember
  have hprivate : (p.baseConversion (.record ⟨2⟩) (.record ⟨1⟩)).isReachable = false := by
    decide +kernel
  refine ⟨reachable_privateAndPublic, hformed, hpointer, ?_, ?_, hmember, ?_⟩
  · exact (hpointers base List.mem_cons_self).mpr ⟨rfl, nofun, Program.joins_self base⟩
  · refine Bool.eq_false_iff.mpr fun h => ?_
    have hreachable := ((hpointers derived (by simp)).mp h).2.2.1 _ _ rfl rfl rfl rfl
    exact Bool.false_ne_true (hprivate.symm.trans hreachable)
  · refine Bool.eq_false_iff.mpr fun h => ?_
    rcases ((hmembers member (by simp)).mp h).2.2.2 _ _ _ _ rfl rfl with hclass | ⟨hkept, -⟩
    · cases hclass
    · cases hkept

end Development
end TypeTraits
