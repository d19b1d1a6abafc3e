import TypeTraits.Proofs.Ty.Decay
import TypeTraits.Proofs.Ty.Levels

/-!
# Composite types

The type that two pointers, member pointers or arithmetic operands are brought to. It does not
depend on the order of the operands where no class is a base of its own base. An operand converts to
it whatever qualifiers and exception specifications are joined; only the way from a class to a base
can fail, which is joined without a look at access and ambiguity.
-/

namespace TypeTraits

namespace Signature

/-- The signature without `noexcept`. -/
def plain (s : Signature) : Signature := { s with quals := { s.quals with noexcept := false } }

theorem eq_of_plain {s t : Signature} (h : s.plain = t.plain)
    (hnoexcept : s.quals.noexcept = t.quals.noexcept) : s = t := by
  rcases s with ⟨_, _, ⟨_, _, _, _⟩⟩
  rcases t with ⟨_, _, ⟨_, _, _, _⟩⟩
  simp_all [plain]

end Signature

namespace Ty

variable {a b f : Ty}

theorem eq_type_of_signature? {s : Signature} (h : a.signature? = some s) : a = s.type := by
  cases a <;> cases h
  rfl

theorem commonFunction?_type (x y : Signature) :
    x.type.commonFunction? y.type =
      if x.plain = y.plain then some (if x.quals.noexcept then y.type else x.type) else none :=
  rfl

/-- Two functions have a common type if they differ at most in being `noexcept`. -/
theorem commonFunction?_eq_some (h : a.commonFunction? b = some f) :
    ∃ x y : Signature, a = x.type ∧ b = y.type ∧ x.plain = y.plain ∧
      f = if x.quals.noexcept then b else a := by
  cases hx : a.signature? with
  | none => simp [commonFunction?, hx] at h
  | some x =>
    cases hy : b.signature? with
    | none => simp [commonFunction?, hx, hy] at h
    | some y =>
      obtain rfl := eq_type_of_signature? hx
      obtain rfl := eq_type_of_signature? hy
      rw [commonFunction?_type] at h
      obtain ⟨hplain, hf⟩ := Option.ite_none_right_eq_some.mp h
      exact ⟨x, y, rfl, rfl, hplain, (Option.some.inj hf).symm⟩

theorem commonFunction?_comm (a b : Ty) : a.commonFunction? b = b.commonFunction? a := by
  have hmirrored : ∀ {a b f : Ty}, a.commonFunction? b = some f → b.commonFunction? a = some f := by
    intro a b f h
    obtain ⟨x, y, rfl, rfl, hplain, rfl⟩ := commonFunction?_eq_some h
    rw [commonFunction?_type, if_pos hplain.symm]
    by_cases hsame : x.quals.noexcept = y.quals.noexcept
    · rw [Signature.eq_of_plain hplain hsame]
    · cases hx : x.quals.noexcept <;> cases hy : y.quals.noexcept <;> simp_all
  refine Option.ext fun f => ⟨hmirrored, hmirrored⟩

/-- A function of a common type is of that type or loses its `noexcept`. -/
theorem eq_or_dropsNoexcept (h : a.commonFunction? b = some f) :
    f = a ∨ a.dropsNoexcept f = true := by
  obtain ⟨x, y, rfl, rfl, hplain, rfl⟩ := commonFunction?_eq_some h
  cases hx : x.quals.noexcept with
  | false => exact .inl (by simp)
  | true =>
    cases hy : y.quals.noexcept with
    | true => exact .inl (by rw [Signature.eq_of_plain hplain (hx.trans hy.symm), if_pos rfl])
    | false =>
      refine .inr ?_
      have hy' : y.plain = y := by
        rcases y with ⟨_, _, ⟨_, _, _, _⟩⟩
        simp_all [Signature.plain]
      rw [if_pos rfl]
      change (x.quals.noexcept && !y.quals.noexcept && x.plain == y) = true
      simp [hx, hy, hplain, hy']

/-- What pointers to two types are joined to where neither `void` nor a base class comes in. -/
def joined? (a b : Ty) : Option Ty :=
  (a.commonFunction? b).or ((a.combineCv b).map Prod.fst)

theorem joined?_comm (ha : a.isNormal = true) (hb : b.isNormal = true) :
    a.joined? b = b.joined? a := by
  rw [joined?, joined?, commonFunction?_comm, combineCv_comm ha hb]

theorem joined?_eq_some (h : a.joined? b = some f) :
    a.commonFunction? b = some f ∨ ∃ changed, a.combineCv b = some (f, changed) := by
  rcases Option.or_eq_some_iff.mp h with h | ⟨-, h⟩
  · exact .inl h
  · obtain ⟨⟨_, changed⟩, hc, rfl⟩ := Option.map_eq_some_iff.mp h
    exact .inr ⟨changed, hc⟩

theorem isNormal_joined? (ha : a.isNormal = true) (hb : b.isNormal = true)
    (h : a.joined? b = some f) : f.isNormal = true := by
  rcases joined?_eq_some h with h | ⟨changed, h⟩
  · obtain ⟨x, y, -, -, -, rfl⟩ := commonFunction?_eq_some h
    split <;> assumption
  · exact isNormal_combineCv ha hb h

/-- A pointer converts to what it is joined to by adding qualifiers or dropping `noexcept`. -/
theorem converts_joined? (ha : a.isNormal = true) (hb : b.isNormal = true)
    (h : a.joined? b = some f) :
    (a.qualificationConvertible f || a.dropsNoexcept f) = true := by
  rcases joined?_eq_some h with h | ⟨changed, h⟩
  · rcases eq_or_dropsNoexcept h with rfl | hdrops
    · rw [qualificationConvertible_self ha, Bool.true_or]
    · rw [hdrops, Bool.or_true]
  · rw [(qualificationConvertible_combineCv ha hb h).1, Bool.true_or]

theorem signature?_unqualified (h : a.isNormal = true) :
    a.unqualified.signature? = a.signature? := by
  cases a with
  | qualified a cv => cases a <;> simp [isNormal, takesQualifier] at h <;> rfl
  | array a b =>
    have ha : a.isNormal = true := h
    rw [unqualified_array ha]
    rfl
  | _ => rfl

end Ty

namespace Program

/-- How two decayed types come to a composite type. -/
inductive Composite (p : Program) : Ty → Ty → Ty → Prop
  | nullLeft {b : Ty} (h : b.level?.isSome = true) : Composite p .nullptr b b
  | nullRight {a : Ty} (h : a.level?.isSome = true) : Composite p a .nullptr a
  | pointers {x y u : Ty} (h : p.compositePointer? x y = some u) :
      Composite p (.pointer x) (.pointer y) u
  | members {c d x y z u : Ty} (hcls : z = c ∨ z = d) (hjoined : x.joined? y = some u) :
      Composite p (.memberPointer c x) (.memberPointer d y) (.memberPointer z u)

variable {p : Program} {a b c d u x y z : Ty}

/-- No class is a base of one of its bases. -/
def BasesAcyclic (p : Program) : Prop :=
  ∀ b d : RecordId, b ≠ d → p.isBaseOf (.record b) (.record d) = true →
    p.isBaseOf (.record d) (.record b) = false

theorem isBaseOf_of_recordId? {b d : RecordId} (hx : x.recordId? = some b)
    (hy : y.recordId? = some d) : p.isBaseOf x y = p.isBaseOf (.record b) (.record d) := by
  unfold isBaseOf
  rw [hx, hy, Ty.unqualified_of_recordId? hx, Ty.unqualified_of_recordId? hy]
  rfl

/-- Only a class written in another way can be a base of its own base. -/
theorem BasesAcyclic.isBaseOf_asymm (hp : p.BasesAcyclic)
    (hdiffers : x.isRecord = true → x.recordId? ≠ y.recordId?) (h : p.isBaseOf x y = true) :
    p.isBaseOf y x = false := by
  cases hx : x.recordId? with
  | none => simp [isBaseOf, hx] at h
  | some b =>
    cases hy : y.recordId? with
    | none => simp [isBaseOf, hx, hy] at h
    | some d =>
      rw [isBaseOf_of_recordId? hx hy] at h
      rw [isBaseOf_of_recordId? hy hx]
      have hne : b ≠ d := by
        rintro rfl
        exact hdiffers (by simp [Ty.isRecord, hx]) (hx.trans hy.symm)
      exact hp b d hne h

/-- The base of two classes of which one is a base of the other. -/
def baseOfTwo? (p : Program) (x y : Ty) : Option Ty :=
  if p.isBaseOf x y then some x else if p.isBaseOf y x then some y else none

/-- Whether pointers to two types are joined to a pointer to `void`. -/
def joinsToVoid (x y : Ty) : Bool :=
  x.isVoid && !y.isFunction || y.isVoid && !x.isFunction

/-- Whether pointers to two types are joined to a pointer to a base. -/
def joinsToBase (x y : Ty) : Bool :=
  x != y && x.isRecord && y.isRecord

theorem compositePointer?_eq (ha : a.isNormal = true) (hb : b.isNormal = true) :
    p.compositePointer? a b =
      if joinsToVoid a.unqualified b.unqualified then
        some (.pointer (Ty.void.qualify (a.cv ∪ b.cv)))
      else if joinsToBase a.unqualified b.unqualified then
        (p.baseOfTwo? a.unqualified b.unqualified).map fun x => .pointer (x.qualify (a.cv ∪ b.cv))
      else (a.joined? b).map .pointer := by
  have hfunction : a.unqualified.commonFunction? b.unqualified = a.commonFunction? b := by
    unfold Ty.commonFunction?
    rw [Ty.signature?_unqualified ha, Ty.signature?_unqualified hb]
    cases ha' : a.signature? with
    | none => rfl
    | some s =>
      cases hb' : b.signature? with
      | none => rfl
      | some t =>
        obtain rfl := Ty.eq_type_of_signature? ha'
        obtain rfl := Ty.eq_type_of_signature? hb'
        rfl
  unfold compositePointer? baseOfTwo? Ty.joined?
  simp only [Ty.splitCv_eq, hfunction]
  refine ite_congr rfl (fun _ => rfl) fun _ => ite_congr rfl (fun _ => ?_) fun _ => ?_
  · rw [apply_ite (Option.map _), apply_ite (Option.map _)]
    rfl
  · cases a.commonFunction? b <;> simp [Function.comp_def]

theorem joinsToVoid_comm (x y : Ty) : joinsToVoid x y = joinsToVoid y x := Bool.or_comm ..

theorem joinsToBase_comm (x y : Ty) : joinsToBase x y = joinsToBase y x := by
  rw [joinsToBase, joinsToBase, bne_comm, Bool.and_right_comm]

theorem baseOfTwo?_comm (hp : p.BasesAcyclic)
    (hdiffers : x.isRecord = true → x.recordId? ≠ y.recordId?) :
    p.baseOfTwo? x y = p.baseOfTwo? y x := by
  unfold baseOfTwo?
  cases hxy : p.isBaseOf x y with
  | true => simp [hp.isBaseOf_asymm hdiffers hxy]
  | false => cases p.isBaseOf y x <;> rfl

theorem compositePointer?_comm (hp : p.BasesAcyclic) (ha : a.isNormal = true)
    (hb : b.isNormal = true) : p.compositePointer? a b = p.compositePointer? b a := by
  rw [compositePointer?_eq ha hb, compositePointer?_eq hb ha, joinsToVoid_comm b.unqualified,
    joinsToBase_comm b.unqualified, Cv.union_comm b.cv, Ty.joined?_comm hb ha]
  refine ite_congr rfl (fun _ => rfl) fun _ => ite_congr rfl (fun hbase => ?_) fun _ => rfl
  simp only [joinsToBase, Bool.and_eq_true, bne_iff_ne] at hbase
  obtain ⟨⟨hne, hrecordA⟩, hrecordB⟩ := hbase
  rw [baseOfTwo?_comm hp]
  intro _ hids
  obtain ⟨i, hi⟩ := Option.isSome_iff_exists.mp hrecordA
  rw [Ty.eq_record_of_recordId? ha hi, Ty.eq_record_of_recordId? hb (hids ▸ hi)] at hne
  exact hne rfl

/-- The more derived class is the same in both orders unless one class is written in two ways. -/
theorem moreDerived?_comm (hp : p.BasesAcyclic)
    (hwritten : c.isRecord = true → c.recordId? = d.recordId? → c = d) :
    p.moreDerived? c d = p.moreDerived? d c := by
  by_cases hsame : c = d
  · rw [hsame]
  have hdiffers : c.isRecord = true → c.recordId? ≠ d.recordId? := fun hrecord hid =>
    hsame (hwritten hrecord hid)
  unfold moreDerived?
  rw [beq_eq_false_iff_ne.mpr hsame, beq_eq_false_iff_ne.mpr (Ne.symm hsame)]
  cases hcd : p.isBaseOf c d with
  | true => simp [hp.isBaseOf_asymm hdiffers hcd]
  | false => cases hdc : p.isBaseOf d c <;> simp

/-- The more derived class is the same in both orders up to the qualifiers it is written with. -/
theorem unqualified_moreDerived?_comm (hp : p.BasesAcyclic) (c d : Ty) :
    (p.moreDerived? c d).map Ty.unqualified = (p.moreDerived? d c).map Ty.unqualified := by
  by_cases hsame : c.isRecord = true ∧ c.recordId? = d.recordId?
  · obtain ⟨hrecord, hids⟩ := hsame
    obtain ⟨i, hi⟩ := Option.isSome_iff_exists.mp hrecord
    have hunqualified : c.unqualified = d.unqualified := by
      rw [Ty.unqualified_of_recordId? hi, Ty.unqualified_of_recordId? (hids ▸ hi)]
    have hbase : p.isBaseOf c d = p.isBaseOf d c := by
      rw [isBaseOf_of_recordId? hi (hids ▸ hi), isBaseOf_of_recordId? (hids ▸ hi) hi]
    unfold moreDerived?
    rw [hbase, BEq.comm]
    by_cases h : (d == c || p.isBaseOf d c) = true
    · rw [if_pos h, if_pos h]
      exact congrArg some hunqualified
    · rw [if_neg h, if_neg h]
      split
      · exact congrArg some hunqualified.symm
      · rfl
  · rw [moreDerived?_comm hp fun hrecord hids => absurd ⟨hrecord, hids⟩ hsame]

theorem compositeType?_memberPointer (c x d y : Ty) :
    p.compositeType? (.memberPointer c x) (.memberPointer d y) =
      (p.moreDerived? c d).bind fun z => (x.joined? y).map (Ty.memberPointer z) := by
  have hparts : ∀ c x : Ty, (Ty.memberPointer c x).memberPointerParts? = some (c, x) :=
    fun _ _ => rfl
  have hpointee : ∀ c x : Ty, (Ty.memberPointer c x).pointee? = none := fun _ _ => rfl
  unfold compositeType? Ty.joined?
  simp only [hparts, hpointee]
  congr 1
  funext z
  cases x.commonFunction? y <;> simp [Function.comp_def]

theorem eq_of_moreDerived? (h : p.moreDerived? c d = some z) : z = c ∨ z = d := by
  unfold moreDerived? at h
  split at h
  · exact .inl (Option.some.inj h).symm
  · exact .inr (Option.some.inj (Option.ite_none_right_eq_some.mp h).2).symm

theorem composite_of_compositeType? (ha : a.isDecayed = true) (hb : b.isDecayed = true)
    (h : p.compositeType? a b = some u) : p.Composite a b u := by
  cases a with
  | nullptr =>
    cases b with
    | pointer y | memberPointer d y =>
      cases h
      exact .nullLeft rfl
    | _ => cases h
  | pointer x =>
    cases b with
    | nullptr =>
      cases h
      exact .nullRight rfl
    | pointer y => exact .pointers h
    | _ => first | cases h | cases hb
  | memberPointer c x =>
    cases b with
    | nullptr =>
      cases h
      exact .nullRight rfl
    | memberPointer d y =>
      rw [compositeType?_memberPointer] at h
      obtain ⟨z, hcls, h⟩ := Option.bind_eq_some_iff.mp h
      obtain ⟨u, hjoined, rfl⟩ := Option.map_eq_some_iff.mp h
      exact .members (eq_of_moreDerived? hcls) hjoined
    | _ => first | cases h | cases hb
  | qualified _ _ | lvalueRef _ | rvalueRef _ | array _ _ | functionNamed _ | unknown _ => cases ha
  | _ => cases b <;> cases h

/-- Whether `f`, which may forget how the class of a member pointer is written, sees the same class
in the two orders of two member pointers. -/
def AgreeOnClasses (p : Program) (f : Ty → Ty) (a b : Ty) : Prop :=
  ∀ c x d y, a = .memberPointer c x → b = .memberPointer d y → ∀ u : Ty,
    (p.moreDerived? c d).map (fun z => f (.memberPointer z u)) =
      (p.moreDerived? d c).map fun z => f (.memberPointer z u)

theorem map_compositeType?_comm (hp : p.BasesAcyclic) (ha : a.isNormal = true)
    (hb : b.isNormal = true) (hda : a.isDecayed = true) (hdb : b.isDecayed = true) {f : Ty → Ty}
    (hclass : p.AgreeOnClasses f a b) :
    (p.compositeType? a b).map f = (p.compositeType? b a).map f := by
  cases a with
  | pointer x =>
    cases b with
    | pointer y => exact congrArg (Option.map f) (compositePointer?_comm hp ha hb)
    | _ => first | rfl | cases hdb
  | memberPointer c x =>
    cases b with
    | memberPointer d y =>
      simp only [Ty.isNormal, Bool.and_eq_true] at ha hb
      rw [compositeType?_memberPointer, compositeType?_memberPointer, Ty.joined?_comm hb.2 ha.2]
      have hclass := hclass c x d y rfl rfl
      cases x.joined? y with
      | none => cases p.moreDerived? c d <;> cases p.moreDerived? d c <;> rfl
      | some u =>
        simpa only [Option.map_some, Option.map_eq_bind, Option.bind_assoc, Function.comp_def,
          Option.bind_some] using hclass u
    | _ => first | rfl | cases hdb
  | qualified _ _ | lvalueRef _ | rvalueRef _ | array _ _ | functionNamed _ | unknown _ => cases hda
  | _ => cases b <;> first | rfl | cases hdb

/-- The three ways in which the targets of two pointers are joined. -/
theorem compositePointer?_eq_some (ha : a.isNormal = true) (hb : b.isNormal = true)
    (h : p.compositePointer? a b = some u) :
    ∃ z, u = .pointer z ∧
      (joinsToVoid a.unqualified b.unqualified = true ∧ z = Ty.void.qualify (a.cv ∪ b.cv) ∨
        joinsToBase a.unqualified b.unqualified = true ∧
          (∃ x, p.baseOfTwo? a.unqualified b.unqualified = some x ∧ z = x.qualify (a.cv ∪ b.cv)) ∨
        a.joined? b = some z) := by
  rw [compositePointer?_eq ha hb] at h
  split at h
  · next hvoid => exact ⟨_, (Option.some.inj h).symm, .inl ⟨hvoid, rfl⟩⟩
  · split at h
    · next hbase =>
      obtain ⟨x, hx, rfl⟩ := Option.map_eq_some_iff.mp h
      exact ⟨_, rfl, .inr (.inl ⟨hbase, x, hx, rfl⟩)⟩
    · obtain ⟨z, hz, rfl⟩ := Option.map_eq_some_iff.mp h
      exact ⟨z, rfl, .inr (.inr hz)⟩

theorem eq_of_baseOfTwo? (h : p.baseOfTwo? x y = some z) :
    z = x ∨ z = y ∧ p.isBaseOf y x = true := by
  unfold baseOfTwo? at h
  split at h
  · exact .inl (Option.some.inj h).symm
  · next hxy =>
    obtain ⟨hbase, h⟩ := Option.ite_none_right_eq_some.mp h
    exact .inr ⟨(Option.some.inj h).symm, hbase⟩

theorem decayed_compositePointer? (ha : a.isNormal = true) (hb : b.isNormal = true)
    (h : p.compositePointer? a b = some u) : u.isNormal = true ∧ u.isDecayed = true := by
  obtain ⟨z, rfl, hcases⟩ := compositePointer?_eq_some ha hb h
  refine ⟨?_, rfl⟩
  change z.isNormal = true
  rcases hcases with ⟨-, rfl⟩ | ⟨-, x, hx, rfl⟩ | hz
  · exact Ty.isNormal_qualify (t := .void) rfl
  · refine Ty.isNormal_qualify (t := x) ?_
    rcases eq_of_baseOfTwo? hx with rfl | ⟨rfl, -⟩
    · exact Ty.isNormal_unqualified ha
    · exact Ty.isNormal_unqualified hb
  · exact Ty.isNormal_joined? ha hb hz

theorem Composite.decayed (h : p.Composite a b u) (ha : a.isNormal = true) (hb : b.isNormal = true)
    (hda : a.isDecayed = true) (hdb : b.isDecayed = true) :
    u.isNormal = true ∧ u.isDecayed = true := by
  cases h with
  | nullLeft _ => exact ⟨hb, hdb⟩
  | nullRight _ => exact ⟨ha, hda⟩
  | @pointers x y _ h => exact decayed_compositePointer? (a := x) (b := y) ha hb h
  | members hcls hjoined =>
    simp only [Ty.isNormal, Bool.and_eq_true] at ha hb ⊢
    refine ⟨⟨?_, Ty.isNormal_joined? ha.2 hb.2 hjoined⟩, rfl⟩
    rcases hcls with rfl | rfl
    · exact ha.1
    · exact hb.1

theorem Composite.level? (h : p.Composite a b u) (ha : a.isNormal = true) (hb : b.isNormal = true) :
    u.level?.isSome = true := by
  cases h with
  | nullLeft h | nullRight h => exact h
  | @pointers x y _ h =>
    obtain ⟨z, rfl, -⟩ := compositePointer?_eq_some (a := x) (b := y) ha hb h
    rfl
  | members _ _ => rfl

theorem Composite.symm (hp : p.BasesAcyclic) (ha : a.isNormal = true) (hb : b.isNormal = true)
    (h : p.Composite a b u) : p.Composite b a u := by
  cases h with
  | nullLeft h => exact .nullRight h
  | nullRight h => exact .nullLeft h
  | @pointers x y _ h =>
    exact .pointers ((compositePointer?_comm hp (a := y) (b := x) hb ha).trans h)
  | members hcls hjoined =>
    simp only [Ty.isNormal, Bool.and_eq_true] at ha hb
    exact .members hcls.symm ((Ty.joined?_comm hb.2 ha.2).trans hjoined)

end Program
end TypeTraits
