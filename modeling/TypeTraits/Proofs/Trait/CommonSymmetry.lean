import TypeTraits.Proofs.Hierarchy.BaseConversion
import TypeTraits.Proofs.Trait.CommonType

/-!
# The order of two types

Two types that decay to no class have the same common type in either order: the arithmetic
conversions go by rank and signedness, qualifiers are joined, and of two classes at most one is a
base of the other. A member pointer that writes its class with qualifiers keeps them, so two such
pointers that write one class differently take the spelling of the first.
-/

namespace TypeTraits

namespace Builtin

theorem promotion?_of_promotion? {target : Target} {k l : Builtin}
    (h : k.promotion? target = some l) : l.promotion? target = none := by
  have hlist : l ∈ [int, unsignedInt, long, unsignedLong, longLong, unsignedLongLong] := by
    cases k with
    | bool | char | signedChar | unsignedChar | short | unsignedShort =>
      cases h
      split <;> simp
    | wchar | char16 | char32 => exact List.mem_of_find?_eq_some h
    | _ => cases h
  simp only [List.mem_cons, List.not_mem_nil, or_false] at hlist
  rcases hlist with rfl | rfl | rfl | rfl | rfl | rfl <;> rfl

/-- The arithmetic conversions do not depend on the order of promoted operands. -/
theorem common_comm {target : Target} (htarget : target ∈ [Target.lp64, .llp64, .ilp32])
    {a b : Builtin} (ha : a.promotion? target = none) (hb : b.promotion? target = none) :
    a.common target b = b.common target a := by
  have hall : ∀ target ∈ [Target.lp64, .llp64, .ilp32], ∀ a ∈ all, ∀ b ∈ all,
      a.promotion? target = none → b.promotion? target = none →
        a.common target b = b.common target a := by
    decide +kernel
  exact hall target htarget a (mem_all a) b (mem_all b) ha hb

end Builtin

namespace Program

variable {p : Program} {a b s t u : Ty}

theorem builtin?_of_enumOf? {e : Enumeration} (h : p.enumOf? t = some e) : t.builtin? = none := by
  unfold enumOf? Ty.enumId? at h
  unfold Ty.builtin?
  cases hcore : t.core <;> simp_all

theorem promotion?_of_promotedType {k : Builtin} (h : (p.promotedType t).builtin? = some k) :
    k.promotion? p.target = none := by
  have hpromoted : ∀ {u : Ty}, u.builtin?.bind (·.promotion? p.target) = some k →
      k.promotion? p.target = none := by
    intro u hu
    obtain ⟨_, -, hu⟩ := Option.bind_eq_some_iff.mp hu
    exact Builtin.promotion?_of_promotion? hu
  have hkept : ∀ {u : Ty}, u.builtin?.bind (·.promotion? p.target) = none →
      u.builtin? = some k → k.promotion? p.target = none := by
    intro u hu hk
    rwa [hk] at hu
  unfold promotedType at h
  dsimp only at h
  split at h
  · next e he =>
    split at h
    · rw [builtin?_of_enumOf? he] at h
      cases h
    · split at h
      · next hl =>
        cases h
        exact hpromoted hl
      · next hnone => exact hkept hnone h
  · split at h
    · next hl =>
      cases h
      exact hpromoted hl
    · next hnone => exact hkept hnone h

theorem arithmeticType?_comm (htarget : p.target ∈ [Target.lp64, .llp64, .ilp32]) (s t : Ty) :
    p.arithmeticType? s t = p.arithmeticType? t s := by
  unfold arithmeticType?
  rw [Bool.or_comm]
  refine ite_congr rfl (fun _ => rfl) fun _ => ?_
  cases hs : (p.promotedType s).builtin? with
  | none => cases (p.promotedType t).builtin? <;> rfl
  | some x =>
    cases ht : (p.promotedType t).builtin? with
    | none => rfl
    | some y =>
      have hcommon := Builtin.common_comm htarget (promotion?_of_promotedType hs)
        (promotion?_of_promotedType ht)
      exact congrArg (fun k => some (Ty.builtin k)) hcommon

section Orders

variable (hp : p.BasesAcyclic) (htarget : p.target ∈ [Target.lp64, .llp64, .ilp32])

include hp htarget

theorem map_valueType?_comm (hs : s.IsPlainValue) (ht : t.IsPlainValue) {f : Ty → Ty}
    (hclass : p.AgreeOnClasses f s t) :
    (p.valueType? s t).map f = (p.valueType? t s).map f := by
  unfold valueType?
  by_cases hsame : s = t
  · rw [hsame]
  rw [if_neg hsame, if_neg (Ne.symm hsame), arithmeticType?_comm htarget]
  cases p.arithmeticType? t s with
  | some u => rfl
  | none => exact map_compositeType?_comm hp hs.normal ht.normal hs.decayed ht.decayed hclass

theorem map_commonValue?_comm (ha : a.IsPlainValue) (hb : b.IsPlainValue) {f : Ty → Ty}
    (hclass : p.AgreeOnClasses f a b) :
    (p.commonValue? a b).map f = (p.commonValue? b a).map f := by
  have hoperand : ∀ {t c x : Ty}, t.isDecayed = true → t.asOperand = .memberPointer c x →
      t = .memberPointer c x := by
    intro t c x ht hx
    cases t <;> first | exact hx | cases ht | cases hx
  have hvalue := map_valueType?_comm hp htarget ha.asOperand hb.asOperand (f := f)
    fun c x d y hx hy => hclass c x d y (hoperand ha.decayed hx) (hoperand hb.decayed hy)
  unfold commonValue?
  by_cases hsame : a = b
  · rw [hsame]
  · rw [if_neg hsame, if_neg (Ne.symm hsame), Bool.or_comm]
    split
    · rfl
    · exact hvalue

end Orders

/-- No two member pointers to which the types decay write one class with different qualifiers. -/
def WritesClassesAlike (p : Program) (t u : Ty) : Prop :=
  ∀ c x d y, p.decay t = .memberPointer c x → p.decay u = .memberPointer d y →
    c.isRecord = true → c.recordId? = d.recordId? → c = d

end Program

/-- The type with the class of a member pointer unqualified. -/
def Ty.plainClass : Ty → Ty
  | memberPointer c t => memberPointer c.unqualified t
  | t => t

namespace Development

variable {d : Development} {t u : Ty}

theorem Valid.basesAcyclic (h : d.Valid) : d.program.BasesAcyclic :=
  fun _ _ hne hbase => h.isBaseOf_asymm hne hbase

/-- The common type of two types that decay to no class does not depend on their order, except that
pointers to members of one class that they write with different qualifiers keep those of the
first. -/
theorem commonType_comm (h : d.Reachable)
    (htarget : d.program.target ∈ [Target.lp64, .llp64, .ilp32]) (ht : t.IsFormed)
    (hu : u.IsFormed) (htclass : (d.program.decay t).isRecord = false)
    (huclass : (d.program.decay u).isRecord = false) :
    (d.program.commonType [t, u]).map Ty.plainClass =
      (d.program.commonType [u, t]).map Ty.plainClass ∧
    (d.program.WritesClassesAlike t u →
      d.program.commonType [t, u] = d.program.commonType [u, t]) := by
  have hacyclic := h.valid.basesAcyclic
  have ht := Ty.isFormed_iff_isNormal.mp ht
  have hu := Ty.isFormed_iff_isNormal.mp hu
  have hmap : ∀ {f : Ty → Ty},
      d.program.AgreeOnClasses f (d.program.decay t) (d.program.decay u) →
        (d.program.commonType [t, u]).map f = (d.program.commonType [u, t]).map f := by
    intro f hclass
    rw [Program.commonType_pair, Program.commonType_pair,
      Program.commonPair_of_not_class ht hu htclass huclass,
      Program.commonPair_of_not_class hu ht huclass htclass]
    exact Program.map_commonValue?_comm hacyclic htarget (Program.isPlainValue_decay ht htclass)
      (Program.isPlainValue_decay hu huclass) hclass
  constructor
  · refine hmap fun c x d' y _ _ v => ?_
    have hunqualified := congrArg (Option.map (Ty.memberPointer · v))
      (Program.unqualified_moreDerived?_comm hacyclic c d')
    rwa [Option.map_map, Option.map_map] at hunqualified
  · intro hwritten
    have hsame := hmap (f := id) fun c x d' y hx hy v => by
      rw [Program.moreDerived?_comm hacyclic (hwritten c x d' y hx hy)]
    simpa only [Option.map_id, id_eq] using hsame

/-- A class and its base. -/
def baseAndDerived : Development :=
  run .llp64
    [.start "Base" .struct,
      .finish ⟨1⟩,
      .start "Derived" .struct,
      .write ⟨2⟩ (.base (.record ⟨1⟩)),
      .finish ⟨2⟩]

theorem reachable_baseAndDerived : baseAndDerived.Reachable := by
  refine reachable_run ?_
  intro a ha
  simp only [List.mem_cons, List.not_mem_nil, or_false] at ha
  rcases ha with rfl | rfl | rfl | rfl | rfl
  all_goals first | trivial | exact RecordStep.isWritten_of_types rfl (by decide)

/-- Pointers to members of a base and of a derived class come to one that adds the qualifiers at
both levels, in either order. -/
theorem commonType_comm_baseAndDerived :
    let p := baseAndDerived.program
    let t := Ty.memberPointer (.record ⟨1⟩) (.pointer (.qualified (.builtin .int) .const))
    let u := Ty.lvalueRef
      (.memberPointer (.record ⟨2⟩) (.pointer (.qualified (.builtin .int) .volatile)))
    baseAndDerived.Reachable ∧ p.target ∈ [Target.lp64, .llp64, .ilp32] ∧ t.IsFormed ∧ u.IsFormed ∧
      (p.decay t).isRecord = false ∧ (p.decay u).isRecord = false ∧ p.WritesClassesAlike t u ∧
      p.commonType [t, u] = some (.memberPointer (.record ⟨2⟩)
        (.qualified (.pointer (.qualified (.builtin .int) .constVolatile)) .const)) ∧
      p.commonType [u, t] = p.commonType [t, u] := by
  intro p t u
  have ht : t.IsFormed := Ty.isFormed_iff_isNormal.mpr (by decide)
  have hu : u.IsFormed := Ty.isFormed_iff_isNormal.mpr (by decide)
  have htarget : p.target ∈ [Target.lp64, .llp64, .ilp32] := by decide +kernel
  have hwritten : p.WritesClassesAlike t u := by
    rintro _ _ _ _ ⟨⟩ ⟨⟩ - hids
    cases hids
  have hcomm := commonType_comm reachable_baseAndDerived htarget ht hu rfl rfl
  exact ⟨reachable_baseAndDerived, htarget, ht, hu, rfl, rfl, hwritten, by decide +kernel,
    (hcomm.2 hwritten).symm⟩

/-- Of two spellings of one class the first is kept. -/
theorem commonType_not_comm :
    let p := baseAndDerived.program
    let f := Ty.function .void [] {}
    let t := Ty.memberPointer (.record ⟨1⟩) f
    let u := Ty.memberPointer (.qualified (.record ⟨1⟩) .const) f
    baseAndDerived.Reachable ∧ p.target ∈ [Target.lp64, .llp64, .ilp32] ∧ t.IsFormed ∧ u.IsFormed ∧
      (p.decay t).isRecord = false ∧ (p.decay u).isRecord = false ∧
      p.commonType [t, u] = some t ∧ p.commonType [u, t] = some u ∧
      p.commonType [t, u] ≠ p.commonType [u, t] := by
  intro p f t u
  exact ⟨reachable_baseAndDerived, by decide +kernel, Ty.isFormed_iff_isNormal.mpr (by decide),
    Ty.isFormed_iff_isNormal.mpr (by decide), rfl, rfl, by decide +kernel, by decide +kernel,
    by decide +kernel⟩

end Development
end TypeTraits
