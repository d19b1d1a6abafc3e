import TypeTraits.Proofs.Expr.CompositeTypes
import TypeTraits.Proofs.Expr.Returns

/-!
# The type of a conditional

The operands of a conditional that are values, that is of types which decay only strips of
qualifiers, give a value. Without a class the operands are not converted to each other: two of
different types are brought to one by the arithmetic conversions or as pointers, or not at all.
-/

namespace TypeTraits

namespace Ty

variable {t : Ty}

/-- An operand that is no class is taken as the value of a decayed type. -/
theorem decayed_asOperand (h : t.IsValue) (hclass : t.isRecord = false) :
    t.asOperand.isNormal = true ∧ t.asOperand.isDecayed = true := by
  unfold asOperand
  split
  · next hfunction =>
    rw [h.isArray, Bool.false_or] at hfunction
    cases t <;> first | exact ⟨h.normal, rfl⟩ | cases hfunction
  · rw [if_neg (by simp [hclass])]
    exact ⟨h.unqualified.normal, h.decayed⟩

theorem isValue_asOperand (h : t.IsValue) : t.asOperand.IsValue := by
  cases hclass : t.isRecord with
  | false =>
    obtain ⟨hnormal, hdecayed⟩ := decayed_asOperand h hclass
    exact .of_isDecayed hnormal hdecayed
  | true =>
    have hfunction : t.isFunction = false := by
      cases t <;> first | rfl | cases hclass
    rw [asOperand, h.isArray, hfunction, Bool.or_self, if_neg (by simp), if_pos hclass]
    exact h

theorem isRecord_asOperand (h : t.IsValue) : t.asOperand.isRecord = t.isRecord := by
  unfold asOperand
  split
  · next hfunction =>
    rw [h.isArray, Bool.false_or] at hfunction
    cases t <;> first | rfl | cases hfunction
  · split
    · rfl
    · exact isRecord_unqualified h.normal

theorem IsPlainValue.asOperand (h : t.IsPlainValue) : t.asOperand.IsPlainValue := by
  obtain ⟨hnormal, hdecayed⟩ := decayed_asOperand h.isValue h.notClass
  exact ⟨hnormal, hdecayed, (isRecord_asOperand h.isValue).trans h.notClass⟩

/-- Taking the value of an operand twice is taking it once. -/
theorem asOperand_of_isDecayed (hfunction : t.isFunction = false) (h : t.isDecayed = true) :
    t.asOperand = t := by
  rw [asOperand, isArray_of_isDecayed h, hfunction, Bool.or_self, if_neg (by simp),
    unqualified_of_isDecayed h, ite_self]

end Ty

namespace Check

variable {α : Type}

/-- What a check returns that is left early where a conversion exists and binds as it should. -/
theorem Returns.returnIfBinds {condition : Prop} {_ : Decidable condition}
    {conversion : Check Conversion} {binds : Conversion → Bool} {found a : α} {rest : Check α}
    (h : Returns (if condition then do
        if let some c := ← Check.attempt conversion then
          if binds c then return found
        rest
      else rest) a) : a = found ∨ rest.Returns a := by
  split at h
  · obtain ⟨o, -, h⟩ := h.bind
    cases o with
    | none => exact .inr h
    | some c =>
      dsimp only at h
      split at h
      · exact .inl (returns_pure.mp h).symm
      · exact .inr h
  · exact .inr h

end Check

namespace Expr

theorem isValue_prvalueOf {t : Ty} (h : t.IsValue) : (prvalueOf t).type.IsValue := by
  unfold prvalueOf prvalue
  dsimp only
  split
  · exact h
  · exact h.unqualified

end Expr

namespace Program

variable {p : Program} {a b e : Expr} {s t u : Ty}

/-- The type that two values without a class are brought to. -/
def valueType? (p : Program) (s t : Ty) : Option Ty :=
  if s = t then some s else (p.arithmeticType? s t).or (p.compositeType? s t)

theorem arithmeticType?_eq_some (h : p.arithmeticType? s t = some u) :
    p.isArithmeticOperand s = true ∧ p.isArithmeticOperand t = true ∧
      ∃ x y, (p.promotedType s).builtin? = some x ∧ (p.promotedType t).builtin? = some y ∧
        u = .builtin (x.common p.target y) := by
  unfold arithmeticType? at h
  split at h
  · cases h
  · next hoperands =>
    obtain ⟨x, hx, h⟩ := Option.bind_eq_some_iff.mp h
    obtain ⟨y, hy, h⟩ := Option.bind_eq_some_iff.mp h
    simp only [Bool.or_eq_true, Bool.not_eq_true', not_or, Bool.not_eq_false] at hoperands
    exact ⟨hoperands.1, hoperands.2, x, y, hx, hy, (Option.some.inj h).symm⟩

theorem decayed_valueType? (hs : s.IsPlainValue) (ht : t.IsPlainValue)
    (h : p.valueType? s t = some u) : u.isNormal = true ∧ u.isDecayed = true := by
  unfold valueType? at h
  split at h
  · cases h
    exact ⟨hs.normal, hs.decayed⟩
  · rcases Option.or_eq_some_iff.mp h with h | ⟨-, h⟩
    · obtain ⟨-, -, x, y, -, -, rfl⟩ := arithmeticType?_eq_some h
      exact ⟨rfl, rfl⟩
    · exact (composite_of_compositeType? hs.decayed ht.decayed h).decayed hs.normal ht.normal
        hs.decayed ht.decayed

/-- The value of a conditional without a class. -/
theorem conditionalValue_of_not_class (ha : a.type.asOperand.isRecord = false)
    (hb : b.type.asOperand.isRecord = false) :
    p.conditionalValue a b =
      match p.valueType? a.type.asOperand b.type.asOperand with
      | some u => .ok (.prvalue u)
      | none => .error .noConversion := by
  unfold conditionalValue valueType?
  by_cases hsame : a.type.asOperand = b.type.asOperand
  · simp [hsame]
  · simp only [if_neg hsame, ha, hb, Bool.or_self]
    rfl

theorem isValue_conditionalValue (ha : a.type.IsValue) (hb : b.type.IsValue)
    (h : p.conditionalValue a b = .ok e) : e.type.IsValue := by
  by_cases hclass : a.type.asOperand.isRecord = false ∧ b.type.asOperand.isRecord = false
  · have hplain : ∀ {t : Ty}, t.IsValue → t.asOperand.isRecord = false →
        t.asOperand.IsPlainValue := by
      intro t ht hclass
      obtain ⟨hnormal, hdecayed⟩ :=
        Ty.decayed_asOperand ht ((Ty.isRecord_asOperand ht).symm.trans hclass)
      exact ⟨hnormal, hdecayed, hclass⟩
    rw [conditionalValue_of_not_class hclass.1 hclass.2] at h
    split at h
    · next u hu =>
      cases h
      obtain ⟨hnormal, hdecayed⟩ := decayed_valueType? (hplain ha hclass.1) (hplain hb hclass.2) hu
      exact .of_isDecayed hnormal hdecayed
    · cases h
  · have hrecord : (a.type.asOperand.isRecord || b.type.asOperand.isRecord) = true := by
      cases ha' : a.type.asOperand.isRecord <;> simp_all
    unfold conditionalValue at h
    dsimp only at h
    split at h
    · cases h
      exact Ty.isValue_asOperand ha
    · cases h

theorem isValue_matchOperand {classInvolved : Bool} (hb : b.type.IsValue)
    (h : (p.matchOperand a b classInvolved).Returns (some e)) : e.type.IsValue := by
  unfold matchOperand at h
  rcases h.returnIfBinds with h | h
  · cases h
    exact hb
  rcases h.returnIfBinds with h | h
  · cases h
    exact hb
  split at h
  · simp at h
  dsimp only at h
  split at h
  · split at h
    · simp at h
    · obtain ⟨o, -, h⟩ := h.bind
      obtain ⟨_, rfl, rfl⟩ := Option.map_eq_some_iff.mp (Check.returns_pure.mp h)
      exact hb
  · obtain ⟨o, -, h⟩ := h.bind
    obtain ⟨_, rfl, rfl⟩ := Option.map_eq_some_iff.mp (Check.returns_pure.mp h)
    exact Expr.isValue_prvalueOf (Ty.isValue_asOperand hb)

/-- A conditional of values is a value. -/
theorem isValue_conditional (ha : a.type.IsValue) (hb : b.type.IsValue)
    (h : (p.conditional a b).Returns e) : e.type.IsValue := by
  unfold conditional at h
  dsimp only at h
  split at h
  · split at h
    · cases Check.returns_pure.mp h
      exact ⟨rfl, rfl⟩
    · simp at h
  split at h
  · cases Check.returns_pure.mp h
    exact ha
  split at h
  · obtain ⟨x, hx, h⟩ := h.bind
    obtain ⟨y, hy, h⟩ := h.bind
    have hvalue : ∀ c d : Expr, c.type.IsValue → d.type.IsValue →
        (Check.ofFormed (p.conditionalValue c d)).Returns e → e.type.IsValue :=
      fun c d hc hd h => isValue_conditionalValue hc hd (Check.returns_ofFormed.mp h)
    cases x with
    | none =>
      cases y with
      | none => exact hvalue a b ha hb h
      | some y =>
        have hy := isValue_matchOperand ha hy
        dsimp only at h
        split at h
        · cases Check.returns_pure.mp h
          exact ha
        · exact hvalue a y ha hy h
    | some x =>
      have hx := isValue_matchOperand hb hx
      cases y with
      | none =>
        dsimp only at h
        split at h
        · cases Check.returns_pure.mp h
          exact hx
        · exact hvalue x b hx hb h
      | some y => simp at h
  · exact isValue_conditionalValue ha hb (Check.returns_ofFormed.mp h)

/-- Of two operands none or both are `void`. -/
theorem conditional_of_void (h : a.type.isVoid ≠ b.type.isVoid) :
    p.conditional a b = Check.ofFormed (.error .voidExpression) := by
  cases ha : a.type.isVoid <;> cases hb : b.type.isVoid <;> simp [ha, hb] at h <;>
    simp [conditional, ha, hb] <;> rfl

/-- Without a class the operands are not converted to each other. -/
theorem conditional_of_not_class (ha : a.type.isRecord = false) (hb : b.type.isRecord = false)
    (hvoid : a.type.isVoid = false) (hvoid' : b.type.isVoid = false)
    (hdiffers : a.type.unqualified ≠ b.type.unqualified) :
    p.conditional a b = Check.ofFormed (p.conditionalValue a b) := by
  have hsame : sameGlvalue a b = false := by
    have hne : a ≠ b := fun h => hdiffers (h ▸ rfl)
    simp [sameGlvalue, hne]
  simp [conditional, hvoid, hvoid', hsame, ha, hb, hdiffers]

end Program
end TypeTraits
