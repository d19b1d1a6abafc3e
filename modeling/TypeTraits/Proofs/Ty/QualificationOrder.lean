import TypeTraits.Proofs.Ty.Levels

/-!
# The order of qualification conversions

Converting a pointer by adding qualifiers orders the types that can be pointed to: a type converts
to itself, conversions compose, and types that convert to each other are the same. Below a level
that is not `const` nothing may be added at all. Two types have a common upper bound exactly if they
are the same but for the qualifiers of their levels, and what they combine to is the least one.
-/

namespace TypeTraits

namespace Cv

variable {a b c : Cv}

theorem covers_trans (h : b.covers a = true) (h' : c.covers b = true) : c.covers a = true := by
  simp only [covers, Bool.and_eq_true, Bool.or_eq_true, Bool.not_eq_true'] at h h' ⊢
  grind

theorem union_covered (h : c.covers a = true) (h' : c.covers b = true) :
    c.covers (a ∪ b) = true := by
  simp only [covers, Bool.and_eq_true, Bool.or_eq_true, Bool.not_eq_true', union_isConst,
    union_isVolatile, Bool.or_eq_false_iff] at h h' ⊢
  grind

theorem covers_empty (a : Cv) : a.covers ∅ = true := by
  rcases a with ⟨_ | _, _ | _⟩ <;> rfl

theorem union_self (a : Cv) : a ∪ a = a := by
  rcases a with ⟨_ | _, _ | _⟩ <;> rfl

theorem covers_const (h : a.isConst = true) : a.covers .const = true := by
  simp [covers, h, const]

theorem isConst_of_covers (h : a.covers b = true) (hb : b.isConst = true) : a.isConst = true := by
  simp only [covers, Bool.and_eq_true, Bool.or_eq_true, Bool.not_eq_true'] at h
  grind

end Cv

namespace Ty

/-- The type without the qualifiers of any level of a pointer. An array loses those of its
elements and is not looked into further. -/
def plainLevels : Ty → Ty
  | pointer u | qualified (pointer u) _ => pointer u.plainLevels
  | memberPointer c u | qualified (memberPointer c u) _ => memberPointer c u.plainLevels
  | t => t.unqualified

variable {a b c d t x y : Ty} {k : Option Ty} {constAbove : Bool}

theorem plainLevels_of_level? (h : t.isNormal = true) (hlevel : t.level? = some (k, x)) :
    t.plainLevels = ofLevel k x.plainLevels := by
  cases t with
  | qualified t cv =>
    cases t <;> simp [isNormal, takesQualifier] at h <;>
      simp [level?, core] at hlevel <;> obtain ⟨rfl, rfl⟩ := hlevel <;> rfl
  | pointer t | memberPointer c t => cases hlevel; rfl
  | _ => cases hlevel

theorem plainLevels_of_level?_eq_none (h : t.isNormal = true) (hlevel : t.level? = none) :
    t.plainLevels = t.unqualified := by
  cases t with
  | qualified t cv =>
    cases t <;> simp [isNormal, takesQualifier] at h <;> first | rfl | cases hlevel
  | _ => first | rfl | cases hlevel

theorem ofLevel_inj {k l : Option Ty} : ofLevel k x = ofLevel l y ↔ k = l ∧ x = y := by
  cases k <;> cases l <;> simp [ofLevel]

/-- What has a level is not the unqualified version of what has none. -/
theorem unqualified_ne_ofLevel (h : t.isNormal = true) (hlevel : t.level? = none) :
    t.unqualified ≠ ofLevel k x := by
  intro hunqualified
  rw [← level?_unqualified h, hunqualified, level?_ofLevel] at hlevel
  cases hlevel

theorem level?_congr (ha : a.isNormal = true) (hb : b.isNormal = true)
    (h : a.unqualified = b.unqualified) : a.level? = b.level? := by
  rw [← level?_unqualified ha, h, level?_unqualified hb]

theorem plainLevels_congr (ha : a.isNormal = true) (hb : b.isNormal = true)
    (h : a.unqualified = b.unqualified) : a.plainLevels = b.plainLevels := by
  have hlevel := level?_congr ha hb h
  cases hx : a.level? with
  | none =>
    rw [plainLevels_of_level?_eq_none ha hx, plainLevels_of_level?_eq_none hb (hlevel ▸ hx), h]
  | some level => rw [plainLevels_of_level? ha hx, plainLevels_of_level? hb (hlevel ▸ hx)]

/-- A type is its unqualified version and its qualification. -/
theorem eq_of_unqualified_of_cv (ha : a.isNormal = true) (hb : b.isNormal = true)
    (hunqualified : a.unqualified = b.unqualified) (hcv : a.cv = b.cv) : a = b := by
  rw [← qualify_unqualified a ha, hunqualified, hcv, qualify_unqualified b hb]

/-- How the levels below the outermost qualification convert: they are the same, or both begin with
the same kind of level. -/
theorem convertsBelow_cases (h : convertsBelow a b constAbove = true) :
    a.unqualified = b.unqualified ∨
      ∃ k x y, a.level? = some (k, x) ∧ b.level? = some (k, y) ∧
        x.qualificationConvertible y constAbove = true := by
  rw [convertsBelow, Bool.or_eq_true, beq_iff_eq] at h
  rcases h with hsame | hlevels
  · exact .inl hsame
  · split at hlevels
    · next k x l y hx hy =>
      rw [Bool.and_eq_true, beq_iff_eq] at hlevels
      exact .inr ⟨k, x, y, hx, hlevels.1 ▸ hy, hlevels.2⟩
    · cases hlevels

/-- Two types combine exactly if they are the same but for the qualifiers of their levels. -/
theorem isSome_combineCv (ha : a.isNormal = true) (hb : b.isNormal = true) :
    (a.combineCv b).isSome = true ↔ a.plainLevels = b.plainLevels := by
  induction a using levels_induction generalizing b with
  | step a ih =>
    rw [combineCv_eq ha hb, Option.isSome_map, combineBelow]
    by_cases hsame : a.unqualified = b.unqualified
    · simp [hsame, plainLevels_congr ha hb hsame]
    rw [if_neg hsame]
    cases hx : a.level? with
    | none =>
      rw [plainLevels_of_level?_eq_none ha hx]
      refine iff_of_false (by simp) ?_
      cases hy : b.level? with
      | none => rwa [plainLevels_of_level?_eq_none hb hy]
      | some level =>
        rw [plainLevels_of_level? hb hy]
        exact unqualified_ne_ofLevel ha hx
    | some levelA =>
      cases hy : b.level? with
      | none =>
        rw [plainLevels_of_level? ha hx, plainLevels_of_level?_eq_none hb hy]
        exact iff_of_false (by simp) (unqualified_ne_ofLevel hb hy).symm
      | some levelB =>
        obtain ⟨k, x⟩ := levelA
        obtain ⟨l, y⟩ := levelB
        have hbelow := ih k x hx (isNormal_of_level? ha hx).2 (isNormal_of_level? hb hy).2
        rw [plainLevels_of_level? ha hx, plainLevels_of_level? hb hy, ofLevel_inj]
        by_cases hkind : k = l
        · simp [hkind, hbelow]
        · simp [hkind]

/-- Where no level above is `const`, nothing can be added. -/
theorem eq_of_qualificationConvertible (ha : a.isNormal = true) (hb : b.isNormal = true)
    (h : a.qualificationConvertible b false = true) : a = b := by
  induction a using levels_induction generalizing b with
  | step a ih =>
    rw [qualificationConvertible_eq ha hb, Bool.or_false, Bool.false_and, Bool.and_eq_true,
      Bool.and_eq_true, beq_iff_eq] at h
    obtain ⟨⟨-, hcv⟩, hbelow⟩ := h
    refine eq_of_unqualified_of_cv ha hb ?_ hcv.symm
    rcases convertsBelow_cases hbelow with hsame | ⟨k, x, y, hx, hy, hconverts⟩
    · exact hsame
    · rw [unqualified_of_level? ha hx, unqualified_of_level? hb hy,
        ih k x hx (isNormal_of_level? ha hx).2 (isNormal_of_level? hb hy).2 hconverts]

/-- Where every level above is `const`, qualifiers may be added, and below a level that stays or
becomes `const` too. -/
theorem qualificationConvertible_iff (ha : a.isNormal = true) (hb : b.isNormal = true) :
    a.qualificationConvertible b true = true ↔
      b.cv.covers a.cv = true ∧ convertsBelow a b b.cv.isConst = true := by
  rw [qualificationConvertible_eq ha hb, Bool.or_true, Bool.and_true, Bool.true_and,
    Bool.and_eq_true]

/-- The more levels above are `const`, the more converts. -/
theorem qualificationConvertible_mono {constAbove' : Bool} (ha : a.isNormal = true)
    (hb : b.isNormal = true) (h : a.qualificationConvertible b constAbove = true)
    (hle : constAbove = true → constAbove' = true) :
    a.qualificationConvertible b constAbove' = true := by
  cases constAbove with
  | true => rwa [hle rfl]
  | false =>
    rw [eq_of_qualificationConvertible ha hb h]
    exact qualificationConvertible_self hb _

/-- A conversion, level by level, from a type whose outermost level is known. -/
theorem exists_level_of_convertsBelow (ha : a.isNormal = true) (hb : b.isNormal = true)
    (h : convertsBelow a b constAbove = true) (hx : a.level? = some (k, x)) :
    ∃ y, b.level? = some (k, y) ∧ x.qualificationConvertible y constAbove = true := by
  rcases convertsBelow_cases h with hsame | ⟨l, x', y, hx', hy, hconverts⟩
  · exact ⟨x, (level?_congr ha hb hsame).symm.trans hx,
      qualificationConvertible_self (isNormal_of_level? ha hx).2 _⟩
  · cases hx.symm.trans hx'
    exact ⟨y, hy, hconverts⟩

theorem convertsBelow_of_level? (hx : a.level? = some (k, x)) (hy : b.level? = some (k, y))
    (h : x.qualificationConvertible y constAbove = true) : convertsBelow a b constAbove = true := by
  simp [convertsBelow, hx, hy, h]

theorem convertsBelow_congr (ha : a.isNormal = true) (hb : b.isNormal = true)
    (h : a.unqualified = b.unqualified) :
    convertsBelow a c constAbove = convertsBelow b c constAbove := by
  rw [convertsBelow, convertsBelow, h, level?_congr ha hb h]

/-- Conversions that add qualifiers compose: a level that is `const` stays so. -/
theorem qualificationConvertible_trans (ha : a.isNormal = true) (hb : b.isNormal = true)
    (hc : c.isNormal = true) (h : a.qualificationConvertible b constAbove = true)
    (h' : b.qualificationConvertible c constAbove = true) :
    a.qualificationConvertible c constAbove = true := by
  induction a using levels_induction generalizing b c constAbove with
  | step a ih =>
    cases constAbove with
    | false => rwa [eq_of_qualificationConvertible ha hb h]
    | true =>
      rw [qualificationConvertible_iff ha hb] at h
      rw [qualificationConvertible_iff hb hc] at h'
      rw [qualificationConvertible_iff ha hc]
      refine ⟨Cv.covers_trans h.1 h'.1, ?_⟩
      rcases convertsBelow_cases h.2 with hsame | ⟨k, x, y, hx, hy, hconverts⟩
      · rw [convertsBelow_congr ha hb hsame]
        exact h'.2
      · obtain ⟨z, hz, hconverts'⟩ := exists_level_of_convertsBelow hb hc h'.2 hy
        have hx' := (isNormal_of_level? ha hx).2
        have hy' := (isNormal_of_level? hb hy).2
        have hkept := qualificationConvertible_mono hx' hy' hconverts (Cv.isConst_of_covers h'.1)
        exact convertsBelow_of_level? hx hz
          (ih k x hx hx' hy' (isNormal_of_level? hc hz).2 hkept hconverts')

/-- Types that convert to each other are the same. -/
theorem qualificationConvertible_antisymm {constAbove' : Bool} (ha : a.isNormal = true)
    (hb : b.isNormal = true) (h : a.qualificationConvertible b constAbove = true)
    (h' : b.qualificationConvertible a constAbove' = true) : a = b := by
  induction a using levels_induction generalizing b constAbove constAbove' with
  | step a ih =>
    simp only [qualificationConvertible_eq ha hb, Bool.and_eq_true] at h
    simp only [qualificationConvertible_eq hb ha, Bool.and_eq_true] at h'
    have hcv := Cv.covers_antisymm h'.1.1 h.1.1
    refine eq_of_unqualified_of_cv ha hb ?_ hcv
    rcases convertsBelow_cases h.2 with hsame | ⟨k, x, y, hx, hy, hconverts⟩
    · exact hsame
    · obtain ⟨x', hx', hconverts'⟩ := exists_level_of_convertsBelow hb ha h'.2 hy
      cases hx.symm.trans hx'
      rw [unqualified_of_level? ha hx, unqualified_of_level? hb hy,
        ih k x hx (isNormal_of_level? ha hx).2 (isNormal_of_level? hb hy).2 hconverts hconverts']

theorem combineCv_self (ha : a.isNormal = true) : a.combineCv a = some (a, false) := by
  have hcv : combinedCv a a false = a.cv := by
    rw [combinedCv, Cv.union_self, Cv.union_comm, if_neg Bool.false_ne_true, Cv.empty_union]
  rw [combineCv_eq ha ha, combineBelow, if_pos rfl]
  simp [hcv, qualify_unqualified a ha]

/-- Two types that do not combine to themselves convert to another one only where the levels above
are `const`. -/
theorem constAbove_of_changed {u : Ty × Bool} (ha : a.isNormal = true) (hb : b.isNormal = true)
    (hd : d.isNormal = true) (hu : a.combineCv b = some u)
    (had : a.qualificationConvertible d constAbove = true)
    (hbd : b.qualificationConvertible d constAbove = true) (hchanged : u.2 = true) :
    constAbove = true := by
  cases constAbove with
  | true => rfl
  | false =>
    cases eq_of_qualificationConvertible ha hd had
    cases eq_of_qualificationConvertible hb hd hbd
    cases (combineCv_self ha).symm.trans hu
    cases hchanged

/-- What two types combine to converts to every type that both convert to. -/
theorem combineCv_least {u : Ty × Bool} (ha : a.isNormal = true) (hb : b.isNormal = true)
    (hd : d.isNormal = true) (hu : a.combineCv b = some u)
    (had : a.qualificationConvertible d constAbove = true)
    (hbd : b.qualificationConvertible d constAbove = true) :
    u.1.qualificationConvertible d constAbove = true := by
  induction a using levels_induction generalizing b d u constAbove with
  | step a ih =>
    cases constAbove with
    | false =>
      cases eq_of_qualificationConvertible ha hd had
      cases eq_of_qualificationConvertible hb hd hbd
      cases (combineCv_self ha).symm.trans hu
      exact had
    | true =>
      have hnormal := isNormal_combineCv ha hb hu
      obtain ⟨r, hr, hur, -⟩ := combineCv_eq_some ha hb hu
      obtain ⟨hcv, hunqualified⟩ := split_combination ha hb hr
      rw [← hur] at hcv hunqualified
      rw [qualificationConvertible_iff ha hd] at had
      rw [qualificationConvertible_iff hb hd] at hbd
      rw [qualificationConvertible_iff hnormal hd, hcv]
      have hunion := Cv.union_covered had.1 hbd.1
      rcases combineBelow_eq_some hr with ⟨hsame, rfl⟩ | ⟨k, x, y, e, hx, hy, he, rfl⟩
      · refine ⟨Cv.union_covered hunion (Cv.covers_empty _), ?_⟩
        rw [convertsBelow_congr hnormal ha hunqualified]
        exact had.2
      · obtain ⟨z, hz, hxz⟩ := exists_level_of_convertsBelow ha hd had.2 hx
        obtain ⟨z', hz', hyz⟩ := exists_level_of_convertsBelow hb hd hbd.2 hy
        cases hz.symm.trans hz'
        have hx' := (isNormal_of_level? ha hx).2
        have hy' := (isNormal_of_level? hb hy).2
        have hz'' := (isNormal_of_level? hd hz).2
        have hconst := constAbove_of_changed hx' hy' hz'' he hxz hyz
        have hlevel : u.1.level? = some (k, e.1) := by
          rw [hur, level?_qualify, level?_ofLevel]
        refine ⟨?_, convertsBelow_of_level? hlevel hz (ih k x hx hx' hy' hz'' he hxz hyz)⟩
        refine Cv.union_covered hunion ?_
        split
        · next hchanged => exact Cv.covers_const (hconst hchanged)
        · exact Cv.covers_empty _

/-- Qualification conversion is a partial order in which two types have an upper bound exactly if
they are the same but for the qualifiers of their levels, and what they combine to is then the least
upper bound. -/
theorem qualification_order (ha : a.IsFormed) (hb : b.IsFormed) :
    a.qualificationConvertible a = true ∧
    (∀ c, c.IsFormed → a.qualificationConvertible b = true →
      b.qualificationConvertible c = true → a.qualificationConvertible c = true) ∧
    (a.qualificationConvertible b = true → b.qualificationConvertible a = true → a = b) ∧
    ((a.combineCv b).isSome = true ↔ a.plainLevels = b.plainLevels) ∧
    ∀ u changed, a.combineCv b = some (u, changed) →
      u.IsFormed ∧ a.qualificationConvertible u = true ∧ b.qualificationConvertible u = true ∧
        ∀ d, d.IsFormed → a.qualificationConvertible d = true →
          b.qualificationConvertible d = true → u.qualificationConvertible d = true := by
  simp only [isFormed_iff_isNormal] at *
  refine ⟨qualificationConvertible_self ha _, ?_, qualificationConvertible_antisymm ha hb,
    isSome_combineCv ha hb, ?_⟩
  · exact fun c hc hab hbc => qualificationConvertible_trans ha hb hc hab hbc
  · intro u changed hu
    have hswapped := (combineCv_comm hb ha).trans hu
    exact ⟨isNormal_combineCv ha hb hu, (qualificationConvertible_combineCv ha hb hu).1,
      (qualificationConvertible_combineCv hb ha hswapped).1,
      fun d hd had hbd => combineCv_least ha hb hd hu had hbd⟩

/-- Pointers to `char* volatile` and to `const char*` meet at two levels. -/
theorem qualification_order_charPointers :
    let constChar := Ty.qualified (.builtin .char) .const
    let a := Ty.qualified (.pointer (.builtin .char)) .volatile
    let b := Ty.pointer constChar
    let u := Ty.qualified (.pointer constChar) .constVolatile
    a.IsFormed ∧ b.IsFormed ∧ a.plainLevels = b.plainLevels ∧ a.combineCv b = some (u, true) ∧
      a.qualificationConvertible u = true ∧ b.qualificationConvertible u = true ∧
      a.qualificationConvertible (.qualified b .volatile) = false := by
  intro constChar a b u
  have ha : a.IsFormed := isFormed_iff_isNormal.mpr rfl
  have hb : b.IsFormed := isFormed_iff_isNormal.mpr rfl
  have hu : a.combineCv b = some (u, true) := by decide +kernel
  have horder := qualification_order ha hb
  have hbounds := horder.2.2.2.2 u true hu
  exact ⟨ha, hb, horder.2.2.2.1.mp (hu ▸ rfl), hu, hbounds.2.1, hbounds.2.2.1, by decide +kernel⟩

end Ty
end TypeTraits
