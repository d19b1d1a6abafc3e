import TypeTraits.Expr.Conditional
import TypeTraits.Proofs.Layout.Qualification

/-!
# Pointers level by level

A pointer is a tower of levels, each a plain pointer or a pointer to a member of some class, with a
qualification at every level. Two pointers that differ in their qualification only combine to one
type, whichever is named first. Both convert to it by adding qualifiers: where a level has changed
every level above is `const`, and where none has changed the types are the same.
-/

namespace TypeTraits

namespace Cv

variable {a b c : Cv}

theorem union_comm (a b : Cv) : a ∪ b = b ∪ a := by
  rcases a with ⟨_ | _, _ | _⟩ <;> rcases b with ⟨_ | _, _ | _⟩ <;> rfl

theorem empty_union (a : Cv) : ∅ ∪ a = a := by
  rcases a with ⟨_ | _, _ | _⟩ <;> rfl

theorem covers_self (a : Cv) : a.covers a = true := by
  rcases a with ⟨_ | _, _ | _⟩ <;> rfl

theorem covers_union (b : Cv) (h : a.covers c = true) : (a ∪ b).covers c = true := by
  simp only [covers, Bool.and_eq_true, Bool.or_eq_true, union_isConst, union_isVolatile] at h ⊢
  grind

end Cv

namespace Ty

/-- The outermost level of a possibly qualified pointer or member pointer: the class whose member
is pointed to, if any, and what is pointed to. -/
def level? (t : Ty) : Option (Option Ty × Ty) :=
  match t.core with
  | pointer u => some (none, u)
  | memberPointer c u => some (some c, u)
  | _ => none

/-- The pointer with this outermost level. -/
def ofLevel : Option Ty → Ty → Ty
  | none, u => pointer u
  | some c, u => memberPointer c u

/-- Induction on the levels of a pointer. -/
theorem levels_induction {motive : Ty → Prop}
    (step : ∀ t, (∀ k u, t.level? = some (k, u) → motive u) → motive t) (t : Ty) : motive t := by
  have hlevels : motive t ∧ ∀ k u, t.level? = some (k, u) → motive u := by
    induction t using Ty.inductionOn with
    | pointer t ih =>
      have hbelow : ∀ k u, (pointer t).level? = some (k, u) → motive u := by
        rintro k u ⟨⟩
        exact ih.1
      exact ⟨step _ hbelow, hbelow⟩
    | memberPointer c t _ ih =>
      have hbelow : ∀ k u, (memberPointer c t).level? = some (k, u) → motive u := by
        rintro k u ⟨⟩
        exact ih.1
      exact ⟨step _ hbelow, hbelow⟩
    | qualified t cv ih =>
      have hbelow : ∀ k u, (qualified t cv).level? = some (k, u) → motive u := by
        intro k u hu
        cases t <;> first | exact ih.2 k u hu | cases hu
      exact ⟨step _ hbelow, hbelow⟩
    | _ => exact ⟨step _ nofun, nofun⟩
  exact hlevels.1

variable {a b t u x : Ty}

theorem pointee?_eq_level? (t : Ty) :
    t.pointee? = match t.level? with
      | some (none, u) => some u
      | _ => none := by
  unfold pointee? level?
  cases t.core <;> rfl

theorem memberPointerParts?_eq_level? (t : Ty) :
    t.memberPointerParts? = match t.level? with
      | some (some c, u) => some (c, u)
      | _ => none := by
  unfold memberPointerParts? level?
  cases t.core <;> rfl

theorem level?_unqualified (h : t.isNormal = true) : t.unqualified.level? = t.level? := by
  cases t with
  | qualified t cv => cases t <;> simp [isNormal, takesQualifier] at h <;> rfl
  | array t b =>
    have ht : t.isNormal = true := h
    rw [unqualified_array ht]
    rfl
  | _ => rfl

theorem unqualified_of_level? {k : Option Ty} (h : t.isNormal = true)
    (hlevel : t.level? = some (k, u)) : t.unqualified = ofLevel k u := by
  cases t with
  | qualified t cv =>
    cases t <;> simp [isNormal, takesQualifier] at h <;>
      simp [level?, core] at hlevel <;> obtain ⟨rfl, rfl⟩ := hlevel <;> rfl
  | pointer t | memberPointer c t => cases hlevel; rfl
  | _ => cases hlevel

theorem isNormal_ofLevel {k : Option Ty} :
    (ofLevel k u).isNormal = (k.all isNormal && u.isNormal) := by
  cases k <;> simp [ofLevel, isNormal]

theorem isNormal_of_level? {k : Option Ty} (h : t.isNormal = true)
    (hlevel : t.level? = some (k, u)) : k.all isNormal = true ∧ u.isNormal = true := by
  have hlevels := unqualified_of_level? h hlevel ▸ isNormal_unqualified h
  simpa [isNormal_ofLevel] using hlevels

@[simp] theorem level?_ofLevel (k : Option Ty) (u : Ty) : (ofLevel k u).level? = some (k, u) := by
  cases k <;> rfl

@[simp] theorem cv_ofLevel (k : Option Ty) (u : Ty) : (ofLevel k u).cv = ∅ := by
  cases k <;> rfl

@[simp] theorem unqualified_ofLevel (k : Option Ty) (u : Ty) :
    (ofLevel k u).unqualified = ofLevel k u := by
  cases k <;> rfl

theorem level?_qualify (cv : Cv) : (t.qualify cv).level? = t.level? := by
  unfold qualify
  split
  · rfl
  · cases t <;> rfl

/-- What the levels below the outermost qualification combine to. -/
def combineBelow (a b : Ty) : Option (Ty × Bool) :=
  if a.unqualified = b.unqualified then some (a.unqualified, false)
  else
    match a.level?, b.level? with
    | some (k, x), some (l, y) =>
      if k = l then (x.combineCv y).map fun r => (ofLevel k r.1, r.2) else none
    | _, _ => none

/-- The outermost qualification of a combination. -/
def combinedCv (a b : Ty) (changed : Bool) : Cv :=
  a.cv ∪ b.cv ∪ (if changed then Cv.const else ∅)

theorem combineCv_eq (ha : a.isNormal = true) (hb : b.isNormal = true) :
    a.combineCv b = (combineBelow a b).map fun r =>
      (r.1.qualify (combinedCv a b r.2),
        r.2 || combinedCv a b r.2 != a.cv || combinedCv a b r.2 != b.cv) := by
  have hlevel := level?_unqualified hb
  unfold combineCv combineBelow
  simp only [splitCv_eq, pointee?_eq_level?, memberPointerParts?_eq_level?, hlevel]
  by_cases hsame : a.unqualified = b.unqualified
  · simp only [hsame, if_true]
    rfl
  · simp only [hsame, if_false]
    cases a with
    | qualified a cv =>
      cases a <;> simp [isNormal, takesQualifier] at ha <;>
        rcases b.level? with _ | ⟨_ | d, y⟩ <;>
          first | rfl | simp [level?, core, ofLevel, combinedCv]
    | _ =>
      rcases b.level? with _ | ⟨_ | d, y⟩ <;>
        first | rfl | simp [level?, core, ofLevel, combinedCv]

/-- Adding qualifiers to the levels below the outermost qualification. -/
def convertsBelow (a b : Ty) (constHere : Bool) : Bool :=
  a.unqualified == b.unqualified ||
    match a.level?, b.level? with
    | some (k, x), some (l, y) => k == l && x.qualificationConvertible y constHere
    | _, _ => false

theorem qualificationConvertible_eq (ha : a.isNormal = true) (hb : b.isNormal = true)
    (constAbove : Bool) :
    a.qualificationConvertible b constAbove =
      (b.cv.covers a.cv && (b.cv == a.cv || constAbove) &&
        convertsBelow a b (constAbove && b.cv.isConst)) := by
  have hlevel := level?_unqualified hb
  unfold qualificationConvertible convertsBelow
  simp only [splitCv_eq, pointee?_eq_level?, memberPointerParts?_eq_level?, hlevel]
  cases a with
  | qualified a cv =>
    cases a <;> simp [isNormal, takesQualifier] at ha <;>
      rcases b.level? with _ | ⟨_ | d, y⟩ <;> rfl
  | _ => rcases b.level? with _ | ⟨_ | d, y⟩ <;> rfl

theorem combinedCv_comm (a b : Ty) (changed : Bool) :
    combinedCv a b changed = combinedCv b a changed := by
  simp only [combinedCv, Cv.union_comm a.cv b.cv]

theorem covers_combinedCv (a b : Ty) (changed : Bool) :
    (combinedCv a b changed).covers a.cv = true :=
  Cv.covers_union _ (Cv.covers_union _ (Cv.covers_self _))

theorem isConst_combinedCv (a b : Ty) : (combinedCv a b true).isConst = true := by
  simp [combinedCv, Cv.const]

/-- How the levels below the outermost qualification combine: they are the same, or both begin with
the same kind of level. -/
theorem combineBelow_eq_some {r : Ty × Bool} (h : combineBelow a b = some r) :
    (a.unqualified = b.unqualified ∧ r = (a.unqualified, false)) ∨
      ∃ k x y c, a.level? = some (k, x) ∧ b.level? = some (k, y) ∧ x.combineCv y = some c ∧
        r = (ofLevel k c.1, c.2) := by
  unfold combineBelow at h
  split at h
  · next hsame => exact .inl ⟨hsame, (Option.some.inj h).symm⟩
  · split at h
    · next k x l y hx hy =>
      split at h
      · next hkind =>
        obtain ⟨c, hc, rfl⟩ := Option.map_eq_some_iff.mp h
        exact .inr ⟨k, x, y, c, hx, hkind ▸ hy, hc, rfl⟩
      · cases h
    · cases h

theorem combineBelow_comm (ha : a.isNormal = true) (hb : b.isNormal = true)
    (ih : ∀ k x, a.level? = some (k, x) → ∀ {y}, x.isNormal = true → y.isNormal = true →
      x.combineCv y = y.combineCv x) :
    combineBelow a b = combineBelow b a := by
  unfold combineBelow
  by_cases hsame : a.unqualified = b.unqualified
  · rw [if_pos hsame, if_pos hsame.symm, hsame]
  rw [if_neg hsame, if_neg (Ne.symm hsame)]
  cases hx : a.level? with
  | none => cases b.level? <;> rfl
  | some levelA =>
    cases hy : b.level? with
    | none => rfl
    | some levelB =>
      obtain ⟨k, x⟩ := levelA
      obtain ⟨l, y⟩ := levelB
      by_cases hkind : k = l
      · subst hkind
        simp only [if_true, ih k x hx (isNormal_of_level? ha hx).2 (isNormal_of_level? hb hy).2]
      · simp only [if_neg hkind, if_neg (Ne.symm hkind)]

/-- What two types combine to does not depend on which is named first. -/
theorem combineCv_comm (ha : a.isNormal = true) (hb : b.isNormal = true) :
    a.combineCv b = b.combineCv a := by
  induction a using levels_induction generalizing b with
  | step a ih =>
    rw [combineCv_eq ha hb, combineCv_eq hb ha,
      combineBelow_comm ha hb fun k x hx {y} hx' hy => ih k x hx hx' hy]
    refine congrArg (Option.map · _) (funext fun r => ?_)
    rw [combinedCv_comm, Bool.or_assoc, Bool.or_assoc, Bool.or_comm (_ != a.cv)]

theorem combineCv_eq_some {c : Ty × Bool} (ha : a.isNormal = true) (hb : b.isNormal = true)
    (h : a.combineCv b = some c) :
    ∃ r, combineBelow a b = some r ∧ c.1 = r.1.qualify (combinedCv a b r.2) ∧
      (c.2 = false → r.2 = false ∧ combinedCv a b r.2 = a.cv) := by
  rw [combineCv_eq ha hb] at h
  obtain ⟨r, hr, rfl⟩ := Option.map_eq_some_iff.mp h
  refine ⟨r, hr, rfl, ?_⟩
  intro hunchanged
  simp only [Bool.or_eq_false_iff, bne_eq_false_iff_eq] at hunchanged
  exact hunchanged.1

theorem isNormal_combineCv {c : Ty × Bool} (ha : a.isNormal = true) (hb : b.isNormal = true)
    (h : a.combineCv b = some c) : c.1.isNormal = true := by
  induction a using levels_induction generalizing b c with
  | step a ih =>
    obtain ⟨r, hr, hc, -⟩ := combineCv_eq_some ha hb h
    rw [hc]
    refine isNormal_qualify ?_
    rcases combineBelow_eq_some hr with ⟨-, rfl⟩ | ⟨k, x, y, c, hx, hy, hbelow, rfl⟩
    · exact isNormal_unqualified ha
    · obtain ⟨hkind, hx'⟩ := isNormal_of_level? ha hx
      have hbelow := ih k x hx hx' (isNormal_of_level? hb hy).2 hbelow
      rw [isNormal_ofLevel, hkind, hbelow]
      rfl

/-- Whether the type keeps qualifiers that are added to it. -/
def keepsCv : Ty → Bool
  | lvalueRef _ | rvalueRef _ | function .. | functionNamed _ => false
  | array t _ => t.keepsCv
  | _ => true

theorem cv_eq_empty_of_keepsCv (h : t.keepsCv = false) : t.cv = ∅ := by
  induction t using Ty.inductionOn with
  | array t b ih => exact ih h
  | _ => first | rfl | cases h

theorem keepsCv_unqualified (h : t.isNormal = true) : t.unqualified.keepsCv = t.keepsCv := by
  induction t using Ty.inductionOn with
  | qualified t cv _ => cases t <;> simp [isNormal, takesQualifier] at h <;> rfl
  | array t b ih =>
    have ht : t.isNormal = true := h
    rw [unqualified_array ht]
    exact ih ht
  | _ => rfl

theorem cv_unqualified (h : t.isNormal = true) : t.unqualified.cv = ∅ := by
  induction t using Ty.inductionOn with
  | qualified t cv _ => cases t <;> simp [isNormal, takesQualifier] at h <;> rfl
  | array t b ih =>
    have ht : t.isNormal = true := h
    rw [unqualified_array ht]
    exact ih ht
  | _ => rfl

theorem cv_qualify {cv : Cv} (h : t.keepsCv = true) : (t.qualify cv).cv = t.cv ∪ cv := by
  cases hcv : cv.isEmpty with
  | true => rw [Cv.isEmpty_iff.mp hcv, qualify_empty, Cv.union_comm, Cv.empty_union]
  | false =>
    rw [qualify_of_not_isEmpty hcv]
    induction t using Ty.inductionOn with
    | array t b ih => exact ih h
    | qualified t c _ => rfl
    | _ => first | exact (Cv.empty_union _).symm | cases h

/-- A combination has the qualification that was combined. -/
theorem split_combination {r : Ty × Bool} (ha : a.isNormal = true) (hb : b.isNormal = true)
    (h : combineBelow a b = some r) :
    (r.1.qualify (combinedCv a b r.2)).cv = combinedCv a b r.2 ∧
      (r.1.qualify (combinedCv a b r.2)).unqualified = r.1 := by
  rcases combineBelow_eq_some h with ⟨hsame, rfl⟩ | ⟨k, x, y, c, hx, hy, hbelow, rfl⟩
  · refine ⟨?_, (unqualified_qualify (isNormal_unqualified ha)).trans (unqualified_unqualified ha)⟩
    cases hkeeps : a.keepsCv with
    | true =>
      rw [cv_qualify ((keepsCv_unqualified ha).trans hkeeps), cv_unqualified ha, Cv.empty_union]
    | false =>
      have hkeeps' : b.keepsCv = false := by
        rw [← keepsCv_unqualified hb, ← hsame, keepsCv_unqualified ha, hkeeps]
      have hcv : combinedCv a b false = ∅ := by
        rw [combinedCv, cv_eq_empty_of_keepsCv hkeeps, cv_eq_empty_of_keepsCv hkeeps']
        rfl
      rw [hcv, qualify_empty, cv_unqualified ha]
  · have hnormal : (ofLevel k c.1).isNormal = true := by
      rw [isNormal_ofLevel, (isNormal_of_level? ha hx).1,
        isNormal_combineCv (isNormal_of_level? ha hx).2 (isNormal_of_level? hb hy).2 hbelow]
      rfl
    refine ⟨?_, (unqualified_qualify hnormal).trans (unqualified_ofLevel k c.1)⟩
    rw [cv_qualify (by cases k <;> rfl), cv_ofLevel, Cv.empty_union]

theorem qualificationConvertible_self (h : t.isNormal = true) (constAbove : Bool) :
    t.qualificationConvertible t constAbove = true := by
  rw [qualificationConvertible_eq h h]
  simp [Cv.covers_self, convertsBelow]

/-- A pointer converts to what it combines to with another one, and is that type already if nothing
has changed. -/
theorem qualificationConvertible_combineCv {c : Ty × Bool} (ha : a.isNormal = true)
    (hb : b.isNormal = true) (h : a.combineCv b = some c) :
    a.qualificationConvertible c.1 = true ∧ (c.2 = false → c.1 = a) := by
  induction a using levels_induction generalizing b c with
  | step a ih =>
    have hnormal := isNormal_combineCv ha hb h
    obtain ⟨r, hr, hc, hunchanged⟩ := combineCv_eq_some ha hb h
    obtain ⟨hcv, hunqualified⟩ := split_combination ha hb hr
    rw [← hc] at hcv hunqualified
    rw [qualificationConvertible_eq ha hnormal, hcv]
    rcases combineBelow_eq_some hr with ⟨hsame, rfl⟩ | ⟨k, x, y, d, hx, hy, hbelow, rfl⟩
    · constructor
      · simp [covers_combinedCv, convertsBelow, hunqualified]
      · intro hsecond
        rw [hc, (hunchanged hsecond).2, qualify_unqualified a ha]
    · obtain ⟨hconverts, hkept⟩ :=
        ih k x hx (isNormal_of_level? ha hx).2 (isNormal_of_level? hb hy).2 hbelow
      have hlevel : c.1.level? = some (k, d.1) := by
        rw [hc, level?_qualify, level?_ofLevel]
      have hbelowConverts :
          x.qualificationConvertible d.1 (combinedCv a b d.2).isConst = true := by
        cases hchanged : d.2 with
        | true => rw [isConst_combinedCv]; exact hconverts
        | false =>
          rw [hkept hchanged]
          exact qualificationConvertible_self (isNormal_of_level? ha hx).2 _
      constructor
      · simp [covers_combinedCv, convertsBelow, hx, hlevel, hbelowConverts]
      · intro hsecond
        obtain ⟨hbelowUnchanged, hcvSame⟩ := hunchanged hsecond
        rw [hc, hcvSame, hkept hbelowUnchanged, ← unqualified_of_level? ha hx,
          qualify_unqualified a ha]

end Ty
end TypeTraits
