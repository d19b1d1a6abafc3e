import TypeTraits.Proofs.Layout.Record

/-!
# Where objects end that are placed one after another

The end of several objects depends on the offset of the first. If the first comes later, then so
does the end, or padding takes the difference in; rounded up to an alignment that covers all of
them, the end comes later by that alignment at most. The part of a record that does not lie at
offset zero is such a row of objects.
-/

namespace TypeTraits

namespace Layout

theorem roundUp_one (value : Nat) : roundUp value 1 = value := by simp [roundUp]

theorem roundUp_mono {value value' : Nat} (h : value ≤ value') (align : Nat) :
    roundUp value align ≤ roundUp value' align :=
  Nat.mul_le_mul_right _ (Nat.div_le_div_right (by omega))

theorem roundUp_add {align n : Nat} (h : align ∣ n) (value : Nat) :
    roundUp (value + n) align = roundUp value align + n := by
  obtain ⟨k, rfl⟩ := h
  rcases Nat.eq_zero_or_pos align with rfl | hpos
  · simp
  · rw [roundUp, roundUp, Nat.max_eq_left hpos, Nat.add_right_comm,
      Nat.add_mul_div_left _ _ hpos, Nat.add_mul, Nat.mul_comm k]

/-- Where objects end that are placed one after another from an offset on. -/
def endOf (start : Nat) (items : List Layout) : Nat :=
  items.foldl (fun offset l => roundUp offset l.align + l.size) start

@[simp] theorem endOf_nil (start : Nat) : endOf start [] = start := rfl

@[simp] theorem endOf_cons (start : Nat) (l : Layout) (items : List Layout) :
    endOf start (l :: items) = endOf (roundUp start l.align + l.size) items := rfl

theorem endOf_append (start : Nat) (items later : List Layout) :
    endOf start (items ++ later) = endOf (endOf start items) later :=
  List.foldl_append

theorem le_endOf (start : Nat) (items : List Layout) :
    start + (items.map (·.size)).sum ≤ endOf start items := by
  induction items generalizing start with
  | nil => simp
  | cons l items ih =>
    have hle := le_roundUp start l.align
    have hrest := ih (roundUp start l.align + l.size)
    simp only [List.map_cons, List.sum_cons, endOf_cons]
    omega

theorem endOf_mono {start start' : Nat} (h : start ≤ start') (items : List Layout) :
    endOf start items ≤ endOf start' items := by
  induction items generalizing start start' with
  | nil => exact h
  | cons l items ih => exact ih (Nat.add_le_add_right (roundUp_mono h _) _)

/-- Moving on by a multiple of all alignments moves the end on by as much. -/
theorem endOf_add {items : List Layout} {n : Nat} (h : ∀ l ∈ items, l.align ∣ n) (start : Nat) :
    endOf (start + n) items = endOf start items + n := by
  induction items generalizing start with
  | nil => rfl
  | cons l items ih =>
    obtain ⟨hl, hitems⟩ := List.forall_mem_cons.1 h
    rw [endOf_cons, endOf_cons, roundUp_add hl, Nat.add_right_comm, ih hitems]

/-- Where there is no padding, objects that are placed later end later. -/
theorem endOf_lt_endOf {items : List Layout} {start start' : Nat} (h : start < start')
    (hnone : endOf start items = start + (items.map (·.size)).sum) :
    endOf start items < endOf start' items := by
  induction items generalizing start start' with
  | nil => exact h
  | cons l items ih =>
    have hle := le_roundUp start l.align
    have hle' := le_roundUp start' l.align
    have hrest := le_endOf (roundUp start l.align + l.size) items
    simp only [List.map_cons, List.sum_cons, endOf_cons] at hnone hrest ⊢
    apply ih
    · omega
    · omega

/-- Objects that are placed later by no more than their greatest alignment end, rounded up to it,
at the same place or by that alignment later. -/
theorem roundUp_endOf_cases {items : List Layout} {align n : Nat} (halign : 0 < align)
    (hitems : ∀ l ∈ items, l.align ∣ align) (hn : n ≤ align) (start : Nat) :
    roundUp (endOf (start + n) items) align = roundUp (endOf start items) align ∨
      roundUp (endOf (start + n) items) align = roundUp (endOf start items) align + align := by
  have hle : roundUp (endOf start items) align ≤ roundUp (endOf (start + n) items) align :=
    roundUp_mono (endOf_mono (Nat.le_add_right _ _) _) _
  have hge : roundUp (endOf (start + n) items) align ≤
      roundUp (endOf start items) align + align := by
    rw [← roundUp_add (Nat.dvd_refl _), ← endOf_add hitems]
    exact roundUp_mono (endOf_mono (Nat.add_le_add_left hn _) _) _
  obtain ⟨i, hi⟩ := dvd_roundUp halign (endOf start items)
  obtain ⟨j, hj⟩ := dvd_roundUp halign (endOf (start + n) items)
  rw [hi, hj] at hle hge ⊢
  rw [← Nat.mul_add_one] at hge ⊢
  have hij := Nat.le_of_mul_le_mul_left hle halign
  have hji := Nat.le_of_mul_le_mul_left hge halign
  rcases Nat.eq_or_lt_of_le hij with rfl | hlt
  · exact Or.inl rfl
  · rw [show j = i + 1 by omega]
    exact Or.inr rfl

theorem fits?_of_lt {n : Nat} (h : n < limit) : fits? n = some n := if_pos h

theorem fits?_of_le {n : Nat} (h : limit ≤ n) : fits? n = none := if_neg (by omega)

theorem place?_eq (offset : Nat) (l : Layout) :
    place? offset l.align l.size = fits? (roundUp offset l.align + l.size) := by
  rw [place?, roundUp?]
  by_cases h : roundUp offset l.align < limit
  · rw [fits?_of_lt h]
    rfl
  · rw [fits?_of_le (by omega), fits?_of_le (by omega)]
    rfl

theorem greatestAlign_append (align : Nat) (items later : List Layout) :
    greatestAlign align (items ++ later) = greatestAlign (greatestAlign align items) later :=
  List.foldl_append

/-- The layout of a record whose last object ends at an offset. -/
def finished (offset align : Nat) : Option Layout :=
  (fits? (roundUp (max offset 1) align)).map (⟨·, align⟩)

/-- The layout of a record that takes one alignment more. -/
def grown (l : Layout) : Option Layout := (fits? (l.size + l.align)).map (⟨·, l.align⟩)

theorem finished_of_le {offset align : Nat} (h : limit ≤ offset) : finished offset align = none := by
  have hle := le_roundUp (max offset 1) align
  rw [finished, fits?_of_le (by omega), Option.map_none]

theorem finished_eq_some {offset align : Nat} {l : Layout} (h : finished offset align = some l) :
    l = ⟨roundUp (max offset 1) align, align⟩ := by
  obtain ⟨size, hsize, rfl⟩ := Option.map_eq_some_iff.1 h
  rw [(fits?_eq_some_iff.1 hsize).1]

section Grown

variable {items : List Layout} {start n align : Nat}

/-- A record in which some objects are placed later is as large as before, or it grows. -/
theorem finished_endOf_cases (hstart : 0 < start) (halign : 0 < align)
    (hitems : ∀ l ∈ items, l.align ∣ align) (hn : n ≤ align) :
    finished (endOf (start + n) items) align = finished (endOf start items) align ∨
      finished (endOf (start + n) items) align = (finished (endOf start items) align).bind grown := by
  have hle := le_endOf start items
  have hle' := le_endOf (start + n) items
  have hcases := roundUp_endOf_cases halign hitems hn start
  rw [finished, finished, Nat.max_eq_left (show 1 ≤ endOf start items by omega),
    Nat.max_eq_left (show 1 ≤ endOf (start + n) items by omega)]
  apply hcases.imp
  · intro heq
    rw [heq]
  · intro heq
    rw [heq]
    by_cases h : roundUp (endOf start items) align < limit
    · rw [fits?_of_lt h]
      rfl
    · rw [fits?_of_le (show limit ≤ roundUp (endOf start items) align by omega),
        fits?_of_le (by omega)]
      rfl

/-- A record without padding grows. -/
theorem finished_endOf_of_tight (hstart : 0 < start) (hpos : 0 < n) (halign : 0 < align)
    (hitems : ∀ l ∈ items, l.align ∣ align) (hn : n ≤ align)
    (htight : roundUp (endOf start items) align = start + (items.map (·.size)).sum) :
    finished (endOf (start + n) items) align = (finished (endOf start items) align).bind grown := by
  have hle := le_endOf start items
  have hround := le_roundUp (endOf start items) align
  have hlt : endOf start items < endOf (start + n) items :=
    endOf_lt_endOf (by omega) (by omega)
  have hround' := le_roundUp (endOf (start + n) items) align
  rcases finished_endOf_cases hstart halign hitems hn with heq | heq
  · -- The record cannot be as large as before: the last object ends behind its old end.
    have hcases := roundUp_endOf_cases halign hitems hn start
    rw [heq]
    rw [finished, finished, Nat.max_eq_left (show 1 ≤ endOf start items by omega),
      Nat.max_eq_left (show 1 ≤ endOf (start + n) items by omega)] at heq
    by_cases h : roundUp (endOf start items) align < limit
    · rw [fits?_of_lt h, Option.map_some, Option.map_eq_some_iff] at heq
      obtain ⟨size, hsize, heq⟩ := heq
      have hsize := (fits?_eq_some_iff.1 hsize).1
      simp only [Layout.mk.injEq, and_true] at heq
      omega
    · rw [finished, Nat.max_eq_left (show 1 ≤ endOf start items by omega),
        fits?_of_le (by omega)]
      rfl
  · exact heq

end Grown

end Layout

namespace Placement

open Layout

/-- The placement after some more objects, whatever their size. -/
def after (s : Placement) (items : List Layout) : Placement :=
  { s with offset := endOf s.offset items, align := greatestAlign s.align items }

/-- The placement after some more objects, if it is in range. -/
def add? (s : Placement) (items : List Layout) : Option Placement :=
  if endOf s.offset items < limit then some (s.after items) else none

variable {s s' : Placement} {items : List Layout}

theorem after_append (s : Placement) (items later : List Layout) :
    s.after (items ++ later) = (s.after items).after later := by
  simp only [after, endOf_append, greatestAlign_append]

theorem place_eq (s : Placement) (l : Layout) : s.place l = s.add? [l] := by
  rw [place, place?_eq, add?]
  by_cases h : roundUp s.offset l.align + l.size < limit
  · rw [fits?_of_lt h]
    exact (if_pos h).symm
  · rw [fits?_of_le (by omega)]
    exact (if_neg h).symm

theorem add?_append (s : Placement) (items later : List Layout) :
    s.add? (items ++ later) = (s.add? items).bind (·.add? later) := by
  have hle := le_endOf (endOf s.offset items) later
  rw [add?, endOf_append, after_append, add?]
  by_cases h : endOf s.offset items < limit
  · rw [if_pos h]
    rfl
  · rw [if_neg h, if_neg (by omega)]
    rfl

theorem add?_bind_finish (s : Placement) (items : List Layout) :
    (s.add? items).bind finish =
      finished (endOf s.offset items) (greatestAlign s.align items) := by
  rw [add?]
  split
  · simp only [Option.bind_some, finish, after, finished, roundUp?, Option.bind_eq_bind]
    cases fits? _ <;> rfl
  · next h => rw [finished_of_le (by omega), Option.bind_none]

/-- A run whose steps add objects to any placement that has moved on from offset zero adds them
all. -/
theorem foldlM_eq_add? {α : Type} {step : Placement → α → Option Placement}
    {items : α → List Layout} {xs : List α} (hs : 0 < s.offset) (hlimit : s.offset < limit)
    (hstep : ∀ x ∈ xs, ∀ s : Placement, 0 < s.offset → s.offset < limit →
      step s x = s.add? (items x)) :
    xs.foldlM step s = s.add? (xs.flatMap items) := by
  induction xs generalizing s with
  | nil => exact (if_pos hlimit).symm
  | cons x xs ih =>
    obtain ⟨hx, hxs⟩ := List.forall_mem_cons.1 hstep
    rw [List.foldlM_cons, hx s hs hlimit, List.flatMap_cons, add?_append, add?]
    split
    · next hlt =>
      have hle := le_endOf s.offset (items x)
      apply ih
      · simp only [after]
        omega
      · exact hlt
      · exact hxs
    · rfl

end Placement

namespace Program

open Layout Placement

variable {p : Program} {s : Placement}

/-- The layout of a record from its data members on. -/
def layOutFrom (p : Program) (s : Placement) (members : List Ty) : Option Layout := do
  let s ← members.foldlM p.placeMember s
  let s ← s.virtualBases.foldlM p.placeVirtualBase s
  s.finish

theorem layOut_eq {parts : RecordParts} (h : parts.isUnion = false) :
    p.layOut parts = (parts.bases.foldlM p.placeBase (p.startPlacement parts)).bind fun s =>
      p.layOutFrom s parts.members := by
  rw [layOut, if_neg (by simp [h])]
  rfl

/-- Whether no empty class has an alignment to keep. -/
def EmptiesUnaligned (p : Program) : Prop :=
  ∀ t r, p.completeRecord? t = some r → r.facts.empty = true → r.layout.align = 1

theorem placeMember_of_pos {t : Ty} {l : Layout} (hl : p.memberLayout t = some l)
    (hs : 0 < s.offset) : p.placeMember s t = s.add? [l] := by
  have hmoved : ¬(s.offset = 0 ∧ t ∈ s.emptyAtZero) := by omega
  simp [placeMember, hl, if_neg hmoved, place_eq]

theorem placeVirtualBase_eq (hempty : p.EmptiesUnaligned) (hs : s.offset < limit) (t : Ty) :
    p.placeVirtualBase s t = s.add? (p.baseItems t) := by
  cases hr : p.completeRecord? t with
  | none =>
    rw [placeVirtualBase, baseItems, hr]
    exact (if_pos hs).symm
  | some r =>
    rw [placeVirtualBase, baseItems, hr, Option.map_some, Option.toList_some, heldLayout]
    dsimp only
    split
    · next hr' =>
      rw [hempty t r hr hr', add?, if_pos (by simpa [roundUp_one] using hs)]
      simp [after, roundUp_one, greatestAlign]
    · exact place_eq s r.layout

/-- The layouts of the data members of a record and of its virtual bases. -/
def laterItems (p : Program) (s : Placement) (members : List Ty) : List Layout :=
  (members.flatMap fun t => (p.memberLayout t).toList) ++ s.virtualBases.flatMap p.baseItems

/-- What does not lie at offset zero is a row of objects. -/
theorem layOutFrom_of_pos (hempty : p.EmptiesUnaligned) {members : List Ty}
    (hmembers : ∀ t ∈ members, ∃ l, p.memberLayout t = some l) (hs : 0 < s.offset)
    (hlimit : s.offset < limit) :
    p.layOutFrom s members = finished (endOf s.offset (p.laterItems s members))
      (greatestAlign s.align (p.laterItems s members)) := by
  have hplaced : members.foldlM p.placeMember s =
      s.add? (members.flatMap fun t => (p.memberLayout t).toList) := by
    refine foldlM_eq_add? hs hlimit fun t ht s hs _ => ?_
    obtain ⟨l, hl⟩ := hmembers t ht
    rw [placeMember_of_pos hl hs, hl, Option.toList_some]
  have hvirtual : ∀ s : Placement, 0 < s.offset → s.offset < limit →
      s.virtualBases.foldlM p.placeVirtualBase s = s.add? (s.virtualBases.flatMap p.baseItems) :=
    fun s hs hlimit => foldlM_eq_add? hs hlimit fun t _ s _ hs => placeVirtualBase_eq hempty hs t
  rw [layOutFrom, hplaced, ← add?_bind_finish, laterItems, add?_append, Option.bind_assoc, add?]
  split
  · next hlt =>
    have hle := le_endOf s.offset (members.flatMap fun t => (p.memberLayout t).toList)
    rw [Option.bind_eq_bind, Option.bind_some, Option.bind_some, hvirtual _ _ hlt]
    · rfl
    · simp only [after]
      omega
  · rfl

end Program

end TypeTraits
