import Mathlib
import TypeTraits.Layout.Record

/-!
# What placing subobjects does

Rounding goes up by less than the alignment. Placing objects one after another takes at least as
much room as all of them together, and the alignment that is kept is the greatest one, which is a
multiple of every other where all of them are powers of two. The virtual bases that are noted are
those met, each once.
-/

namespace TypeTraits

namespace Layout

theorem isPowerOfTwo_iff {n : Nat} : isPowerOfTwo n = true ↔ n.isPowerOfTwo := by
  constructor
  · intro h
    simp only [isPowerOfTwo, Bool.and_eq_true, beq_iff_eq, Nat.one_shiftLeft] at h
    exact ⟨n.log2, h.2.symm⟩
  · rintro ⟨k, rfl⟩
    rw [← Nat.one_shiftLeft]
    exact isPowerOfTwo_shiftLeft k

theorem dvd_of_isPowerOfTwo_of_le {m n : Nat} (hm : m.isPowerOfTwo) (hn : n.isPowerOfTwo)
    (h : m ≤ n) : m ∣ n := by
  obtain ⟨i, rfl⟩ := hm
  obtain ⟨j, rfl⟩ := hn
  exact Nat.pow_dvd_pow 2 ((Nat.pow_le_pow_iff_right (by decide)).1 h)

/-- The greater of two powers of two is a power of two that both divide. -/
theorem isPowerOfTwo_max {m n : Nat} (hm : m.isPowerOfTwo) (hn : n.isPowerOfTwo) :
    (max m n).isPowerOfTwo ∧ m ∣ max m n ∧ n ∣ max m n := by
  have hmax : (max m n).isPowerOfTwo := by
    rcases Nat.le_total m n with h | h
    · rwa [Nat.max_eq_right h]
    · rwa [Nat.max_eq_left h]
  exact ⟨hmax, dvd_of_isPowerOfTwo_of_le hm hmax (Nat.le_max_left ..),
    dvd_of_isPowerOfTwo_of_le hn hmax (Nat.le_max_right ..)⟩

theorem roundUp_eq (value align : Nat) :
    roundUp value align + (value + (max align 1 - 1)) % max align 1 =
      value + (max align 1 - 1) := by
  rw [roundUp, Nat.mul_comm]
  exact Nat.div_add_mod ..

theorem le_roundUp (value align : Nat) : value ≤ roundUp value align := by
  have heq := roundUp_eq value align
  have hlt := Nat.mod_lt (value + (max align 1 - 1)) (show 0 < max align 1 by omega)
  omega

theorem roundUp_lt (value align : Nat) : roundUp value align < value + max align 1 := by
  have heq := roundUp_eq value align
  omega

theorem dvd_roundUp {align : Nat} (h : 0 < align) (value : Nat) : align ∣ roundUp value align := by
  rw [roundUp, Nat.max_eq_left h]
  exact Nat.dvd_mul_left ..

/-- Anything but zero is rounded up to the alignment at least. -/
theorem align_le_roundUp {value : Nat} (h : 0 < value) (align : Nat) :
    align ≤ roundUp value align := by
  rcases Nat.eq_zero_or_pos align with rfl | halign
  · exact Nat.zero_le _
  · exact Nat.le_of_dvd (Nat.lt_of_lt_of_le h (le_roundUp value align)) (dvd_roundUp halign value)

@[simp] theorem roundUp_zero (align : Nat) : roundUp 0 align = 0 := by
  have : (max align 1 - 1) / max align 1 = 0 := Nat.div_eq_of_lt (by omega)
  rw [roundUp, Nat.zero_add, this, Nat.zero_mul]

theorem roundUp?_eq_some {value align last : Nat} (h : roundUp? value align = some last) :
    last = roundUp value align :=
  (fits?_eq_some_iff.1 h).1.symm

theorem place?_eq_some {offset align size last : Nat} (h : place? offset align size = some last) :
    last = roundUp offset align + size := by
  obtain ⟨start, hstart, h⟩ := Option.bind_eq_some_iff.1 h
  rw [← roundUp?_eq_some hstart]
  exact (fits?_eq_some_iff.1 h).1.symm

/-- The greatest of an alignment and those of some layouts. -/
def greatestAlign (align : Nat) (items : List Layout) : Nat :=
  items.foldl (fun align l => max align l.align) align

theorem isPowerOfTwo_greatestAlign {align : Nat} {items : List Layout} (h : align.isPowerOfTwo)
    (hitems : ∀ l ∈ items, l.align.isPowerOfTwo) :
    (greatestAlign align items).isPowerOfTwo ∧ align ∣ greatestAlign align items ∧
      ∀ l ∈ items, l.align ∣ greatestAlign align items := by
  induction items generalizing align with
  | nil => exact ⟨h, Nat.dvd_refl _, by simp⟩
  | cons l items ih =>
    obtain ⟨hl, hitems⟩ := List.forall_mem_cons.1 hitems
    obtain ⟨hmax, hleft, hright⟩ := isPowerOfTwo_max h hl
    obtain ⟨hgreatest, hdvd, hrest⟩ := ih hmax hitems
    exact ⟨hgreatest, Nat.dvd_trans hleft hdvd,
      List.forall_mem_cons.2 ⟨Nat.dvd_trans hright hdvd, hrest⟩⟩

end Layout

namespace Placement

open Layout

/-- Whether objects of some layouts have been added to a placement: it has moved on by their sizes
at least, and its alignment covers theirs. -/
structure Adds (s : Placement) (items : List Layout) (s' : Placement) : Prop where
  room : s.offset + (items.map (·.size)).sum ≤ s'.offset
  align : s'.align = greatestAlign s.align items

variable {s s' s'' : Placement}

theorem Adds.nil (s : Placement) : s.Adds [] s := ⟨Nat.le_refl _, rfl⟩

theorem Adds.trans {items later : List Layout} (h : s.Adds items s') (h' : s'.Adds later s'') :
    s.Adds (items ++ later) s'' where
  room := by
    have hroom := h.room
    have hroom' := h'.room
    simp only [List.map_append, List.sum_append]
    omega
  align := by rw [h'.align, h.align, greatestAlign, greatestAlign, greatestAlign, List.foldl_append]

/-- What each step of a run adds, the run adds. -/
theorem adds_foldlM {α : Type} {step : Placement → α → Option Placement} {items : α → List Layout}
    {xs : List α} (hstep : ∀ x ∈ xs, ∀ s s', step s x = some s' → s.Adds (items x) s')
    (h : xs.foldlM step s = some s') : s.Adds (xs.flatMap items) s' := by
  induction xs generalizing s with
  | nil =>
    cases h
    exact .nil _
  | cons x xs ih =>
    obtain ⟨hx, hxs⟩ := List.forall_mem_cons.1 hstep
    rw [List.foldlM_cons, Option.bind_eq_bind, Option.bind_eq_some_iff] at h
    obtain ⟨next, hnext, h⟩ := h
    rw [List.flatMap_cons]
    exact (hx _ _ hnext).trans (ih hxs h)

/-- Placing a subobject adds its layout and keeps what has been noted. -/
theorem place_eq_some {l : Layout} (h : s.place l = some s') :
    s' = { s with offset := roundUp s.offset l.align + l.size, align := max s.align l.align } := by
  obtain ⟨offset, hoffset, h⟩ := Option.bind_eq_some_iff.1 h
  cases h
  rw [place?_eq_some hoffset]

theorem adds_place {l : Layout} (h : s.place l = some s') : s.Adds [l] s' := by
  rw [place_eq_some h]
  have hle := le_roundUp s.offset l.align
  exact ⟨by simpa using hle, rfl⟩

/-- A finished record has room for everything that was placed. -/
theorem finish_eq_some {layout : Layout} (h : s.finish = some layout) :
    layout = ⟨roundUp (max s.offset 1) s.align, s.align⟩ := by
  obtain ⟨size, hsize, h⟩ := Option.bind_eq_some_iff.1 h
  cases h
  rw [roundUp?_eq_some hsize]

end Placement

namespace Program

open Placement

variable {p : Program} {s s' : Placement}

/-- The layout with which a class is held as a base: an empty one takes no room. -/
def heldLayout (r : Record) : Layout := ⟨if r.facts.empty then 0 else r.layout.size, r.layout.align⟩

/-- The layout with which a type is held as a base, if it is a complete class. -/
def baseItems (p : Program) (t : Ty) : List Layout := ((p.completeRecord? t).map heldLayout).toList

theorem adds_placeBase {base : BaseClass} (h : p.placeBase s base = some s') :
    s.Adds (if base.isVirtual then [] else p.baseItems base.type) s' := by
  rw [placeBase] at h
  split at h
  · next hvirtual =>
    cases h
    rw [if_pos hvirtual]
    exact ⟨Nat.le_refl _, rfl⟩
  · next hvirtual =>
    rw [if_neg hvirtual, baseItems]
    split at h
    · next hnone =>
      cases h
      rw [hnone]
      exact .nil s
    · next r hr =>
      rw [hr, Option.map_some, Option.toList_some, heldLayout]
      split at h
      · next hempty =>
        rw [if_pos hempty]
        split at h
        · cases h
          exact ⟨by simp, rfl⟩
        · obtain ⟨hroom, halign⟩ := adds_place h
          exact ⟨by simp at hroom ⊢; omega, halign⟩
      · next hempty =>
        rw [if_neg hempty]
        exact adds_place h

theorem adds_placeMember {t : Ty} {l : Layout} (hl : p.memberLayout t = some l)
    (h : p.placeMember s t = some s') : s.Adds [l] s' := by
  simp only [placeMember, hl, Option.bind_eq_bind, Option.bind_some, Option.bind_eq_some_iff] at h
  obtain ⟨next, hnext, h⟩ := h
  have hadds := adds_place hnext
  split at h
  · obtain ⟨offset, hoffset, h⟩ := Option.bind_eq_some_iff.1 h
    cases h
    have heq := (Layout.fits?_eq_some_iff.1 hoffset).1
    have hroom := hadds.room
    exact ⟨by simp only; omega, hadds.align⟩
  · cases h
    exact hadds

theorem adds_placeVirtualBase {t : Ty} (h : p.placeVirtualBase s t = some s') :
    s.Adds (p.baseItems t) s' := by
  rw [placeVirtualBase] at h
  rw [baseItems]
  split at h
  · next hnone =>
    cases h
    rw [hnone]
    exact .nil s
  · next r hr =>
    rw [hr, Option.map_some, Option.toList_some, heldLayout]
    split at h
    · next hempty =>
      cases h
      rw [if_pos hempty]
      exact ⟨by simp, rfl⟩
    · next hempty =>
      rw [if_neg hempty]
      exact adds_place h

/-- A run that gives a result has taken a step for each item. -/
theorem exists_step_of_foldlM {α γ : Type} {f : α → γ → Option α} {xs : List γ} {a b : α}
    (h : xs.foldlM f a = some b) : ∀ c ∈ xs, ∃ a b, f a c = some b := by
  induction xs generalizing a with
  | nil => simp
  | cons c xs ih =>
    rw [List.foldlM_cons, Option.bind_eq_bind, Option.bind_eq_some_iff] at h
    obtain ⟨next, hnext, h⟩ := h
    exact List.forall_mem_cons.2 ⟨⟨a, next, hnext⟩, ih h⟩

/-- Every data member of a record that is laid out has a layout. -/
theorem memberLayout_of_placeMember {ts : List Ty} (h : ts.foldlM p.placeMember s = some s') :
    ∀ t ∈ ts, ∃ l, p.memberLayout t = some l := by
  intro t ht
  obtain ⟨_, _, hstep⟩ := exists_step_of_foldlM h t ht
  obtain ⟨l, hl, -⟩ := Option.bind_eq_some_iff.1 hstep
  exact ⟨l, hl⟩

theorem virtualBases_placeMember {t : Ty} (h : p.placeMember s t = some s') :
    s'.virtualBases = s.virtualBases := by
  obtain ⟨l, hl, h⟩ := Option.bind_eq_some_iff.1 h
  obtain ⟨next, hnext, h⟩ := Option.bind_eq_some_iff.1 h
  have hkept : next.virtualBases = s.virtualBases := by rw [place_eq_some hnext]
  split at h
  · obtain ⟨offset, -, h⟩ := Option.bind_eq_some_iff.1 h
    cases h
    exact hkept
  · cases h
    exact hkept

theorem virtualBases_placeMembers {ts : List Ty} (h : ts.foldlM p.placeMember s = some s') :
    s'.virtualBases = s.virtualBases := by
  induction ts generalizing s with
  | nil =>
    cases h
    rfl
  | cons t ts ih =>
    rw [List.foldlM_cons, Option.bind_eq_bind, Option.bind_eq_some_iff] at h
    obtain ⟨next, hnext, h⟩ := h
    exact (ih h).trans (virtualBases_placeMember hnext)

theorem virtualBases_placeBase {base : BaseClass} (h : p.placeBase s base = some s') :
    s'.virtualBases =
      if base.isVirtual ∧ base.type ∉ s.virtualBases then s.virtualBases ++ [base.type]
      else s.virtualBases := by
  rw [placeBase] at h
  split at h
  · next hvirtual =>
    cases h
    by_cases hmem : base.type ∈ s.virtualBases <;> simp [hvirtual, hmem]
  · next hvirtual =>
    rw [if_neg (by simp [hvirtual])]
    split at h
    · cases h
      rfl
    · split at h
      · split at h
        · cases h
          rfl
        · rw [place_eq_some h]
      · rw [place_eq_some h]

/-- The virtual bases among several bases are noted once each. -/
theorem virtualBases_placeBases {bases : List BaseClass}
    (h : bases.foldlM p.placeBase s = some s') (hs : s.virtualBases.Nodup) :
    s'.virtualBases.Nodup ∧ ∀ t, t ∈ s'.virtualBases ↔
      t ∈ s.virtualBases ∨ ∃ base ∈ bases, base.isVirtual = true ∧ base.type = t := by
  induction bases generalizing s with
  | nil =>
    cases h
    exact ⟨hs, by simp⟩
  | cons base bases ih =>
    rw [List.foldlM_cons, Option.bind_eq_bind, Option.bind_eq_some_iff] at h
    obtain ⟨next, hnext, h⟩ := h
    have hstep := virtualBases_placeBase hnext
    have hnodup : next.virtualBases.Nodup := by
      rw [hstep]
      split
      · next hnew => exact List.nodup_append.2 ⟨hs, by simp, by grind⟩
      · exact hs
    obtain ⟨hnodup, hmem⟩ := ih h hnodup
    refine ⟨hnodup, fun t => ?_⟩
    rw [hmem t, hstep]
    grind

/-- A class takes the room that it has, if it is held as a base and not empty. -/
theorem mem_baseItems {t : Ty} {l : Layout} :
    l ∈ p.baseItems t ↔ ∃ r, p.completeRecord? t = some r ∧ heldLayout r = l := by
  simp [baseItems]

end Program

end TypeTraits
