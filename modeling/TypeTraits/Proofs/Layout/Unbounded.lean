import Mathlib.Order.Bounds.Defs
import TypeTraits.Proofs.Layout.Padding

/-!
# Layout with numbers of any size

Laying a record out checks each number that it forms. The same algorithm is given here over a check
of its own, of which the check for words is one instance and the check that every number passes is
another. An offset never goes back, and the size is at least the last offset: where a number is out
of range on the way, the size without limit is out of range too. So the checked algorithm fails for
no other records than those, and agrees with the other one on the rest.
-/

namespace TypeTraits

namespace Layout

/-- Rounding up gives the least multiple that is large enough. -/
theorem isLeast_roundUp (value align : Nat) :
    IsLeast {n | max align 1 ∣ n ∧ value ≤ n} (roundUp value align) := by
  refine ⟨⟨Nat.dvd_mul_left .., le_roundUp value align⟩, ?_⟩
  rintro n ⟨⟨k, rfl⟩, hle⟩
  have hlt := roundUp_lt value align
  rw [roundUp, Nat.mul_comm] at hlt ⊢
  have hk : (value + (max align 1 - 1)) / max align 1 < k + 1 := by
    refine Nat.lt_of_mul_lt_mul_left (a := max align 1) ?_
    rw [Nat.mul_add_one]
    omega
  exact Nat.mul_le_mul_left _ (Nat.lt_succ_iff.1 hk)

section Exact

variable {α β γ : Type} {extent : α → Nat} {extent' : β → Nat}

/-- Whether a checked computation is exact: it gives what the unchecked one gives, or it fails and
the unchecked result is out of range. -/
def Exact (extent : α → Nat) (checked unchecked : Option α) : Prop :=
  checked = unchecked ∨ checked = none ∧ ∀ a, unchecked = some a → limit ≤ extent a

theorem Exact.refl (x : Option α) : Exact extent x x := Or.inl rfl

theorem exact_fits? (n : Nat) : Exact id (fits? n) (some n) := by
  rcases Nat.lt_or_ge n limit with h | h
  · exact Or.inl (fits?_of_lt h)
  · refine Or.inr ⟨fits?_of_le h, ?_⟩
    rintro _ ⟨⟩
    exact h

/-- Whether a computation never leaves less than it finds. -/
def Grows (extent : α → Nat) (extent' : β → Nat) (f : α → Option β) : Prop :=
  ∀ a b, f a = some b → extent a ≤ extent' b

theorem Grows.bind {extent'' : γ → Nat} {f : α → Option β} {g : β → Option γ}
    (hf : Grows extent extent' f) (hg : Grows extent' extent'' g) :
    Grows extent extent'' fun a => (f a).bind g := by
  intro a c h
  obtain ⟨b, hb, hc⟩ := Option.bind_eq_some_iff.1 h
  exact (hf a b hb).trans (hg b c hc)

theorem Grows.foldlM {f : α → γ → Option α} (hf : ∀ c, Grows extent extent (f · c)) (xs : List γ) :
    Grows extent extent fun a => xs.foldlM f a := by
  induction xs with
  | nil =>
    rintro a _ ⟨⟩
    exact Nat.le_refl _
  | cons c xs ih =>
    simp only [List.foldlM_cons]
    exact (hf c).bind ih

/-- Exact computations one after the other are exact, if the second never leaves less than it
finds: once out of range, always out of range. -/
theorem Exact.bind {x y : Option α} {f g : α → Option β} (h : Exact extent x y)
    (hstep : ∀ a, Exact extent' (f a) (g a)) (hgrows : Grows extent extent' g) :
    Exact extent' (x.bind f) (y.bind g) := by
  rcases h with rfl | ⟨rfl, hout⟩
  · cases x with
    | none => exact .refl none
    | some a => exact hstep a
  · refine Or.inr ⟨rfl, fun b hb => ?_⟩
    obtain ⟨a, ha, hb⟩ := Option.bind_eq_some_iff.1 hb
    exact (hout a ha).trans (hgrows a b hb)

/-- What is read first may be anything, if it is the same. -/
theorem Exact.bind_right (x : Option γ) {f g : γ → Option β}
    (hstep : ∀ c, Exact extent' (f c) (g c)) : Exact extent' (x.bind f) (x.bind g) := by
  cases x with
  | none => exact .refl none
  | some c => exact hstep c

/-- A run of exact steps is exact. -/
theorem Exact.foldlM {f g : α → γ → Option α} (hstep : ∀ c a, Exact extent (f a c) (g a c))
    (hgrows : ∀ c, Grows extent extent (g · c)) (xs : List γ) (a : α) :
    Exact extent (xs.foldlM f a) (xs.foldlM g a) := by
  induction xs generalizing a with
  | nil => exact .refl (some a)
  | cons c xs ih =>
    rw [List.foldlM_cons, List.foldlM_cons]
    exact (hstep c a).bind ih (.foldlM hgrows xs)

end Exact

section With

variable (check : Nat → Option Nat)

/-- Rounding of which the result is checked. -/
def roundUpWith (value align : Nat) : Option Nat := check (roundUp value align)

/-- The end of an object, where each number is checked. -/
def placeWith (offset align size : Nat) : Option Nat := do
  let start ← roundUpWith check offset align
  check (start + size)

end With

theorem exact_placeWith (offset align size : Nat) :
    Exact id (placeWith fits? offset align size) (placeWith some offset align size) := by
  refine (exact_fits? (roundUp offset align)).bind (fun start => exact_fits? (start + size)) ?_
  rintro start _ ⟨⟩
  exact Nat.le_add_right ..

end Layout

namespace Placement

open Layout

variable (check : Nat → Option Nat)

def placeWith (s : Placement) (layout : Layout) : Option Placement := do
  let offset ← Layout.placeWith check s.offset layout.align layout.size
  return { s with offset, align := max s.align layout.align }

def finishWith (s : Placement) : Option Layout := do
  let size ← roundUpWith check (max s.offset 1) s.align
  return ⟨size, s.align⟩

end Placement

namespace Program

open Layout Placement

section With

variable (check : Nat → Option Nat) (p : Program)

def placeBaseWith (s : Placement) (base : BaseClass) : Option Placement :=
  if base.isVirtual then
    some { s with
      virtualBases :=
        if base.type ∈ s.virtualBases then s.virtualBases else s.virtualBases ++ [base.type] }
  else
    match p.completeRecord? base.type with
    | none => some s
    | some r =>
      if r.facts.empty then
        if s.offset = 0 ∧ base.type ∉ s.emptyAtZero then
          some { s with
            align := max s.align r.layout.align
            emptyAtZero := base.type :: s.emptyAtZero }
        else s.placeWith check ⟨1, r.layout.align⟩
      else s.placeWith check r.layout

def placeMemberWith (s : Placement) (t : Ty) : Option Placement := do
  let layout ← p.memberLayout t
  let next ← s.placeWith check layout
  if s.offset = 0 ∧ t ∈ s.emptyAtZero then
    let offset ← check (next.offset + layout.align)
    return { next with offset }
  else return next

def placeVirtualBaseWith (s : Placement) (t : Ty) : Option Placement :=
  match p.completeRecord? t with
  | none => some s
  | some r =>
    if r.facts.empty then some { s with align := max s.align r.layout.align }
    else s.placeWith check r.layout

/-- What the members of a union need, one over the other. -/
def overlay (members : List Ty) : Option Layout :=
  members.foldlM (fun (whole : Layout) t => do
    let layout ← p.memberLayout t
    return ⟨max whole.size layout.size, max whole.align layout.align⟩) ⟨0, 1⟩

def layOutUnionWith (members : List Ty) : Option Layout := do
  let whole ← p.overlay members
  let size ← roundUpWith check (max whole.size 1) whole.align
  return ⟨size, whole.align⟩

/-- Layout of a record, where each number that is formed is checked. -/
def layOutWith (parts : RecordParts) : Option Layout :=
  if parts.isUnion then p.layOutUnionWith check parts.members
  else do
    let s ← parts.bases.foldlM (p.placeBaseWith check) (p.startPlacement parts)
    let s ← parts.members.foldlM (p.placeMemberWith check) s
    let s ← s.virtualBases.foldlM (p.placeVirtualBaseWith check) s
    s.finishWith check

end With

variable (p : Program)

/-- With the check for words, the algorithm is the one that lays records out. -/
theorem layOutWith_fits? (parts : RecordParts) : p.layOutWith fits? parts = p.layOut parts := rfl

/-- The layout that a record would have if sizes had no limit. -/
def unboundedLayOut (parts : RecordParts) : Option Layout := p.layOutWith some parts

variable {p}

section Growth

theorem grows_placeWith (l : Layout) :
    Grows Placement.offset Placement.offset (Placement.placeWith some · l) := by
  rintro s _ ⟨⟩
  exact (le_roundUp s.offset l.align).trans (Nat.le_add_right ..)

theorem grows_placeBaseWith (base : BaseClass) :
    Grows Placement.offset Placement.offset (p.placeBaseWith some · base) := by
  intro s s' h
  dsimp only [placeBaseWith] at h
  split at h
  · cases h
    exact Nat.le_refl _
  · split at h
    · cases h
      exact Nat.le_refl _
    · split at h
      · split at h
        · cases h
          exact Nat.le_refl _
        · exact grows_placeWith _ s s' h
      · exact grows_placeWith _ s s' h

theorem grows_placeMemberWith (t : Ty) :
    Grows Placement.offset Placement.offset (p.placeMemberWith some · t) := by
  intro s s' h
  obtain ⟨l, -, h⟩ := Option.bind_eq_some_iff.1 h
  obtain ⟨next, hnext, h⟩ := Option.bind_eq_some_iff.1 h
  have hle : s.offset ≤ next.offset := grows_placeWith l s next hnext
  split at h
  · cases h
    exact hle.trans (Nat.le_add_right ..)
  · cases h
    exact hle

theorem grows_placeVirtualBaseWith (t : Ty) :
    Grows Placement.offset Placement.offset (p.placeVirtualBaseWith some · t) := by
  intro s s' h
  dsimp only [placeVirtualBaseWith] at h
  split at h
  · cases h
    exact Nat.le_refl _
  · split at h
    · cases h
      exact Nat.le_refl _
    · exact grows_placeWith _ s s' h

theorem grows_placeVirtualBasesWith : Grows Placement.offset Placement.offset
    fun s => s.virtualBases.foldlM (p.placeVirtualBaseWith some) s :=
  fun s => Grows.foldlM grows_placeVirtualBaseWith s.virtualBases s

theorem grows_finishWith : Grows Placement.offset Layout.size (Placement.finishWith some) := by
  rintro s _ ⟨⟩
  exact (Nat.le_max_left ..).trans (le_roundUp (max s.offset 1) s.align)

end Growth

section Steps

variable (s : Placement)

theorem exact_place (l : Layout) :
    Exact Placement.offset (s.placeWith fits? l) (s.placeWith some l) := by
  refine (exact_placeWith s.offset l.align l.size).bind (fun offset => .refl _) ?_
  rintro offset _ ⟨⟩
  exact Nat.le_refl _

theorem exact_placeBase (base : BaseClass) :
    Exact Placement.offset (p.placeBaseWith fits? s base) (p.placeBaseWith some s base) := by
  rw [placeBaseWith, placeBaseWith]
  split
  · exact .refl _
  · split
    · exact .refl _
    · split
      · split
        · exact .refl _
        · exact exact_place s _
      · exact exact_place s _

theorem exact_placeMember (t : Ty) :
    Exact Placement.offset (p.placeMemberWith fits? s t) (p.placeMemberWith some s t) := by
  refine .bind_right _ fun l => (exact_place s l).bind (fun next => ?_) fun next s' h => ?_
  · split
    · refine (exact_fits? (next.offset + l.align)).bind (fun offset => .refl _) ?_
      rintro offset _ ⟨⟩
      exact Nat.le_refl _
    · exact .refl _
  · split at h
    · cases h
      exact Nat.le_add_right ..
    · cases h
      exact Nat.le_refl _

theorem exact_placeVirtualBase (t : Ty) :
    Exact Placement.offset (p.placeVirtualBaseWith fits? s t)
      (p.placeVirtualBaseWith some s t) := by
  rw [placeVirtualBaseWith, placeVirtualBaseWith]
  split
  · exact .refl _
  · split
    · exact .refl _
    · exact exact_place s _

theorem exact_finish : Exact Layout.size (s.finishWith fits?) (s.finishWith some) := by
  refine (exact_fits? (roundUp (max s.offset 1) s.align)).bind (fun size => .refl _) ?_
  rintro size _ ⟨⟩
  exact Nat.le_refl _

end Steps

/-- The checked algorithm is exact, since each of its steps is and none goes back. -/
theorem exact_layOut (parts : RecordParts) :
    Exact Layout.size (p.layOut parts) (p.unboundedLayOut parts) := by
  have hvirtual : ∀ s : Placement, Exact Placement.offset
      (s.virtualBases.foldlM (p.placeVirtualBaseWith fits?) s)
      (s.virtualBases.foldlM (p.placeVirtualBaseWith some) s) := fun s =>
    .foldlM (fun t s => exact_placeVirtualBase s t) grows_placeVirtualBaseWith s.virtualBases s
  have hmembers : ∀ s : Placement, Exact Placement.offset
      (parts.members.foldlM (p.placeMemberWith fits?) s)
      (parts.members.foldlM (p.placeMemberWith some) s) :=
    .foldlM (fun t s => exact_placeMember s t) grows_placeMemberWith parts.members
  have hbases : Exact Placement.offset
      (parts.bases.foldlM (p.placeBaseWith fits?) (p.startPlacement parts))
      (parts.bases.foldlM (p.placeBaseWith some) (p.startPlacement parts)) :=
    .foldlM (fun base s => exact_placeBase s base) grows_placeBaseWith parts.bases _
  rw [← layOutWith_fits?, unboundedLayOut, layOutWith, layOutWith]
  split
  · exact .bind_right _ fun whole => exact_finish { offset := whole.size, align := whole.align }
  · -- From each stage on, what remains never leaves less than it finds.
    have hlast := grows_placeVirtualBasesWith (p := p).bind grows_finishWith
    have hlater := (Grows.foldlM (grows_placeMemberWith (p := p)) parts.members).bind hlast
    exact hbases.bind
      (fun s => (hmembers s).bind (fun s => (hvirtual s).bind exact_finish grows_finishWith) hlast)
      hlater

section Returns

/-- A run gives a result if each of its steps does. -/
theorem exists_foldlM {m : Type → Type} [Monad m] [LawfulMonad m] {α γ : Type} {f : α → γ → m α}
    {xs : List γ} (hf : ∀ c ∈ xs, ∀ a, ∃ b, f a c = pure b) (a : α) :
    ∃ b, xs.foldlM f a = pure b := by
  induction xs generalizing a with
  | nil => exact ⟨a, rfl⟩
  | cons c xs ih =>
    obtain ⟨hc, hxs⟩ := List.forall_mem_cons.1 hf
    obtain ⟨next, hnext⟩ := hc a
    obtain ⟨b, hb⟩ := ih hxs next
    exact ⟨b, by rw [List.foldlM_cons, hnext, pure_bind, hb]⟩

variable (s : Placement)

theorem exists_placeBaseWith (base : BaseClass) : ∃ s', p.placeBaseWith some s base = some s' := by
  rw [placeBaseWith]
  split
  · exact ⟨_, rfl⟩
  · split
    · exact ⟨_, rfl⟩
    · split
      · split <;> exact ⟨_, rfl⟩
      · exact ⟨_, rfl⟩

theorem exists_placeMemberWith {t : Ty} (ht : ∃ l, p.memberLayout t = some l) :
    ∃ s', p.placeMemberWith some s t = some s' := by
  obtain ⟨l, hl⟩ := ht
  rw [placeMemberWith, hl, Option.bind_eq_bind, Option.bind_some, Placement.placeWith]
  simp only [Layout.placeWith, roundUpWith, Option.bind_eq_bind, Option.bind_some, Option.pure_def]
  split <;> exact ⟨_, rfl⟩

theorem exists_placeVirtualBaseWith (t : Ty) :
    ∃ s', p.placeVirtualBaseWith some s t = some s' := by
  rw [placeVirtualBaseWith]
  split
  · exact ⟨_, rfl⟩
  · split <;> exact ⟨_, rfl⟩

end Returns

/-- Without limit, a record of which every data member has a layout has one too. -/
theorem exists_unboundedLayOut {parts : RecordParts}
    (hmembers : ∀ t ∈ parts.members, ∃ l, p.memberLayout t = some l) :
    ∃ l, p.unboundedLayOut parts = some l := by
  rw [unboundedLayOut, layOutWith]
  split
  · obtain ⟨whole, hwhole⟩ : ∃ whole, p.overlay parts.members = some whole := by
      refine exists_foldlM (fun t ht whole => ?_) _
      obtain ⟨l, hl⟩ := hmembers t ht
      exact ⟨_, by rw [hl]; rfl⟩
    rw [layOutUnionWith, hwhole]
    exact ⟨_, rfl⟩
  · obtain ⟨s₁, hbases⟩ := exists_foldlM
      (fun base _ s => exists_placeBaseWith (p := p) s base) (p.startPlacement parts)
    obtain ⟨s₂, hplaced⟩ :=
      exists_foldlM (fun t ht s => exists_placeMemberWith s (hmembers t ht)) s₁
    obtain ⟨s₃, hvirtual⟩ :
        ∃ s₃, s₂.virtualBases.foldlM (p.placeVirtualBaseWith some) s₂ = some s₃ :=
      exists_foldlM (fun t _ s => exists_placeVirtualBaseWith s t) s₂
    exact ⟨_, Option.bind_eq_some_iff.2 ⟨s₁, hbases, Option.bind_eq_some_iff.2
      ⟨s₂, hplaced, Option.bind_eq_some_iff.2 ⟨s₃, hvirtual, rfl⟩⟩⟩⟩

/-- What is laid out has data members with layouts, and a size that is in range. -/
theorem layOut_eq_some {parts : RecordParts} {layout : Layout} (h : p.layOut parts = some layout) :
    (∀ t ∈ parts.members, ∃ l, p.memberLayout t = some l) ∧
      ∃ last, layout.size = roundUp (max last 1) layout.align ∧ layout.size < limit := by
  rw [layOut] at h
  split at h
  · obtain ⟨whole, hwhole, h⟩ := Option.bind_eq_some_iff.1 h
    obtain ⟨size, hsize, h⟩ := Option.bind_eq_some_iff.1 h
    cases h
    obtain ⟨rfl, hlt⟩ := fits?_eq_some_iff.1 hsize
    refine ⟨fun t ht => ?_, whole.size, rfl, hlt⟩
    obtain ⟨_, _, hstep⟩ := exists_step_of_foldlM hwhole t ht
    obtain ⟨l, hl, -⟩ := Option.bind_eq_some_iff.1 hstep
    exact ⟨l, hl⟩
  · obtain ⟨s₁, -, h⟩ := Option.bind_eq_some_iff.1 h
    obtain ⟨s₂, hmembers, h⟩ := Option.bind_eq_some_iff.1 h
    obtain ⟨s₃, -, h⟩ := Option.bind_eq_some_iff.1 h
    obtain ⟨size, hsize, h⟩ := Option.bind_eq_some_iff.1 h
    cases h
    obtain ⟨rfl, hlt⟩ := fits?_eq_some_iff.1 hsize
    exact ⟨memberLayout_of_placeMember hmembers, s₃.offset, rfl, hlt⟩

theorem size_lt_of_layOut {parts : RecordParts} {layout : Layout}
    (h : p.layOut parts = some layout) : layout.size < limit := by
  obtain ⟨-, -, -, hlt⟩ := layOut_eq_some h
  exact hlt

theorem size_pos_of_layOut {parts : RecordParts} {layout : Layout}
    (h : p.layOut parts = some layout) : 0 < layout.size := by
  obtain ⟨-, last, hsize, -⟩ := layOut_eq_some h
  have hle := le_roundUp (max last 1) layout.align
  omega

/-- Laying out a record whose data members have layouts fails if and only if its size without limit
is out of range, and otherwise gives just that layout. -/
theorem layOut_eq_unbounded {parts : RecordParts}
    (hmembers : ∀ t ∈ parts.members, ∃ l, p.memberLayout t = some l) :
    ∃ l, p.unboundedLayOut parts = some l ∧ (p.layOut parts = none ↔ limit ≤ l.size) ∧
      (l.size < limit → p.layOut parts = some l) := by
  obtain ⟨l, hl⟩ := exists_unboundedLayOut hmembers
  refine ⟨l, hl, ?_⟩
  rcases p.exact_layOut parts with heq | ⟨hnone, hout⟩
  · rw [hl] at heq
    have hlt := size_lt_of_layOut heq
    rw [heq]
    simp only [reduceCtorEq, false_iff, Nat.not_le, implies_true, and_true]
    exact hlt
  · have hle := hout l hl
    exact ⟨by simp [hnone, hle], fun hlt => absurd hle (Nat.not_le.2 hlt)⟩

end Program

end TypeTraits
