import Mathlib.Data.List.Count
import TypeTraits.Record.Completion

/-!
# The base subobjects of a record

Special members are defined from a list of base subobjects that is put together base by base. A
non-virtual base comes once for each time it is named. A virtual base, and a base of a base that
passes for a virtual one, comes once at most, whichever base it is met through.
-/

namespace TypeTraits
namespace Program

/-- From one state of the list to another `n t` copies of each type have come anyhow, and the types
with a property once, unless they had been seen. A state is what was seen and what has come. -/
structure Adds (s s' : List Ty × List Ty) (n : Ty → Nat) (q : Ty → Prop) : Prop where
  seen : ∀ t, t ∈ s'.1 ↔ t ∈ s.1 ∨ q t
  out : ∀ t, (t ∈ s.1 ∨ ¬q t → s'.2.count t = s.2.count t + n t) ∧
    (t ∉ s.1 → q t → s'.2.count t = s.2.count t + n t + 1)

namespace Adds

variable {s s' s'' : List Ty × List Ty} {n n' : Ty → Nat} {q q' : Ty → Prop}

theorem refl (s : List Ty × List Ty) : Adds s s (fun _ => 0) fun _ => False :=
  ⟨by simp, by simp⟩

theorem trans (h : Adds s s' n q) (h' : Adds s' s'' n' q') :
    Adds s s'' (fun t => n t + n' t) fun t => q t ∨ q' t where
  seen t := by rw [h'.seen, h.seen, or_assoc]
  out t := by
    obtain ⟨hold, hnew⟩ := h.out t
    obtain ⟨hold', hnew'⟩ := h'.out t
    have hseen := h.seen t
    by_cases hs : t ∈ s.1 <;> by_cases hq : q t <;> by_cases hq' : q' t <;>
      simp_all <;> omega

theorem congr (h : Adds s s' n q) (hn : ∀ t, n' t = n t) (hq : ∀ t, q' t ↔ q t) :
    Adds s s' n' q' := by
  have hn : n' = n := funext hn
  have hq : q' = q := funext fun t => propext (hq t)
  rwa [hn, hq]

/-- A type that comes once, unless it had been seen. -/
theorem once (s : List Ty × List Ty) (t : Ty) :
    Adds s (if t ∈ s.1 then s else (t :: s.1, t :: s.2)) (fun _ => 0) fun u => t = u := by
  split
  · rename_i hmem
    refine ⟨fun u => ⟨Or.inl, ?_⟩, fun u => ⟨by simp, ?_⟩⟩
    · rintro (h | rfl)
      · exact h
      · exact hmem
    · rintro h rfl
      exact absurd hmem h
  · rename_i hmem
    refine ⟨fun u => ?_, fun u => ⟨?_, ?_⟩⟩
    · simp only [List.mem_cons, or_comm, eq_comm]
    · intro h
      have hne : t ≠ u := by
        rintro rfl
        exact h.elim hmem (· rfl)
      simp [hne]
    · rintro _ rfl
      simp

end Adds

variable (p : Program)

/-- A type is met through a base: it is the base, which is virtual, or it passes for a virtual base
of the base. -/
def MetThrough (base : BaseClass) (t : Ty) : Prop :=
  (base.isVirtual = true ∧ base.type = t) ∨
    (t ∈ p.allBases base.type ∧ p.isVirtualBaseOf t base.type = true)

/-- The virtual bases of one base are added as they are met. -/
theorem adds_virtualBases (base : Ty) (ts : List Ty) (s : List Ty × List Ty) :
    Adds s (ts.foldl (fun (seen, out) t =>
        if p.isVirtualBaseOf t base && t ∉ seen then (t :: seen, t :: out) else (seen, out)) s)
      (fun _ => 0) fun t => t ∈ ts ∧ p.isVirtualBaseOf t base = true := by
  induction ts generalizing s with
  | nil => exact (Adds.refl s).congr (fun _ => rfl) (by simp)
  | cons t ts ih =>
    obtain ⟨seen, out⟩ := s
    rw [List.foldl_cons]
    cases hvirtual : p.isVirtualBaseOf t base with
    | false =>
      refine (ih (seen, out)).congr (fun _ => rfl) fun u => ?_
      simp only [List.mem_cons]
      constructor
      · rintro ⟨rfl | hu, h⟩
        · simp [hvirtual] at h
        · exact ⟨hu, h⟩
      · exact fun ⟨hu, h⟩ => ⟨Or.inr hu, h⟩
    | true =>
      have hfirst := Adds.once (seen, out) t
      have hstep : (if t ∈ seen then (seen, out) else (t :: seen, t :: out)) =
          if true && decide (t ∉ seen) then (t :: seen, t :: out) else (seen, out) := by
        by_cases hmem : t ∈ seen <;> simp [hmem]
      rw [hstep] at hfirst
      refine (hfirst.trans (ih _)).congr (fun _ => rfl) fun u => ?_
      simp only [List.mem_cons]
      constructor
      · rintro ⟨rfl | hu, h⟩
        · exact Or.inl rfl
        · exact Or.inr ⟨hu, h⟩
      · rintro (rfl | ⟨hu, h⟩)
        · exact ⟨Or.inl rfl, hvirtual⟩
        · exact ⟨Or.inr hu, h⟩

/-- Each base is added, once for each time it is named if it is not virtual, and then what is met
through it. -/
theorem adds_bases (bases : List BaseClass) (s : List Ty × List Ty) :
    Adds s (bases.foldl (fun (seen, out) base =>
        let (seen, out) :=
          if !base.isVirtual then (seen, base.type :: out)
          else if base.type ∈ seen then (seen, out)
          else (base.type :: seen, base.type :: out)
        (p.allBases base.type).foldl (fun (seen, out) t =>
          if p.isVirtualBaseOf t base.type && t ∉ seen then (t :: seen, t :: out) else (seen, out))
          (seen, out)) s)
      (fun t => bases.countP fun base => !base.isVirtual && base.type == t)
      fun t => ∃ base ∈ bases, p.MetThrough base t := by
  induction bases generalizing s with
  | nil => exact (Adds.refl s).congr (by simp) (by simp)
  | cons base rest ih =>
    obtain ⟨seen, out⟩ := s
    rw [List.foldl_cons]
    cases hvirtual : base.isVirtual with
    | false =>
      have hfirst : Adds (seen, out) (seen, base.type :: out)
          (fun t => if base.type = t then 1 else 0) fun _ => False :=
        ⟨by simp, fun t => ⟨fun _ => by simp [List.count_cons], by simp⟩⟩
      refine ((hfirst.trans (p.adds_virtualBases base.type _ _)).trans (ih _)).congr ?_ ?_
      · intro t
        simp [List.countP_cons, hvirtual, Nat.add_comm]
      · intro t
        simp [MetThrough, hvirtual]
    | true =>
      have hfirst := Adds.once (seen, out) base.type
      refine ((hfirst.trans (p.adds_virtualBases base.type _ _)).trans (ih _)).congr ?_ ?_
      · intro t
        simp [hvirtual]
      · intro t
        simp [MetThrough, hvirtual]

/-- The types come as often as bases that are not virtual name them, and once more if they are
shared. -/
def CountedAs (objects : List Ty) (bases : List BaseClass) (shared : Ty → Prop) : Prop :=
  ∀ t, (shared t → objects.count t =
      bases.countP (fun base => !base.isVirtual && base.type == t) + 1) ∧
    (¬shared t → objects.count t = bases.countP fun base => !base.isVirtual && base.type == t)

theorem CountedAs.iff {objects : List Ty} {bases : List BaseClass} {shared shared' : Ty → Prop}
    (h : CountedAs objects bases shared) :
    CountedAs objects bases shared' ↔ ∀ t, shared t ↔ shared' t := by
  constructor
  · intro h' t
    obtain ⟨hshared, hnot⟩ := h t
    obtain ⟨hshared', hnot'⟩ := h' t
    by_cases hs : shared t <;> by_cases hs' : shared' t <;> simp_all
  · intro hiff
    have heq : shared = shared' := funext fun t => propext (hiff t)
    exact heq ▸ h

/-- Each type comes once for each base that names it and is not virtual, and once more if it is met
through some base. -/
theorem countedAs_baseObjects (r : Record) :
    CountedAs (p.baseObjects r) r.bases fun t => ∃ base ∈ r.bases, p.MetThrough base t := by
  intro t
  obtain ⟨hunmet, hmet⟩ := (p.adds_bases r.bases ([], [])).out t
  rw [baseObjects, List.count_reverse]
  constructor
  · intro h
    simpa using hmet (by simp) h
  · intro h
    simpa using hunmet (Or.inr h)

theorem mem_baseObjects {r : Record} {base : BaseClass} (h : base ∈ r.bases) :
    base.type ∈ p.baseObjects r := by
  obtain ⟨hmet, hunmet⟩ := p.countedAs_baseObjects r base.type
  rw [← List.count_pos_iff]
  by_cases hshared : ∃ b ∈ r.bases, p.MetThrough b base.type
  · have hcount := hmet hshared
    omega
  · have hvirtual : base.isVirtual = false := by
      by_contra hvirtual
      exact hshared ⟨base, h, Or.inl ⟨by simpa using hvirtual, rfl⟩⟩
    have hpos : 0 < r.bases.countP fun b => !b.isVirtual && b.type == base.type :=
      List.countP_pos_iff.mpr ⟨base, h, by simp [hvirtual]⟩
    have hcount := hunmet hshared
    omega

/-- The base subobjects are those that a special member sees as bases. -/
theorem memberObjects_filter_isBase (r : Record) :
    ((p.memberObjects r).filter (·.isBase)).map (·.type) = p.baseObjects r := by
  have hbases : ∀ ts : List Ty,
      (ts.map fun type => ({ type, isBase := true } : MemberObject)).filter (·.isBase) =
        ts.map fun type => { type, isBase := true } := by
    intro ts
    exact List.filter_eq_self.mpr (by simp)
  have hmembers : (r.members.map memberObject).filter (·.isBase) = [] :=
    List.filter_eq_nil_iff.mpr (by simp [memberObject])
  rw [memberObjects, List.filter_append, hbases, hmembers, List.append_nil, List.map_map]
  exact List.map_id _

end Program
end TypeTraits
