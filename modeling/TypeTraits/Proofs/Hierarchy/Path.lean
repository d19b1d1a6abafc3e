import TypeTraits.Hierarchy

/-!
# Inheritance paths

A path from a class to one of its bases is the list of the edges that it follows. A class may name
one base more than once, and each time is an edge of its own. A path names a base subobject by the
class that its last virtual edge enters and the classes that come after, and all paths that leave a
class can be listed, the edges in declaration order and depth first.
-/

namespace TypeTraits
namespace Hierarchy

/-- One direct base of a class: the place where the class names it, and how. -/
structure Edge where
  place : Nat
  base : BaseClass
  deriving DecidableEq, Repr

variable (p : Program)

/-- The edges that leave a class, in declaration order. -/
def edges (source : Ty) : List Edge :=
  ((p.class? source).elim [] (·.bases)).zipIdx.map fun (base, place) => ⟨place, base⟩

/-- Following the edges of the path leads from one class to the other. -/
inductive Leads : Ty → List Edge → Ty → Prop
  | nil {t : Ty} : Leads t [] t
  | cons {source target : Ty} {e : Edge} {path : List Edge} :
      e ∈ edges p source → Leads e.base.type path target → Leads source (e :: path) target

/-- Where a path from `source` ends. -/
def endpoint (source : Ty) : List Edge → Ty
  | [] => source
  | e :: path => endpoint e.base.type path

/-- Whether every edge of a path is public. -/
def isPublicPath (path : List Edge) : Bool := path.all (·.base.access == .pub)

/-- The base subobject that a path names: the class that its last virtual edge enters, and the
classes that the path passes from there on. -/
def named (path : List Edge) : Option Ty × List Ty :=
  ((path.reverse.find? (·.base.isVirtual)).map (·.base.type),
    (path.reverse.takeWhile (!·.base.isVirtual)).reverse.map (·.base.type))

/-- The base subobject that a search finds at the end of a path. -/
def subobject (path : List Edge) : Subobject := path.foldl (fun s e => s.step e.base) {}

/-- The edge alone, and followed by some paths. -/
def throughEdge (e : Edge) (paths : List (List Edge)) : List (List Edge) :=
  [e] :: paths.map (e :: ·)

/-- The paths of at most `fuel` edges that leave a class, without the empty one. -/
def pathsFrom : Nat → Ty → List (List Edge)
  | 0, _ => []
  | fuel + 1, source =>
    (edges p source).flatMap fun e => throughEdge e (pathsFrom fuel e.base.type)

/-- At most `n` values have a property. -/
def AtMost {α : Type} (n : Nat) (q : α → Prop) : Prop :=
  ∀ l : List α, l.Nodup → (∀ a ∈ l, q a) → l.length ≤ n

variable {p} {source target : Ty} {path : List Edge} {fuel : Nat}

theorem edges_eq {r : Record} (h : p.class? source = some r) :
    (edges p source).map (·.base) = r.bases := by
  rw [edges, h, Option.elim_some, List.map_map]
  exact List.zipIdx_map_fst 0 r.bases

theorem edges_of_class?_eq_none (h : p.class? source = none) : edges p source = [] := by
  rw [edges, h]
  rfl

theorem mem_bases_of_mem_edges {e : Edge} (h : e ∈ edges p source) :
    ∃ r, p.class? source = some r ∧ e.base ∈ r.bases := by
  cases hr : p.class? source with
  | none =>
    rw [edges_of_class?_eq_none hr] at h
    cases h
  | some r => exact ⟨r, rfl, edges_eq hr ▸ List.mem_map_of_mem h⟩

theorem nodup_edges (source : Ty) : (edges p source).Nodup := by
  have hplaces : ((edges p source).map (·.place)).Nodup := by
    rw [edges, List.map_map]
    exact List.zipIdx_map_snd 0 _ ▸ List.nodup_range'
  exact List.Pairwise.of_map _ (fun _ _ hne heq => hne (congrArg _ heq)) hplaces

theorem Leads.endpoint_eq (h : Leads p source path target) : endpoint source path = target := by
  induction h with
  | nil => rfl
  | cons _ _ ih => exact ih

theorem leads_cons {e : Edge} :
    Leads p source (e :: path) target ↔ e ∈ edges p source ∧ Leads p e.base.type path target := by
  constructor
  · rintro (_ | ⟨he, h⟩)
    exact ⟨he, h⟩
  · rintro ⟨he, h⟩
    exact .cons he h

/-- A path that is not empty ends with an edge. -/
theorem Leads.exists_edge (h : Leads p source path target) (hne : path ≠ []) :
    ∃ cls, ∃ e ∈ edges p cls, e.base.type = target := by
  induction h with
  | nil => exact absurd rfl hne
  | @cons source _ e path he hrest ih =>
    cases path with
    | nil =>
      cases hrest
      exact ⟨source, e, he, rfl⟩
    | cons _ _ => exact ih (by simp)

theorem length_throughEdge (e : Edge) (paths : List (List Edge)) :
    (throughEdge e paths).length = paths.length + 1 := by
  simp [throughEdge]

theorem mem_pathsFrom :
    path ∈ pathsFrom p fuel source ↔
      path ≠ [] ∧ path.length ≤ fuel ∧ Leads p source path (endpoint source path) := by
  induction fuel generalizing source path with
  | zero =>
    simp only [pathsFrom, List.not_mem_nil, false_iff, not_and]
    intro hne hlength
    exact absurd (List.eq_nil_of_length_eq_zero (Nat.le_zero.mp hlength)) hne
  | succ fuel ih =>
    simp only [pathsFrom, throughEdge, List.mem_flatMap, List.mem_cons, List.mem_map, ih]
    constructor
    · rintro ⟨e, he, rfl | ⟨rest, ⟨_, hlength, hrest⟩, rfl⟩⟩
      · exact ⟨by simp, by simp, .cons he .nil⟩
      · exact ⟨by simp, by simpa using hlength, .cons he hrest⟩
    · rintro ⟨hne, hlength, h⟩
      cases path with
      | nil => exact absurd rfl hne
      | cons e rest =>
        obtain ⟨he, hrest⟩ := leads_cons.mp h
        refine ⟨e, he, ?_⟩
        cases rest with
        | nil => exact Or.inl rfl
        | cons e' rest => exact Or.inr ⟨_, ⟨by simp, by simpa using hlength, hrest⟩, rfl⟩

/-- Where no path has more than `fuel` edges, all of them are listed. -/
theorem atMost_length_pathsFrom
    (hlength : ∀ path target, Leads p source path target → path.length ≤ fuel) :
    AtMost (pathsFrom p fuel source).length fun path =>
      path ≠ [] ∧ ∃ target, Leads p source path target := by
  intro l hnodup hl
  refine hnodup.length_le_of_subset fun path hpath => ?_
  obtain ⟨hne, target, hleads⟩ := hl path hpath
  exact mem_pathsFrom.mpr ⟨hne, hlength path target hleads, hleads.endpoint_eq.symm ▸ hleads⟩

theorem nodup_pathsFrom (fuel : Nat) (source : Ty) : (pathsFrom p fuel source).Nodup := by
  induction fuel generalizing source with
  | zero => exact List.nodup_nil
  | succ fuel ih =>
    refine List.pairwise_flatMap.mpr ⟨?_, ?_⟩
    · intro e _
      refine List.nodup_cons.mpr ⟨?_, ?_⟩
      · intro h
        obtain ⟨rest, hrest, heq⟩ := List.mem_map.mp h
        exact (mem_pathsFrom.mp hrest).1 (List.tail_eq_of_cons_eq heq)
      · exact List.Pairwise.map _ (fun _ _ hne heq => hne (List.tail_eq_of_cons_eq heq))
          (ih e.base.type)
    · refine (nodup_edges source).imp ?_
      intro e e' hne x hx y hy heq
      -- Paths through different edges differ in the first one.
      have hfirst : ∀ {e : Edge} {x : List Edge},
          x ∈ throughEdge e (pathsFrom p fuel e.base.type) → x.head? = some e := by
        intro e x hx
        rcases List.mem_cons.mp hx with rfl | hx
        · rfl
        · obtain ⟨rest, _, rfl⟩ := List.mem_map.mp hx
          rfl
      have hsame := (hfirst hx).symm.trans (heq ▸ hfirst hy)
      exact hne (Option.some.inj hsame)

theorem subobject_reverse (path : List Edge) :
    subobject path.reverse =
      ⟨(path.find? (·.base.isVirtual)).map (·.base.type),
        (path.takeWhile (!·.base.isVirtual)).map (·.base.type)⟩ := by
  induction path with
  | nil => rfl
  | cons e path ih =>
    rw [subobject] at ih ⊢
    rw [List.reverse_cons, List.foldl_append, ih]
    cases hvirtual : e.base.isVirtual <;> simp [Subobject.step, hvirtual]

/-- A search tells subobjects apart exactly as paths name them. -/
theorem subobject_eq_iff {x y : List Edge} : subobject x = subobject y ↔ named x = named y := by
  have hx := subobject_reverse x.reverse
  have hy := subobject_reverse y.reverse
  rw [List.reverse_reverse] at hx hy
  rw [hx, hy, named, named, Subobject.mk.injEq, Prod.mk.injEq, List.map_reverse, List.map_reverse,
    List.reverse_inj]

end Hierarchy
end TypeTraits
