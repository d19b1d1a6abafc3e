import Mathlib.Data.List.Perm.Basic
import TypeTraits.Proofs.Hierarchy.Congruence
import TypeTraits.Proofs.Hierarchy.Reachability

/-!
# Direct bases in another order

A walk over base classes meets the direct bases of a class in declaration order, and a conversion
between classes does not depend on it. What a path tells it tells by the bases that it passes, and
classes that name the same bases in another order have the same paths, up to the places where the
bases are named. So within the limits of the walks they convert to their bases alike, and only the
list of all bases comes out in another order.
-/

namespace TypeTraits
namespace Hierarchy

/-- The bases that a path passes, whatever the places where classes name them. -/
def route (path : List Edge) : List BaseClass := path.map (·.base)

@[simp] theorem route_nil : route [] = [] := rfl

@[simp] theorem route_cons (e : Edge) (path : List Edge) :
    route (e :: path) = e.base :: route path := rfl

/-! ### What a path tells by its route -/

section Routes

variable (path : List Edge)

theorem endpoint_eq_route (source : Ty) :
    endpoint source path = ((route path).map (·.type)).getLastD source := by
  induction path generalizing source with
  | nil => rfl
  | cons e path ih => rw [endpoint, ih, route_cons, List.map_cons, List.getLastD_cons]

theorem subobject_eq_route : subobject path = (route path).foldl (·.step ·) {} := by
  rw [subobject, route, List.foldl_map]

theorem isPublicPath_eq_route : isPublicPath path = (route path).all (·.access == .pub) := by
  rw [isPublicPath, route, List.all_map]
  rfl

theorem any_isVirtual_eq_route :
    (path.any fun e => e.base.isVirtual) = (route path).any (·.isVirtual) := by
  rw [route, List.any_map]
  rfl

@[simp] theorem length_route : (route path).length = path.length := List.length_map _

end Routes

/-- Every class names the same direct bases, in one order or another. -/
def SameBases (p q : Program) : Prop :=
  ∀ source, ((edges p source).map (·.base)).Perm ((edges q source).map (·.base))

namespace SameBases

variable {p q : Program} {source : Ty}

theorem symm (h : SameBases p q) : SameBases q p := fun source => (h source).symm

/-- The same routes leave a class. -/
theorem routes (h : SameBases p q) (fuel : Nat) (source : Ty) :
    ((pathsFrom p fuel source).map route).Perm ((pathsFrom q fuel source).map route) := by
  have hthrough (p : Program) (fuel : Nat) (source : Ty) :
      (pathsFrom p (fuel + 1) source).map route = ((edges p source).map (·.base)).flatMap
        fun base => [base] :: ((pathsFrom p fuel base.type).map route).map (base :: ·) := by
    rw [pathsFrom, List.map_flatMap, List.flatMap_map]
    simp [throughEdge, Function.comp_def]
  induction fuel generalizing source with
  | zero => exact .refl _
  | succ fuel ih =>
    rw [hthrough, hthrough]
    exact (h source).flatMap fun base _ => ((ih base.type).map _).cons _

/-- A path has a counterpart on the same route. -/
theorem counterpart (h : SameBases p q) {fuel : Nat} {path : List Edge}
    (hpath : path ∈ pathsFrom p fuel source) :
    ∃ other ∈ pathsFrom q fuel source, route other = route path :=
  List.mem_map.mp ((h.routes fuel source).mem_iff.mp (List.mem_map_of_mem hpath))

theorem leads (h : SameBases p q) {path : List Edge} {target : Ty}
    (hpath : Leads p source path target) :
    ∃ other, Leads q source other target ∧ route other = route path := by
  induction hpath with
  | nil => exact ⟨[], .nil, rfl⟩
  | @cons source _ e path he _ ih =>
    obtain ⟨other, hother, hroute⟩ := ih
    have hbase := (h source).mem_iff.mp (List.mem_map_of_mem he)
    obtain ⟨e', he', hsame⟩ := List.mem_map.mp hbase
    exact ⟨e' :: other, .cons he' (hsame ▸ hother), by rw [route_cons, route_cons, hsame, hroute]⟩

theorem ranked (h : SameBases p q) {rank : Ty → Nat} (hranked : Ranked p rank) :
    Ranked q rank := by
  intro source e he
  have hbase := (h source).mem_iff.mpr (List.mem_map_of_mem he)
  obtain ⟨e', he', hsame⟩ := List.mem_map.mp hbase
  exact hsame ▸ hranked source e' he'

end SameBases

/-! ### What the walks find -/

/-- The walks over base classes follow every path from every class. -/
def WalksWithinLimits (p : Program) : Prop := ∀ id, WithinLimits p (.record id)

theorem edges_congr {p : Program} {s t : Ty} (h : s.recordId? = t.recordId?) :
    edges p s = edges p t := by
  simp only [edges, Program.class?, Program.completeRecord?, Program.recordOf?, h]

theorem Leads.of_edges {p : Program} {s t target : Ty} (h : edges p s = edges p t)
    {path : List Edge} (hne : path ≠ []) (hpath : Leads p s path target) :
    Leads p t path target := by
  cases hpath with
  | nil => exact absurd rfl hne
  | cons he hrest => exact .cons (h ▸ he) hrest

theorem Leads.eq_nil {p : Program} {t target : Ty} {path : List Edge}
    (hpath : Leads p t path target) (h : edges p t = []) : path = [] := by
  cases hpath with
  | nil => rfl
  | cons he _ => simp [h] at he

theorem WithinLimits.of_edges_eq_nil {p : Program} {t : Ty} (h : edges p t = []) :
    WithinLimits p t := by
  constructor
  · intro path target hpath
    simp [hpath.eq_nil h]
  · intro l _ hl
    cases l with
    | nil => exact Nat.zero_le _
    | cons path l =>
      obtain ⟨hne, target, hleads⟩ := hl path List.mem_cons_self
      exact absurd (hleads.eq_nil h) hne

namespace WalksWithinLimits

variable {p q : Program}

/-- A type that is no record has no bases, and a qualified record has those of the record. -/
theorem withinLimits (h : WalksWithinLimits p) (t : Ty) : WithinLimits p t := by
  have hother : ∃ id, edges p t = edges p (.record id) ∨ edges p t = [] := by
    cases hid : t.recordId? with
    | some id => exact ⟨id, Or.inl (edges_congr hid)⟩
    | none =>
      refine ⟨⟨0⟩, Or.inr (edges_of_class?_eq_none ?_)⟩
      simp [Program.class?, Program.completeRecord?, Program.recordOf?, hid]
  obtain ⟨id, hedges | hnone⟩ := hother
  · constructor
    · intro path target hpath
      cases path with
      | nil => exact Nat.zero_le _
      | cons e path => exact (h id).length _ _ (hpath.of_edges hedges (by simp))
    · intro l hnodup hl
      apply (h id).paths l hnodup
      intro path hpath
      obtain ⟨hne, target, hleads⟩ := hl path hpath
      exact ⟨hne, target, hleads.of_edges hedges hne⟩
  · exact .of_edges_eq_nil hnone

/-- The list of all bases has the ends of the paths in the order in which they are met. -/
theorem allBases_eq (h : WalksWithinLimits p) (hranked : ∃ rank, Ranked p rank) (t : Ty) :
    p.allBases t = (pathsFrom p Limits.hierarchyDepth t.unqualified).foldl
      (collectEnd t.unqualified) [] := by
  obtain ⟨rank, hranked⟩ := hranked
  have hlimits := h.withinLimits t.unqualified
  exact congrArg Prod.fst (collect_eq hranked hlimits.room hlimits.length_pathsFrom_le [])

/-- As many paths leave each class, and they are as long. -/
theorem of_sameBases (h : WalksWithinLimits p) (hbases : SameBases p q) : WalksWithinLimits q := by
  intro id
  have hlength : ∀ path target, Leads q (.record id) path target →
      path.length ≤ Limits.hierarchyDepth := by
    intro path target hpath
    obtain ⟨other, hother, hroute⟩ := hbases.symm.leads hpath
    rw [← length_route, ← hroute, length_route]
    exact (h id).length other target hother
  refine ⟨hlength, fun l hnodup hl => ?_⟩
  have hlisted : l ⊆ pathsFrom q Limits.hierarchyDepth (.record id) := by
    intro path hpath
    obtain ⟨hne, target, hleads⟩ := hl path hpath
    exact mem_pathsFrom.mpr ⟨hne, hlength path target hleads, hleads.endpoint_eq.symm ▸ hleads⟩
  have hcount := (hbases.routes Limits.hierarchyDepth (.record id)).length_eq
  rw [List.length_map, List.length_map] at hcount
  have hfew := (h id).length_pathsFrom_le
  have hfresh : (Guard.fresh .hierarchy : Guard Ty).iterations = 0 := rfl
  have hle := (List.subperm_of_subset hnodup hlisted).length_le
  omega

end WalksWithinLimits

/-- Searches that have recorded the same routes allow the same conversion. -/
theorem Summarizes.conversion_eq {search search' : Search} {paths paths' : List (List Edge)}
    (h : Summarizes search paths) (h' : Summarizes search' paths')
    (hroutes : (paths.map route).Perm (paths'.map route)) :
    search'.conversion = search.conversion := by
  have hlengths : (paths.map List.length).Perm (paths'.map List.length) := by
    have hlength := hroutes.map List.length
    simpa only [List.map_map, Function.comp_def, length_route] using hlength
  -- Each path of one search has a counterpart on the same route in the other.
  have hforth : ∀ x ∈ paths, ∃ y ∈ paths', route y = route x := fun x hx =>
    List.mem_map.mp (hroutes.mem_iff.mp (List.mem_map_of_mem hx))
  have hback : ∀ y ∈ paths', ∃ x ∈ paths, route x = route y := fun y hy =>
    List.mem_map.mp (hroutes.mem_iff.mpr (List.mem_map_of_mem hy))
  have hseveral : search'.several = search.several := by
    rw [Bool.eq_iff_iff, h.several, h'.several]
    simp only [subobject_eq_route]
    constructor
    · rintro ⟨x, hx, y, hy, hne⟩
      obtain ⟨x', hx', hsame⟩ := hback x hx
      obtain ⟨y', hy', hsame'⟩ := hback y hy
      exact ⟨x', hx', y', hy', by rwa [hsame, hsame']⟩
    · rintro ⟨x, hx, y, hy, hne⟩
      obtain ⟨x', hx', hsame⟩ := hforth x hx
      obtain ⟨y', hy', hsame'⟩ := hforth y hy
      exact ⟨x', hx', y', hy', by rwa [hsame, hsame']⟩
  have haccessible : search'.accessible = search.accessible := by
    rw [Bool.eq_iff_iff, h.accessible, h'.accessible]
    simp only [isPublicPath_eq_route]
    constructor
    · rintro ⟨x, hx, hpublic⟩
      obtain ⟨x', hx', hsame⟩ := hback x hx
      exact ⟨x', hx', hsame ▸ hpublic⟩
    · rintro ⟨x, hx, hpublic⟩
      obtain ⟨x', hx', hsame⟩ := hforth x hx
      exact ⟨x', hx', hsame ▸ hpublic⟩
  have hshortest : search'.shortest = search.shortest := by
    rw [h.shortest, h'.shortest]
    apply Option.ext
    intro n
    simp only [List.min?_eq_some_iff, hlengths.mem_iff]
  rw [Search.conversion, Search.conversion, hseveral, haccessible, hshortest]

end Hierarchy

namespace Program

open Hierarchy

/-- Programs whose classes name the same direct bases in one order or another, for one target and
with the same enumerations, that rank their classes and stay within the limits of the walks. -/
structure Rebased (p q : Program) : Prop where
  target : q.target = p.target
  enums : q.enums = p.enums
  isClassId : ∀ id, q.isClassId id = p.isClassId id
  bases : SameBases p q
  ranked : ∃ rank, Ranked p rank
  walks : WalksWithinLimits p

namespace Rebased

variable {p q : Program} (h : p.Rebased q)

include h

theorem ranked' : ∃ rank, Ranked q rank := by
  obtain ⟨rank, hranked⟩ := h.ranked
  exact ⟨rank, h.bases.ranked hranked⟩

theorem walks' : WalksWithinLimits q := h.walks.of_sameBases h.bases

theorem any_pathsFrom (found : List BaseClass → Bool) (fuel : Nat) (source : Ty) :
    ((pathsFrom q fuel source).any fun path => found (route path)) =
      (pathsFrom p fuel source).any fun path => found (route path) := by
  have hany := (h.bases.routes fuel source).symm.any_eq (f := found)
  simpa only [List.any_map, Function.comp_def] using hany

theorem isBaseOf : q.isBaseOf = p.isBaseOf := by
  obtain ⟨rank, hranked⟩ := h.ranked
  obtain ⟨rank', hranked'⟩ := h.ranked'
  have hreaches : ∀ target source,
      (reaches q target Limits.hierarchyDepth source).result =
        (reaches p target Limits.hierarchyDepth source).result := by
    intro target source
    have hlimits := h.walks.withinLimits source
    have hlimits' := h.walks'.withinLimits source
    obtain ⟨_, _, heq⟩ :=
      @reaches_eq _ _ _ _ target _ hranked hlimits.room hlimits.length_pathsFrom_le
    obtain ⟨_, _, heq'⟩ :=
      @reaches_eq _ _ _ _ target _ hranked' hlimits'.room hlimits'.length_pathsFrom_le
    rw [Walk.result, Walk.result, heq, heq']
    simp only [endpoint_eq_route]
    exact h.any_pathsFrom (fun r => (r.map (·.type)).getLastD source == target) _ _
  funext base derived
  simp only [Program.isBaseOf, h.isClassId, hreaches]

theorem isVirtualBaseOf : q.isVirtualBaseOf = p.isVirtualBaseOf := by
  obtain ⟨rank, hranked⟩ := h.ranked
  obtain ⟨rank', hranked'⟩ := h.ranked'
  have hreaches : ∀ target source,
      (reachesVirtually q target Limits.hierarchyDepth source false).result =
        (reachesVirtually p target Limits.hierarchyDepth source false).result := by
    intro target source
    have hlimits := h.walks.withinLimits source
    have hlimits' := h.walks'.withinLimits source
    obtain ⟨_, _, heq⟩ :=
      @reachesVirtually_eq _ _ _ _ target _ false hranked hlimits.room hlimits.length_pathsFrom_le
    obtain ⟨_, _, heq'⟩ := @reachesVirtually_eq _ _ _ _ target _ false hranked' hlimits'.room
      hlimits'.length_pathsFrom_le
    rw [Walk.result, Walk.result, heq, heq']
    unfold endsVirtually
    simp only [endpoint_eq_route, any_isVirtual_eq_route]
    exact h.any_pathsFrom (fun r =>
      (r.map (·.type)).getLastD source == target && (false || r.any (·.isVirtual))) _ _
  funext base derived
  simp only [Program.isVirtualBaseOf, h.isBaseOf, hreaches]

theorem baseConversion : q.baseConversion = p.baseConversion := by
  obtain ⟨rank, hranked⟩ := h.ranked
  obtain ⟨rank', hranked'⟩ := h.ranked'
  have hsearch : ∀ target source,
      (searchPaths q target Limits.hierarchyDepth source {} true {}).result.conversion =
        (searchPaths p target Limits.hierarchyDepth source {} true {}).result.conversion := by
    intro target source
    have hlimits := h.walks.withinLimits source
    have hlimits' := h.walks'.withinLimits source
    rw [Walk.result, Walk.result, searchPaths_eq hranked hlimits.room hlimits.length_pathsFrom_le,
      searchPaths_eq hranked' hlimits'.room hlimits'.length_pathsFrom_le]
    change ((pathsFrom q _ source).foldl (follow target source {} true 0) {}).conversion =
      ((pathsFrom p _ source).foldl (follow target source {} true 0) {}).conversion
    rw [foldl_follow, foldl_follow]
    refine (summarizes_nil.foldl_reach _).conversion_eq (summarizes_nil.foldl_reach _) ?_
    have hfiltered := (h.bases.routes Limits.hierarchyDepth source).filter
      fun r => (r.map (·.type)).getLastD source == target
    simpa only [List.filter_map, Function.comp_def, List.nil_append, endpoint_eq_route]
      using hfiltered
  funext derived base
  simp only [Program.baseConversion, h.isBaseOf, hsearch]

theorem sameBaseConversions : p.SameBaseConversions q :=
  ⟨h.target, h.enums, h.isBaseOf, h.baseConversion⟩

/-- All bases of a class, in one order or another. -/
theorem allBases (t : Ty) : (p.allBases t).Perm (q.allBases t) := by
  rw [h.walks.allBases_eq h.ranked, h.walks'.allBases_eq h.ranked']
  refine (List.perm_ext_iff_of_nodup (nodup_foldl_collectEnd List.nodup_nil)
    (nodup_foldl_collectEnd List.nodup_nil)).mpr fun u => ?_
  simp only [mem_foldl_collectEnd, endpoint_eq_route]
  refine or_congr_right ⟨?_, ?_⟩
  · rintro ⟨path, hpath, hend⟩
    obtain ⟨other, hother, hroute⟩ := h.bases.counterpart hpath
    exact ⟨other, hother, hroute ▸ hend⟩
  · rintro ⟨path, hpath, hend⟩
    obtain ⟨other, hother, hroute⟩ := h.bases.symm.counterpart hpath
    exact ⟨other, hother, hroute ▸ hend⟩

end Rebased
end Program
end TypeTraits
