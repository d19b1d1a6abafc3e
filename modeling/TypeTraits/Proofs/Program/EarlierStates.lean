import TypeTraits.Proofs.Expr.Hiding
import TypeTraits.Proofs.Hierarchy.BaseOrder

/-!
# Walks and hiding in earlier states of a program

The bases of a complete class were complete before it, so a complete class has the same paths to its
bases, and offers the same conversion functions, in all later states of the program. What holds of
all walks over base classes, or of all hidden functions, in a later state held before.
-/

namespace TypeTraits
namespace Development

open Hierarchy

variable {d e : Development} {source t : Ty}

theorem edges_eq_of_extends (hext : d.program.Extends e.program)
    (hsource : (d.program.completeRecord? source).isSome = true) :
    edges e.program source = edges d.program source := by
  obtain ⟨r, hr⟩ := Option.isSome_iff_exists.mp hsource
  rw [edges, edges, Program.class?, Program.class?, hr, hext.completeRecord? hr]

theorem completeRecord?_isSome_of_class? {p : Program}
    (h : (p.class? source).isSome = true) : (p.completeRecord? source).isSome = true := by
  obtain ⟨r, hr⟩ := Option.isSome_iff_exists.mp h
  exact Option.isSome_of_eq_some (Option.filter_eq_some_iff.mp hr).1

variable (h : d.Valid) (hext : d.program.Extends e.program)

include h hext

theorem Valid.leads_iff_of_complete
    (hsource : (d.program.completeRecord? source).isSome = true) {path : List Edge} :
    Leads e.program source path t ↔ Leads d.program source path t := by
  cases path with
  | nil => exact ⟨fun | .nil => .nil, fun | .nil => .nil⟩
  | cons edge path =>
    rw [leads_cons, leads_cons, edges_eq_of_extends hext hsource]
    apply and_congr_right
    intro hedge
    obtain ⟨id, htype, hclass⟩ := h.class?_of_mem_edges hedge
    exact h.leads_iff hext (htype ▸ hclass)

theorem Valid.pathsFrom_eq (hsource : (d.program.completeRecord? source).isSome = true)
    (fuel : Nat) : pathsFrom e.program fuel source = pathsFrom d.program fuel source := by
  induction fuel generalizing source with
  | zero => rfl
  | succ fuel ih =>
    rw [pathsFrom, pathsFrom, edges_eq_of_extends hext hsource]
    apply List.flatMap_congr
    intro edge hedge
    obtain ⟨id, htype, hclass⟩ := h.class?_of_mem_edges hedge
    rw [ih (completeRecord?_isSome_of_class? (htype ▸ hclass))]

theorem Valid.walksWithinLimits (hlimits : WalksWithinLimits e.program) :
    WalksWithinLimits d.program := by
  intro id
  cases hclass : d.program.class? (.record id) with
  | none => exact .of_edges_eq_nil (edges_of_class?_eq_none hclass)
  | some r => exact h.withinLimits hext (Option.isSome_of_eq_some hclass) (hlimits id)

theorem Valid.withinLimits_later (hsource : (d.program.completeRecord? source).isSome = true)
    (hlimits : WithinLimits d.program source) : WithinLimits e.program source := by
  have hleads := fun path target => @Valid.leads_iff_of_complete d e source target h hext hsource path
  constructor
  · intro path target hpath
    exact hlimits.length path target ((hleads path target).mp hpath)
  · intro l hnodup hl
    apply hlimits.paths l hnodup
    intro path hpath
    obtain ⟨hne, target, hleads'⟩ := hl path hpath
    exact ⟨hne, target, (hleads path target).mp hleads'⟩

variable (he : e.Valid) (hlimits : WalksWithinLimits d.program)

include he hlimits

theorem Valid.allBases_eq {id : RecordId}
    (hcomplete : (d.program.completeRecord? (.record id)).isSome = true) :
    e.program.allBases (.record id) = d.program.allBases (.record id) := by
  have hlimits' := h.withinLimits_later hext hcomplete (hlimits id)
  rw [hlimits.allBases_eq ⟨_, h.ranked⟩]
  refine (congrArg Prod.fst (collect_eq he.ranked hlimits'.room hlimits'.length_pathsFrom_le
    [])).trans ?_
  exact congrArg (List.foldl _ _) (h.pathsFrom_eq hext hcomplete _)

theorem Valid.offered_eq (hsource : (d.program.completeRecord? t).isSome = true) (mode : InitMode) :
    e.program.offered t mode = d.program.offered t mode := by
  obtain ⟨r, hr⟩ := Option.isSome_iff_exists.mp hsource
  obtain ⟨id, hid, hrecord, hc⟩ := Program.completeRecord?_eq_some.mp hr
  have hcomplete : (d.program.completeRecord? (.record id)).isSome = true :=
    Option.isSome_of_eq_some (Program.completeRecord?_eq_some.mpr ⟨id, rfl, hrecord, hc⟩)
  rw [Program.offered_eq, Program.offered_eq, hr, hext.completeRecord? hr, Option.elim_some,
    Option.elim_some, Ty.unqualified_of_recordId? hid, h.allBases_eq hext he hlimits hcomplete]
  refine congrArg (_ ++ ·) (List.flatMap_congr fun base hbase => ?_)
  have hclass : (d.program.class? base).isSome = true := by
    refine @forall_mem_collect d.program _ _ _ (fun t => (d.program.class? t).isSome = true) ?_ []
      (by simp) base hbase
    intro source edge hedge
    obtain ⟨id, htype, hclass⟩ := h.class?_of_mem_edges hedge
    exact htype ▸ hclass
  obtain ⟨b, hb⟩ := Option.isSome_iff_exists.mp (completeRecord?_isSome_of_class? hclass)
  rw [Program.offeredBy, Program.offeredBy, hb, hext.completeRecord? hb]

/-- Functions that are hidden only by rank in a later state were so before. -/
theorem Valid.hidesByRank (hhides : e.program.HidesByRank) : d.program.HidesByRank := by
  intro t mode c hc
  have hsource : (d.program.completeRecord? t).isSome = true := by
    cases hr : d.program.completeRecord? t with
    | none =>
      rw [Program.offered_eq, hr] at hc
      cases hc
    | some r => rfl
  have hsame := h.offered_eq hext he hlimits hsource mode
  have hcases := hhides t mode c (hsame ▸ hc)
  rw [Program.considered_eq, hsame, ← Program.considered_eq] at hcases
  refine hcases.imp_right ?_
  rintro ⟨a, ha, hsignature, houtranks⟩
  refine ⟨a, ha, hsignature, houtranks.imp_left ?_⟩
  rintro ⟨path, hne, hpath⟩
  obtain ⟨owner, howner, hmem⟩ := List.mem_flatMap.mp ha
  obtain ⟨htype, hrecord⟩ := h.owner howner
  have hid : (Ty.record a.id.record) = owner.1 := by
    rw [htype, (Record.place_of_mem_candidates hmem).1]
  rw [hid] at hpath ⊢
  exact ⟨path, hne, (h.leads_iff_of_complete hext (Option.isSome_of_eq_some hrecord)).mp hpath⟩

end Development
end TypeTraits
