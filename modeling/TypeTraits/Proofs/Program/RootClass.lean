import TypeTraits.Expr.UserDefined
import TypeTraits.Proofs.Hierarchy.Congruence
import TypeTraits.Proofs.Hierarchy.VirtualBases

/-!
# Completing a class without bases

While a class is incomplete no other class derives from it, and one that turns out to have no bases
looks to every walk over base classes as it did before. So its completion changes nothing about the
hierarchy, and a program before and after it differ in this one class.
-/

namespace TypeTraits

open Hierarchy

/-- The type without its qualification is that of the record. -/
def Ty.IsOf (t : Ty) (id : RecordId) : Prop := t.unqualified.recordId? = some id

instance (t : Ty) (id : RecordId) : Decidable (t.IsOf id) := inferInstanceAs (Decidable (_ = _))

theorem Ty.isOf_of_recordId? {t : Ty} {id : RecordId} (h : t.recordId? = some id) : t.IsOf id := by
  rw [IsOf, Ty.unqualified_of_recordId? h]
  rfl

namespace Program

/-- A complete class without bases that is declared in the program, where it is incomplete and no
class derives from it. -/
structure AwaitsRoot (p : Program) (r : Record) : Prop where
  declared : ∃ old, p.record? r.id = some old ∧ old.complete = false ∧ old.key = r.key
  complete : r.complete = true
  bases : r.bases = []
  underived : ∀ source, ∀ e ∈ edges p source, e.base.type.recordId? ≠ some r.id

namespace AwaitsRoot

variable {p : Program} {r : Record} {t : Ty} (h : p.AwaitsRoot r)

include h

theorem record?_defineRecord (id : RecordId) :
    (p.defineRecord r).record? id = if id = r.id then some r else p.record? id := by
  obtain ⟨old, hold, _⟩ := h.declared
  exact Program.record?_defineRecord (by simp [hold]) id

theorem completeRecord?_of_ne (ht : t.recordId? ≠ some r.id) :
    (p.defineRecord r).completeRecord? t = p.completeRecord? t := by
  simp only [completeRecord?, recordOf?]
  cases hid : t.recordId? with
  | none => rfl
  | some id =>
    rw [Option.bind_some, Option.bind_some, h.record?_defineRecord, if_neg]
    rintro rfl
    exact ht hid

/-- Before its completion the class is not complete, and afterwards it is. -/
theorem completeRecord?_of_eq (ht : t.recordId? = some r.id) :
    p.completeRecord? t = none ∧ (p.defineRecord r).completeRecord? t = some r := by
  obtain ⟨old, hold, hincomplete, _⟩ := h.declared
  simp [completeRecord?, recordOf?, ht, h.record?_defineRecord, hold, hincomplete, h.complete]

theorem sameHierarchy : p.SameHierarchy (p.defineRecord r) where
  target := by
    unfold defineRecord
    split <;> rfl
  enums := by
    unfold defineRecord
    split <;> rfl
  isClassId id := by
    obtain ⟨old, hold, _, hkey⟩ := h.declared
    rw [isClassId, isClassId, h.record?_defineRecord]
    split
    · rename_i hid
      rw [hid, hold, Option.any_some, Option.any_some, Record.isUnion, Record.isUnion, hkey]
    · rfl
  edges source := by
    by_cases hid : source.recordId? = some r.id
    · obtain ⟨hbefore, hafter⟩ := h.completeRecord?_of_eq hid
      have hnone : p.class? source = none := by rw [class?, hbefore, Option.filter_none]
      rw [edges_of_class?_eq_none hnone, edges, class?, hafter]
      cases hclass : r.isUnion <;> simp [Option.filter, hclass, h.bases]
    · rw [edges, edges, class?, class?, h.completeRecord?_of_ne hid]

theorem sameBaseConversions : p.SameBaseConversions (p.defineRecord r) :=
  h.sameHierarchy.sameBaseConversions

/-- The class is the base of no other. -/
theorem isBaseOf_eq_false (ht : t.recordId? ≠ some r.id) :
    p.isBaseOf (.record r.id) t = false := by
  rw [← Bool.not_eq_true]
  intro hbase
  unfold isBaseOf at hbase
  split at hbase
  · rename_i b d hb hd
    cases hb
    simp only [Bool.and_eq_true, Bool.or_eq_true, beq_iff_eq] at hbase
    rcases hbase.2 with rfl | hreaches
    · exact ht hd
    · obtain ⟨path, hne, hpath⟩ := reaches_sound hreaches
      obtain ⟨source, e, he, htype⟩ := hpath.exists_edge hne
      exact h.underived source e he (by rw [htype]; rfl)
  · cases hbase

/-- Other classes keep their conversion functions. -/
theorem conversionOwners (ht : t.recordId? ≠ some r.id) :
    (p.defineRecord r).conversionOwners t = p.conversionOwners t := by
  have hbases : ∀ base ∈ p.allBases t.unqualified,
      ((p.defineRecord r).completeRecord? base).map (base, ·) =
        (p.completeRecord? base).map (base, ·) := by
    intro base hbase
    have hne : base.recordId? ≠ some r.id :=
      @forall_mem_collect p _ _ _ (·.recordId? ≠ some r.id) h.underived [] (by simp) base hbase
    rw [h.completeRecord?_of_ne hne]
  simp only [Program.conversionOwners, h.completeRecord?_of_ne ht, h.sameHierarchy.allBases,
    List.filterMap_congr hbases]

end AwaitsRoot
end Program

namespace Development

/-- A class that is completed without bases was awaited. -/
theorem Completes.awaitsRoot {d : Development} {draft : Draft} {r : Record}
    (hc : d.Completes draft r) (h : d.Reachable) (hbases : r.bases = []) :
    d.program.AwaitsRoot r where
  declared := by
    obtain ⟨old, hold, hincomplete⟩ := hc.replaced
    obtain ⟨declared, hmem, hdraft⟩ := hc.drafted
    obtain ⟨s, hs, hkey⟩ := h.key_draft declared hmem
    have hid : r.id = declared.record.id := by rw [hc.kept.id, hdraft]
    cases hold.symm.trans (hid ▸ hs)
    exact ⟨old, hold, hincomplete, by rw [hkey, hc.kept.key, hdraft]⟩
  complete := hc.complete
  bases := hbases
  underived source e he hid := by
    obtain ⟨id, htype, hclass⟩ := h.valid.class?_of_mem_edges he
    obtain ⟨s, hs⟩ := Option.isSome_iff_exists.mp hclass
    obtain ⟨_, hid', hrecord, hcomplete, _⟩ := Program.class?_eq_some.mp hs
    obtain ⟨old, hold, hincomplete⟩ := hc.replaced
    rw [htype] at hid
    cases hid
    cases hid'
    cases hold.symm.trans hrecord
    simp [hcomplete] at hincomplete

end Development
end TypeTraits
