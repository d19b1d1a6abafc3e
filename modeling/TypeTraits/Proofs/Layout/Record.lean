import Mathlib.Algebra.Order.BigOperators.Group.List
import Mathlib.Algebra.Order.Ring.Nat
import TypeTraits.Proofs.Layout.Object

/-!
# What laying out a record gives

A record is as large as the table pointer, the bases and the data members that it holds take
together, each virtual base counted once, or as the largest member of a union. Its alignment is a
power of two that those of its parts divide, and divides its size.
-/

namespace TypeTraits

namespace Layout

/-- Rounding the size of a record up to its alignment. -/
theorem roundUp_record {align : Nat} (h : align.isPowerOfTwo) (size : Nat) :
    0 < roundUp (max size 1) align ∧ align ∣ roundUp (max size 1) align ∧
      size ≤ roundUp (max size 1) align := by
  have hle := le_roundUp (max size 1) align
  exact ⟨by omega, dvd_roundUp (Nat.pos_of_isPowerOfTwo h) _, by omega⟩

end Layout

/-- The types of the virtual bases, each once. -/
def RecordParts.virtualBases (parts : RecordParts) : List Ty :=
  ((parts.bases.filter (·.isVirtual)).map (·.type)).dedup

namespace Program

open Layout Placement

variable {p : Program} {parts : RecordParts} {layout : Layout}

/-- The layouts of what a record holds: the bases that are not virtual, the data members and the
virtual bases. -/
def heldLayouts (p : Program) (parts : RecordParts) : List Layout :=
  (parts.bases.flatMap fun base => if base.isVirtual then [] else p.baseItems base.type) ++
    (parts.members.flatMap fun t => (p.memberLayout t).toList) ++
    parts.virtualBases.flatMap p.baseItems

theorem mem_heldLayouts_of_base {base : BaseClass} {r : Record} (hbase : base ∈ parts.bases)
    (hr : p.completeRecord? base.type = some r) : heldLayout r ∈ p.heldLayouts parts := by
  have hitem : heldLayout r ∈ p.baseItems base.type := mem_baseItems.2 ⟨r, hr, rfl⟩
  cases hvirtual : base.isVirtual with
  | false =>
    refine List.mem_append_left _ (List.mem_append_left _ (List.mem_flatMap.2 ⟨base, hbase, ?_⟩))
    rwa [if_neg (by simp [hvirtual])]
  | true =>
    refine List.mem_append_right _ (List.mem_flatMap.2 ⟨base.type, List.mem_dedup.2 ?_, hitem⟩)
    exact List.mem_map_of_mem (List.mem_filter.2 ⟨hbase, hvirtual⟩)

theorem mem_heldLayouts_of_member {t : Ty} {l : Layout} (ht : t ∈ parts.members)
    (hl : p.memberLayout t = some l) : l ∈ p.heldLayouts parts :=
  List.mem_append_left _
    (List.mem_append_right _ (List.mem_flatMap.2 ⟨t, ht, Option.mem_toList.2 hl⟩))

theorem isPowerOfTwo_baseItems (hrecords : p.AlignsRecords) {t : Ty} {l : Layout}
    (hl : l ∈ p.baseItems t) : l.align.isPowerOfTwo := by
  obtain ⟨r, hr, rfl⟩ := mem_baseItems.1 hl
  obtain ⟨id, -, hr, hc⟩ := completeRecord?_eq_some.1 hr
  exact hrecords id r hr hc

theorem isPowerOfTwo_heldLayouts (htarget : p.target.AlignsScalars) (hrecords : p.AlignsRecords) :
    ∀ l ∈ p.heldLayouts parts, l.align.isPowerOfTwo := by
  intro l hl
  simp only [heldLayouts, List.mem_append, List.mem_flatMap, Option.mem_toList] at hl
  obtain (⟨base, -, hl⟩ | ⟨t, -, hl⟩) | ⟨t, -, hl⟩ := hl
  · split at hl
    · simp at hl
    · exact isPowerOfTwo_baseItems hrecords hl
  · exact isPowerOfTwo_memberLayout htarget hrecords hl
  · exact isPowerOfTwo_baseItems hrecords hl

theorem virtualBases_startPlacement (parts : RecordParts) :
    (p.startPlacement parts).virtualBases = [] := by
  rw [startPlacement]
  split <;> rfl

/-- The virtual bases that placing the bases notes are those of the record. -/
theorem perm_virtualBases {s : Placement}
    (h : parts.bases.foldlM p.placeBase (p.startPlacement parts) = some s) :
    s.virtualBases.Perm parts.virtualBases := by
  have hnone := p.virtualBases_startPlacement parts
  obtain ⟨hnodup, hmem⟩ := virtualBases_placeBases h (by simp [hnone])
  refine (List.perm_ext_iff_of_nodup hnodup (List.nodup_dedup _)).2 fun t => ?_
  simp [hmem, hnone, and_assoc]

/-- Placing the bases adds those that are not virtual. -/
theorem adds_placeBases {s : Placement}
    (h : parts.bases.foldlM p.placeBase (p.startPlacement parts) = some s) :
    (p.startPlacement parts).Adds (parts.bases.flatMap fun base =>
      if base.isVirtual then [] else p.baseItems base.type) s :=
  adds_foldlM (fun _ _ _ _ => adds_placeBase) h

/-- Laying out a record places all that it holds. -/
theorem adds_layOut (hunion : parts.isUnion = false) (h : p.layOut parts = some layout) :
    ∃ s held, (p.startPlacement parts).Adds held s ∧ held.Perm (p.heldLayouts parts) ∧
      layout = ⟨roundUp (max s.offset 1) s.align, s.align⟩ ∧
      ∀ t ∈ parts.members, ∃ l, p.memberLayout t = some l := by
  rw [layOut, if_neg (by simp [hunion])] at h
  obtain ⟨s₁, hbases, h⟩ := Option.bind_eq_some_iff.1 h
  obtain ⟨s₂, hmembers, h⟩ := Option.bind_eq_some_iff.1 h
  obtain ⟨s₃, hvirtual, h⟩ := Option.bind_eq_some_iff.1 h
  have hlaid := memberLayout_of_placeMember hmembers
  have hadds₁ := adds_placeBases hbases
  have hadds₂ : s₁.Adds (parts.members.flatMap fun t => (p.memberLayout t).toList) s₂ :=
    adds_foldlM (fun t ht _ _ hstep => by
      obtain ⟨l, hl⟩ := hlaid t ht
      rw [hl]
      exact adds_placeMember hl hstep) hmembers
  have hadds₃ : s₂.Adds (s₂.virtualBases.flatMap p.baseItems) s₃ :=
    adds_foldlM (fun _ _ _ _ => adds_placeVirtualBase) hvirtual
  refine ⟨s₃, _, (hadds₁.trans hadds₂).trans hadds₃, ?_, finish_eq_some h, hlaid⟩
  have hperm : s₂.virtualBases.Perm parts.virtualBases := by
    rw [virtualBases_placeMembers hmembers]
    exact perm_virtualBases hbases
  exact (hperm.flatMap_right _).append_left _

/-- What laying out a record that is no union gives. -/
structure LaysOut (p : Program) (parts : RecordParts) (layout : Layout) : Prop where
  align : layout.align.isPowerOfTwo
  pos : 0 < layout.size
  dvd : layout.align ∣ layout.size
  start : (p.startPlacement parts).align ∣ layout.align
  held : ∀ l ∈ p.heldLayouts parts, l.align ∣ layout.align
  room : (p.startPlacement parts).offset + ((p.heldLayouts parts).map (·.size)).sum ≤ layout.size
  member : ∀ t ∈ parts.members, ∃ l, p.memberLayout t = some l

/-- A record is as large as anything that it holds. -/
theorem LaysOut.size_le (h : p.LaysOut parts layout) {l : Layout} (hl : l ∈ p.heldLayouts parts) :
    l.size ≤ layout.size := by
  have hle : l.size ≤ ((p.heldLayouts parts).map (·.size)).sum :=
    List.single_le_sum (by simp) _ (List.mem_map_of_mem hl)
  have hroom := h.room
  omega

theorem laysOut_of_layOut (htarget : p.target.AlignsScalars) (hrecords : p.AlignsRecords)
    (hunion : parts.isUnion = false) (h : p.layOut parts = some layout) :
    p.LaysOut parts layout := by
  obtain ⟨s, held, hadds, hperm, rfl, hlaid⟩ := adds_layOut hunion h
  have hstart : (p.startPlacement parts).align.isPowerOfTwo := by
    rw [startPlacement]
    split
    · exact htarget.pointer
    · exact Nat.isPowerOfTwo_one
  have hheld : ∀ l ∈ held, l.align.isPowerOfTwo := fun l hl =>
    isPowerOfTwo_heldLayouts htarget hrecords l (hperm.mem_iff.1 hl)
  obtain ⟨halign, hdvd, hitems⟩ := isPowerOfTwo_greatestAlign hstart hheld
  rw [← hadds.align] at halign hdvd hitems
  obtain ⟨hpos, hsize, hle⟩ := roundUp_record halign s.offset
  have hroom := hadds.room
  rw [(hperm.map _).sum_eq] at hroom
  exact ⟨halign, hpos, hsize, hdvd, fun l hl => hitems l (hperm.mem_iff.2 hl),
    by simp only; omega, hlaid⟩

/-- Each member of a union makes room for itself and keeps that of the others. -/
theorem overlay_sound (htarget : p.target.AlignsScalars) (hrecords : p.AlignsRecords)
    {members : List Ty} {start whole : Layout} (hstart : start.align.isPowerOfTwo)
    (h : members.foldlM (fun (whole : Layout) t => do
      let layout ← p.memberLayout t
      return ⟨max whole.size layout.size, max whole.align layout.align⟩) start = some whole) :
    whole.align.isPowerOfTwo ∧ start.align ∣ whole.align ∧ start.size ≤ whole.size ∧
      ∀ t ∈ members, ∃ l, p.memberLayout t = some l ∧ l.align ∣ whole.align ∧
        l.size ≤ whole.size := by
  induction members generalizing start with
  | nil =>
    cases h
    exact ⟨hstart, Nat.dvd_refl _, Nat.le_refl _, by simp⟩
  | cons t members ih =>
    rw [List.foldlM_cons, Option.bind_eq_bind, Option.bind_eq_some_iff] at h
    obtain ⟨next, hnext, h⟩ := h
    obtain ⟨l, hl, hnext⟩ := Option.bind_eq_some_iff.1 hnext
    cases hnext
    have haligned := isPowerOfTwo_memberLayout htarget hrecords hl
    obtain ⟨hmax, hleft, hright⟩ := isPowerOfTwo_max hstart haligned
    obtain ⟨hwhole, hdvd, hle, hmembers⟩ := ih hmax h
    simp only at hle
    refine ⟨hwhole, hleft.trans hdvd, by omega, List.forall_mem_cons.2 ⟨?_, hmembers⟩⟩
    exact ⟨l, hl, hright.trans hdvd, by omega⟩

/-- The layout of a union. -/
theorem layOutUnion_sound (htarget : p.target.AlignsScalars) (hrecords : p.AlignsRecords)
    {members : List Ty} (h : p.layOutUnion members = some layout) :
    layout.align.isPowerOfTwo ∧ 0 < layout.size ∧ layout.align ∣ layout.size ∧
      ∀ t ∈ members, ∃ l, p.memberLayout t = some l ∧ l.align ∣ layout.align ∧
        l.size ≤ layout.size := by
  obtain ⟨whole, hwhole, h⟩ := Option.bind_eq_some_iff.1 h
  obtain ⟨size, hsize, h⟩ := Option.bind_eq_some_iff.1 h
  cases h
  rw [roundUp?_eq_some hsize]
  obtain ⟨halign, -, -, hmembers⟩ :=
    overlay_sound htarget hrecords Nat.isPowerOfTwo_one hwhole
  obtain ⟨hpos, hdvd, hle⟩ := roundUp_record halign whole.size
  refine ⟨halign, hpos, hdvd, fun t ht => ?_⟩
  obtain ⟨l, hl, hldvd, hlsize⟩ := hmembers t ht
  exact ⟨l, hl, hldvd, by simp only; omega⟩

/-- The size of a type as a data member. -/
def memberSize (p : Program) (t : Ty) : Nat := ((p.memberLayout t).map (·.size)).getD 0

/-- The size of a class as a base; an empty one takes no room. -/
def baseSize (p : Program) (t : Ty) : Nat :=
  (((p.completeRecord? t).filter (!·.facts.empty)).map (·.layout.size)).getD 0

theorem sum_baseItems (t : Ty) : ((p.baseItems t).map (·.size)).sum = p.baseSize t := by
  cases hr : p.completeRecord? t with
  | none => simp [baseItems, baseSize, hr]
  | some r =>
    cases hempty : r.facts.empty <;>
      simp [baseItems, baseSize, heldLayout, hr, hempty, Option.filter_some]

theorem sum_memberItems (t : Ty) :
    ((p.memberLayout t).toList.map (·.size)).sum = p.memberSize t := by
  cases hl : p.memberLayout t <;> simp [memberSize, hl]

theorem sum_flatMap_size {α : Type} (xs : List α) (items : α → List Layout) :
    ((xs.flatMap items).map (·.size)).sum =
      (xs.map fun x => ((items x).map (·.size)).sum).sum := by
  rw [List.map_flatMap, List.flatMap, List.sum_flatten, List.map_map]
  rfl

/-- The room that all that a record holds takes. -/
theorem sum_heldLayouts (p : Program) (parts : RecordParts) :
    ((p.heldLayouts parts).map (·.size)).sum =
      ((parts.bases.filter (!·.isVirtual)).map fun base => p.baseSize base.type).sum +
        (parts.members.map p.memberSize).sum + (parts.virtualBases.map p.baseSize).sum := by
  have hbases : ∀ bases : List BaseClass,
      (bases.map fun base =>
        ((if base.isVirtual then [] else p.baseItems base.type).map (·.size)).sum).sum =
      ((bases.filter (!·.isVirtual)).map fun base => p.baseSize base.type).sum := by
    intro bases
    induction bases with
    | nil => rfl
    | cons base bases ih => cases hvirtual : base.isVirtual <;> simp [hvirtual, ih, sum_baseItems]
  simp only [heldLayouts, List.map_append, List.sum_append, sum_flatMap_size, hbases, sum_baseItems,
    sum_memberItems]

end Program

end TypeTraits
