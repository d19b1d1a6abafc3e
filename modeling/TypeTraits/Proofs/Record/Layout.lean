import TypeTraits.Proofs.Layout.Record
import TypeTraits.Proofs.Record.Facts

/-!
# The layout of complete records

On a target that a text describes, every complete record has a layout that its parts fit into, as
objects of the types that they have by now: what a type is laid out as does not change any more. A
dynamic class holds a table pointer, its own or that of a base.
-/

namespace TypeTraits

/-- Whether the layout of a record is one that its parts fit into. -/
structure Record.HasSoundLayout (r : Record) (p : Program) : Prop where
  align : r.layout.align.isPowerOfTwo
  size_pos : 1 ≤ r.layout.size
  align_dvd_size : r.layout.align ∣ r.layout.size
  /-- A reference counts as a pointer here, see `Program.memberLayout`. -/
  member : ∀ m ∈ r.members, ∃ l, p.memberLayout m.type = some l ∧ l.align ∣ r.layout.align
  base : ∀ base ∈ r.bases, ∃ b, p.completeRecord? base.type = some b ∧
    b.layout.align ∣ r.layout.align
  union : r.isUnion = true → ∀ m ∈ r.members, p.memberSize m.type ≤ r.layout.size
  room : r.isUnion = false →
    (r.members.map fun m => p.memberSize m.type).sum +
      ((r.bases.filter (!·.isVirtual)).map fun base => p.baseSize base.type).sum +
      (((r.bases.filter (·.isVirtual)).map (·.type)).dedup.map p.baseSize).sum ≤ r.layout.size
  pointer : r.isUnion = false → r.facts.dynamic = true →
    p.target.pointer.size ≤ r.layout.size ∧ p.target.pointer.align ≤ r.layout.align

/-- What holds of every complete record: its layout is sound, and an empty class neither is dynamic
nor has an alignment to keep. -/
structure Record.IsLaidOut (r : Record) (p : Program) : Prop extends r.HasSoundLayout p where
  empty : r.facts.empty = true → r.facts.dynamic = false ∧ r.layout.align = 1

namespace Record.HasSoundLayout

variable {r : Record} {p q : Program}

/-- A sound layout stays one as the program goes on. -/
theorem continues (h : r.HasSoundLayout p) (hpq : p.Continues q) : r.HasSoundLayout q := by
  have hmember : ∀ m ∈ r.members, q.memberSize m.type = p.memberSize m.type := by
    intro m hm
    obtain ⟨l, hl, -⟩ := h.member m hm
    rw [Program.memberSize, Program.memberSize, hl, hpq.memberLayout hl]
  have hbase : ∀ base ∈ r.bases, q.baseSize base.type = p.baseSize base.type := by
    intro base hbase
    obtain ⟨b, hb, -⟩ := h.base base hbase
    rw [Program.baseSize, Program.baseSize, hb, hpq.completeRecord? hb]
  exact
    { align := h.align
      size_pos := h.size_pos
      align_dvd_size := h.align_dvd_size
      member := fun m hm => by
        obtain ⟨l, hl, hdvd⟩ := h.member m hm
        exact ⟨l, hpq.memberLayout hl, hdvd⟩
      base := fun base hbase => by
        obtain ⟨b, hb, hdvd⟩ := h.base base hbase
        exact ⟨b, hpq.completeRecord? hb, hdvd⟩
      union := fun hunion m hm => hmember m hm ▸ h.union hunion m hm
      room := fun hunion => by
        have hvirtual : ∀ t ∈ ((r.bases.filter (·.isVirtual)).map (·.type)).dedup,
            q.baseSize t = p.baseSize t := by
          intro t ht
          obtain ⟨base, hmem, rfl⟩ := List.mem_map.1 (List.mem_dedup.1 ht)
          exact hbase base (List.mem_filter.1 hmem).1
        rw [List.map_congr_left hmember, List.map_congr_left hvirtual,
          List.map_congr_left fun base hmem => hbase base (List.mem_filter.1 hmem).1]
        exact h.room hunion
      pointer := hpq.target ▸ h.pointer }

end Record.HasSoundLayout

namespace Development

variable {d : Development} {draft : Draft} {r : Record}

namespace Completes

/-- The class whose table pointer a dynamic class shares is one of its bases. -/
theorem primaryBase (h : d.Completes draft r)
    (hdynamic : d.program.primaryBaseIsDynamic draft.record.bases = true) :
    ∃ base ∈ draft.record.bases, ∃ b, d.program.completeRecord? base.type = some b ∧
      b.isUnion = false ∧ b.facts.dynamic = true := by
  obtain ⟨b, hb, hdynamic⟩ := (Option.any_eq_true _ _).1 hdynamic
  obtain ⟨base, hfind, hb⟩ := Option.bind_eq_some_iff.1 hb
  have hmem := List.mem_of_find?_eq_some hfind
  obtain ⟨b', hb', -, hunion⟩ := h.completeBase base hmem
  cases hb.symm.trans hb'
  exact ⟨base, hmem, b, hb, hunion, hdynamic⟩

theorem laidOut (h : d.Completes draft r) :
    d.program.layOut (d.program.parts draft.record) = some r.layout := by
  obtain ⟨done, layout, -, hlayout, rfl⟩ := Program.completeRecord_eq_some h.completed
  exact hlayout

theorem isUnion_parts (h : d.Completes draft r) :
    (d.program.parts draft.record).isUnion = r.isUnion := by
  simp only [Program.parts, Record.isUnion, h.kept.key]

theorem bases_parts (h : d.Completes draft r) : (d.program.parts draft.record).bases = r.bases :=
  h.kept.bases.symm

theorem members_parts (h : d.Completes draft r) :
    (d.program.parts draft.record).members = r.members.map (·.type) := by
  rw [h.kept.members]
  rfl

theorem mem_members_parts (h : d.Completes draft r) {m : DataMember} (hm : m ∈ r.members) :
    m.type ∈ (d.program.parts draft.record).members :=
  h.members_parts ▸ List.mem_map_of_mem hm

theorem dynamic_parts (h : d.Completes draft r) :
    (d.program.parts draft.record).dynamic = r.facts.dynamic := by
  obtain ⟨done, layout, -, -, rfl⟩ := Program.completeRecord_eq_some h.completed
  rfl

variable (h : d.Completes draft r) (htarget : d.program.target.AlignsScalars)
  (hcomplete : ∀ id r, d.program.record? id = some r → r.complete = true →
    r.IsLaidOut d.program)

include h hcomplete

/-- An empty class holds nothing but empty bases, none of them virtual. -/
theorem bare_of_empty (hempty : r.facts.empty = true) :
    r.facts.dynamic = false ∧ r.layout.align = 1 := by
  have hlayout := h.laidOut
  obtain ⟨done, layout, hdone, -, rfl⟩ := Program.completeRecord_eq_some h.completed
  obtain ⟨_, _, _, rfl, _⟩ := Synthesis.complete_returns hdone
  simp only [Program.completed, Program.facts, Bool.and_eq_true, Bool.not_eq_true',
    List.isEmpty_iff, List.all_eq_true] at hempty
  obtain ⟨⟨⟨hunion, hmembers⟩, hdynamic⟩, hbases⟩ := hempty
  refine ⟨hdynamic, Program.align_of_empty hunion hdynamic (by simp [Program.parts, hmembers])
    (fun base hbase => ?_) hlayout⟩
  obtain ⟨b, hb, hmem, -⟩ := h.completeBase base hbase
  obtain ⟨id, -, hbid, hbc⟩ := Program.completeRecord?_eq_some.1 hb
  have hnone := (Bool.or_eq_false_iff.1 hdynamic).2
  rw [Program.inheritsVirtually, Bool.or_eq_false_iff, List.any_eq_false] at hnone
  have hbempty : b.facts.empty = true := hbases b hmem
  exact ⟨by simpa using hnone.1 base hbase, b, hb, hbempty,
    ((hcomplete id b hbid hbc).empty hbempty).2⟩

include htarget

theorem laysOut (hunion : r.isUnion = false) :
    d.program.LaysOut (d.program.parts draft.record) r.layout :=
  Program.laysOut_of_layOut htarget (fun id r hr hc => (hcomplete id r hr hc).align)
    (h.isUnion_parts.trans hunion) h.laidOut

/-- A dynamic class has room for a table pointer, if the complete ones have. -/
theorem pointer_le (hunion : r.isUnion = false) (hdynamic : r.facts.dynamic = true) :
    d.program.target.pointer.size ≤ r.layout.size ∧
      d.program.target.pointer.align ≤ r.layout.align := by
  have hlays := h.laysOut htarget hcomplete hunion
  have hpos := Nat.pos_of_isPowerOfTwo hlays.align
  have hroom := hlays.room
  cases hprimary : d.program.primaryBaseIsDynamic draft.record.bases with
  | false =>
    -- The class has a table pointer of its own, placed before everything else.
    have hplaced : d.program.startPlacement (d.program.parts draft.record) =
        { offset := d.program.target.pointer.size, align := d.program.target.pointer.align } := by
      rw [Program.startPlacement, h.dynamic_parts, hdynamic]
      exact if_pos (by simp [Program.parts, hprimary])
    have hstart := hlays.start
    rw [hplaced] at hstart hroom
    exact ⟨by simp only at hroom; omega, Nat.le_of_dvd hpos hstart⟩
  | true =>
    -- The table pointer is that of a base, which has room for it and is part of the class.
    obtain ⟨base, hmem, b, hb, hbunion, hbdynamic⟩ := h.primaryBase hprimary
    obtain ⟨id, -, hbid, hbc⟩ := Program.completeRecord?_eq_some.1 hb
    have hbsound := hcomplete id b hbid hbc
    have hbase : base ∈ (d.program.parts draft.record).bases := hmem
    have hitem := Program.mem_heldLayouts_of_base hbase hb
    rw [Program.heldLayout, if_neg fun hempty => by simp [hbsound.empty hempty] at hbdynamic]
      at hitem
    obtain ⟨hsize, halign⟩ := hbsound.pointer hbunion hbdynamic
    exact ⟨hsize.trans (hlays.size_le hitem), halign.trans (Nat.le_of_dvd hpos (hlays.held _ hitem))⟩

theorem hasSoundLayout_of_class (hunion : r.isUnion = false) : r.HasSoundLayout d.program := by
  have hlays := h.laysOut htarget hcomplete hunion
  have hroom := hlays.room
  rw [Program.sum_heldLayouts, RecordParts.virtualBases, h.bases_parts, h.members_parts,
    List.map_map] at hroom
  exact
    { align := hlays.align
      size_pos := hlays.pos
      align_dvd_size := hlays.dvd
      member := fun m hm => by
        obtain ⟨l, hl⟩ := hlays.member m.type (h.mem_members_parts hm)
        exact ⟨l, hl, hlays.held l (Program.mem_heldLayouts_of_member (h.mem_members_parts hm) hl)⟩
      base := fun base hbase => by
        rw [← h.bases_parts] at hbase
        obtain ⟨b, hb, -⟩ := h.completeBase base hbase
        exact ⟨b, hb, hlays.held (Program.heldLayout b) (Program.mem_heldLayouts_of_base hbase hb)⟩
      union := by simp [hunion]
      room := fun _ => by
        simp only [Function.comp_def] at hroom
        omega
      pointer := h.pointer_le htarget hcomplete }

theorem hasSoundLayout_of_union (hunion : r.isUnion = true) : r.HasSoundLayout d.program := by
  have hlayout := h.laidOut
  rw [Program.layOut, h.isUnion_parts, if_pos hunion] at hlayout
  obtain ⟨halign, hpos, hdvd, hlaid⟩ := Program.layOutUnion_sound htarget
    (fun id r hr hc => (hcomplete id r hr hc).align) hlayout
  exact
    { align := halign
      size_pos := hpos
      align_dvd_size := hdvd
      member := fun m hm => by
        obtain ⟨l, hl, hldvd, -⟩ := hlaid m.type (h.mem_members_parts hm)
        exact ⟨l, hl, hldvd⟩
      base := by
        have hnone : (d.program.parts draft.record).bases = [] :=
          h.noBases (by rwa [← h.isUnion_parts] at hunion)
        rw [← h.bases_parts, hnone]
        simp
      union := fun _ m hm => by
        obtain ⟨l, hl, -, hle⟩ := hlaid m.type (h.mem_members_parts hm)
        rw [Program.memberSize, hl]
        exact hle
      room := by simp [hunion]
      pointer := by simp [hunion] }

/-- The layout of a record is sound when it is completed, if those of the complete records are. -/
theorem hasSoundLayout : r.HasSoundLayout d.program := by
  cases hunion : r.isUnion with
  | false => exact h.hasSoundLayout_of_class htarget hcomplete hunion
  | true => exact h.hasSoundLayout_of_union htarget hcomplete hunion

end Completes

theorem Reachable.isLaidOut_of_alignsScalars (h : d.Reachable)
    (htarget : d.program.target.AlignsScalars) :
    ∀ id r, d.program.record? id = some r → r.complete = true → r.IsLaidOut d.program := by
  -- The target is a premise of the property, since a record was completed in an earlier state.
  have hcomplete := Reachable.forall_complete_of_continues
    (Q := fun p r => p.target.AlignsScalars → r.IsLaidOut p) ?_ ?_ h
  · exact fun id r hr hc => hcomplete id r hr hc htarget
  · intro p q r hpq hr htarget
    have hr := hr (hpq.target ▸ htarget)
    exact ⟨hr.continues hpq, hr.empty⟩
  · intro d draft r _ hcomplete hc htarget
    have htarget : d.program.target.AlignsScalars := hc.extends_defineRecord.target ▸ htarget
    have hcomplete : ∀ id r, d.program.record? id = some r → r.complete = true →
        r.IsLaidOut d.program := fun id r hr hc => hcomplete id r hr hc htarget
    exact ⟨(hc.hasSoundLayout htarget hcomplete).continues hc.continues_defineRecord,
      hc.bare_of_empty hcomplete⟩

theorem Reachable.isLaidOut (h : d.Reachable) (htarget : d.program.target.IsDescribed) :
    ∀ id r, d.program.record? id = some r → r.complete = true → r.IsLaidOut d.program :=
  h.isLaidOut_of_alignsScalars htarget.alignsScalars

/-- Record layouts are sound: on a target that a text describes, the alignment of a complete
record is a power of two that divides its size and that the alignments of its data members and
bases divide, its size is not zero, and its parts fit into it. -/
theorem layouts_sound (h : d.Reachable) (htarget : d.program.target.IsDescribed) :
    ∀ id r, d.program.record? id = some r → r.complete = true → r.HasSoundLayout d.program :=
  fun id r hr hc => (h.isLaidOut htarget id r hr hc).toHasSoundLayout

/-- An empty class, one with it as its base, an abstract class, and one with that as a virtual
base. -/
theorem layouts_sound_shapes : shapes.Reachable ∧ shapes.program.target.IsDescribed ∧
    ∀ id ∈ [1, 2, 3, 4], ∃ r, shapes.program.record? ⟨id⟩ = some r ∧ r.complete = true ∧
      (r.facts.empty || r.layout.size == 8 || r.facts.hasVirtualBases) = true ∧
      r.HasSoundLayout shapes.program := by
  have hlp64 : shapes.program.target = .lp64 := by decide +kernel
  have htarget : shapes.program.target.IsDescribed := hlp64 ▸ Target.isDescribed_lp64
  refine ⟨reachable_shapes, htarget, fun id hid => ?_⟩
  have hrecord : ∀ id ∈ [1, 2, 3, 4], ((shapes.program.record? ⟨id⟩).any fun r => r.complete &&
      (r.facts.empty || r.layout.size == 8 || r.facts.hasVirtualBases)) = true := by
    decide +kernel
  obtain ⟨r, hr, hfacts⟩ := (Option.any_eq_true _ _).1 (hrecord id hid)
  obtain ⟨hc, hfacts⟩ := Bool.and_eq_true_iff.1 hfacts
  exact ⟨r, hr, hc, hfacts, layouts_sound reachable_shapes htarget ⟨id⟩ r hr hc⟩

end Development

end TypeTraits
