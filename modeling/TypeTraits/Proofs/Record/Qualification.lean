import TypeTraits.Proofs.Layout.Qualification
import TypeTraits.Proofs.Record.Layout

/-!
# Records whose data members differ in their qualifiers

The layout of a complete record is what laying it out gives at any later time. In a reachable
program the qualifiers of data members change it in one case only: of two records that are the same
but for them, one has a member at offset zero with the very type of an empty base there, and the
other has not. The alignment is the same even then, and the size is by the alignment larger if
nothing but padding can take the difference in.
-/

namespace TypeTraits

/-- What a complete record is laid out from. -/
def Record.parts (r : Record) : RecordParts where
  isUnion := r.isUnion
  dynamic := r.facts.dynamic
  bases := r.bases
  members := r.members.map (·.type)

namespace RecordParts

theorem SameUnqualified.symm {parts parts' : RecordParts} (h : parts.SameUnqualified parts') :
    parts'.SameUnqualified parts where
  isUnion := h.isUnion.symm
  dynamic := h.dynamic.symm
  bases := h.bases.symm
  members := h.members.flip.imp fun _ _ hsame => ⟨hsame.right, hsame.left, hsame.unqualified.symm⟩

/-- Unqualifying the data members changes nothing but qualifiers. -/
theorem sameUnqualified_map (parts : RecordParts) (h : ∀ t ∈ parts.members, t.isNormal = true) :
    parts.SameUnqualified { parts with members := parts.members.map Ty.unqualified } where
  isUnion := rfl
  dynamic := rfl
  bases := rfl
  members := by
    rw [List.forall₂_map_right_iff, List.forall₂_same]
    exact fun t ht => Ty.sameUnqualified_unqualified (h t ht)

end RecordParts

/-- A run succeeds like another one if each of its steps does. -/
theorem foldlM_eq_some {α β : Type} {step step' : β → α → Option β} {xs : List α} {b b' : β}
    (hstep : ∀ x ∈ xs, ∀ b b', step b x = some b' → step' b x = some b')
    (h : xs.foldlM step b = some b') : xs.foldlM step' b = some b' := by
  induction xs generalizing b with
  | nil => exact h
  | cons x xs ih =>
    obtain ⟨hx, hxs⟩ := List.forall_mem_cons.1 hstep
    rw [List.foldlM_cons, Option.bind_eq_bind, Option.bind_eq_some_iff] at h
    obtain ⟨next, hnext, h⟩ := h
    rw [List.foldlM_cons, hx b next hnext]
    exact ih hxs h

namespace Program

variable {p q : Program} {parts : RecordParts} {s s' : Placement}

section Growth

variable (hpq : p.Continues q)

include hpq

theorem Continues.startPlacement
    (hbases : ∀ base ∈ parts.bases, ∃ b, p.completeRecord? base.type = some b) :
    q.startPlacement parts = p.startPlacement parts := by
  have hprimary : q.primaryBaseIsDynamic parts.bases = p.primaryBaseIsDynamic parts.bases := by
    rw [primaryBaseIsDynamic, primaryBaseIsDynamic]
    cases hfind : parts.bases.find? (!·.isVirtual) with
    | none => rfl
    | some base =>
      obtain ⟨b, hb⟩ := hbases base (List.mem_of_find?_eq_some hfind)
      rw [Option.bind_some, Option.bind_some, hb, hpq.completeRecord? hb]
  rw [Program.startPlacement, Program.startPlacement, hprimary, hpq.target]

theorem Continues.placeBase {base : BaseClass} {b : Record}
    (hb : p.completeRecord? base.type = some b) (h : p.placeBase s base = some s') :
    q.placeBase s base = some s' := by
  rw [Program.placeBase, hb] at h
  rw [Program.placeBase, hpq.completeRecord? hb]
  exact h

theorem Continues.placeMember {t : Ty} (h : p.placeMember s t = some s') :
    q.placeMember s t = some s' := by
  obtain ⟨l, hl, hplaced⟩ := Option.bind_eq_some_iff.1 h
  rw [Program.placeMember, hpq.memberLayout hl]
  exact hplaced

theorem Continues.placeVirtualBase {t : Ty} {b : Record} (hb : p.completeRecord? t = some b)
    (h : p.placeVirtualBase s t = some s') : q.placeVirtualBase s t = some s' := by
  rw [Program.placeVirtualBase, hb] at h
  rw [Program.placeVirtualBase, hpq.completeRecord? hb]
  exact h

theorem Continues.layOutUnion {ts : List Ty} {layout : Layout}
    (h : p.layOutUnion ts = some layout) : q.layOutUnion ts = some layout := by
  obtain ⟨whole, hwhole, h⟩ := Option.bind_eq_some_iff.1 h
  rw [Program.layOutUnion, foldlM_eq_some (fun t _ whole next hnext => ?_) hwhole]
  · exact h
  · obtain ⟨l, hl, hnext⟩ := Option.bind_eq_some_iff.1 hnext
    rw [hpq.memberLayout hl]
    exact hnext

/-- What is laid out from complete bases is laid out like this later, too. -/
theorem Continues.layOut
    (hbases : ∀ base ∈ parts.bases, ∃ b, p.completeRecord? base.type = some b) {layout : Layout}
    (h : p.layOut parts = some layout) : q.layOut parts = some layout := by
  rw [Program.layOut] at h ⊢
  split at h
  · next hunion =>
    rw [if_pos hunion]
    exact hpq.layOutUnion h
  · next hunion =>
    obtain ⟨s₁, hplaced, h⟩ := Option.bind_eq_some_iff.1 h
    obtain ⟨s₂, hmembers, h⟩ := Option.bind_eq_some_iff.1 h
    obtain ⟨s₃, hvirtual, h⟩ := Option.bind_eq_some_iff.1 h
    have hnoted : ∀ t ∈ s₂.virtualBases, ∃ b, p.completeRecord? t = some b := by
      intro t ht
      rw [virtualBases_placeMembers hmembers] at ht
      have ht := (perm_virtualBases hplaced).subset ht
      obtain ⟨base, hbase, rfl⟩ := List.mem_map.1 (List.mem_dedup.1 ht)
      exact hbases base (List.mem_filter.1 hbase).1
    rw [if_neg hunion, hpq.startPlacement hbases]
    refine Option.bind_eq_some_iff.2 ⟨s₁, ?_, Option.bind_eq_some_iff.2 ⟨s₂, ?_,
      Option.bind_eq_some_iff.2 ⟨s₃, ?_, h⟩⟩⟩
    · refine foldlM_eq_some (fun base hbase _ _ hstep => ?_) hplaced
      obtain ⟨b, hb⟩ := hbases base hbase
      exact hpq.placeBase hb hstep
    · exact foldlM_eq_some (fun _ _ _ _ => hpq.placeMember) hmembers
    · refine foldlM_eq_some (fun t ht _ _ hstep => ?_) hvirtual
      obtain ⟨b, hb⟩ := hnoted t ht
      exact hpq.placeVirtualBase hb hstep

end Growth

end Program

namespace Development

variable {d : Development} {draft : Draft} {r : Record}

theorem Completes.parts_eq (h : d.Completes draft r) : d.program.parts draft.record = r.parts := by
  rw [Record.parts, ← h.isUnion_parts, ← h.bases_parts, ← h.members_parts, ← h.dynamic_parts]

/-- The layout of a complete record is what laying it out gives, then and later. -/
theorem Reachable.layOut_parts (h : d.Reachable) : ∀ id r, d.program.record? id = some r →
    r.complete = true → d.program.layOut r.parts = some r.layout := by
  intro id r hr hc
  refine (Reachable.forall_complete_of_continues (Q := fun p r =>
    p.layOut r.parts = some r.layout ∧
      ∀ base ∈ r.bases, ∃ b, p.completeRecord? base.type = some b) ?_ ?_ h id r hr hc).1
  · rintro p q r hpq ⟨hlayout, hbases⟩
    refine ⟨hpq.layOut hbases hlayout, fun base hbase => ?_⟩
    obtain ⟨b, hb⟩ := hbases base hbase
    exact ⟨b, hpq.completeRecord? hb⟩
  · intro d draft r _ _ hc
    have hbases : ∀ base ∈ r.bases, ∃ b, d.program.completeRecord? base.type = some b := by
      intro base hbase
      rw [← hc.bases_parts] at hbase
      obtain ⟨b, hb, -⟩ := hc.completeBase base hbase
      exact ⟨b, hb⟩
    have hlayout := hc.laidOut
    rw [hc.parts_eq] at hlayout
    refine ⟨hc.continues_defineRecord.layOut hbases hlayout, fun base hbase => ?_⟩
    obtain ⟨b, hb⟩ := hbases base hbase
    exact ⟨b, hc.continues_defineRecord.completeRecord? hb⟩

theorem Reachable.laysRecordsOut (h : d.Reachable) (htarget : d.program.target.IsDescribed) :
    d.program.LaysRecordsOut where
  target := htarget
  align id r hr hc := (h.isLaidOut htarget id r hr hc).align
  empty t r hr hempty := by
    obtain ⟨id, -, hr, hc⟩ := Program.completeRecord?_eq_some.1 hr
    exact ((h.isLaidOut htarget id r hr hc).empty hempty).2
  pos t r hr := by
    obtain ⟨id, -, hr, hc⟩ := Program.completeRecord?_eq_some.1 hr
    have hpos := (h.isLaidOut htarget id r hr hc).size_pos
    omega

theorem layoutOf_record {id : RecordId} (hr : d.program.record? id = some r)
    (hc : r.complete = true) : d.program.layoutOf (.record id) = some r.layout := by
  have hcomplete : d.program.completeRecord? (.record id) = some r :=
    Program.completeRecord?_eq_some.2 ⟨id, rfl, hr, hc⟩
  exact Program.memberLayout_of_completeRecord? hcomplete

/-- Two complete records that are the same but for the qualifiers of their data members. -/
theorem Reachable.mayGrow_record (h : d.Reachable) (htarget : d.program.target.IsDescribed)
    {id id' : RecordId} {r r' : Record} (hr : d.program.record? id = some r)
    (hc : r.complete = true) (hr' : d.program.record? id' = some r') (hc' : r'.complete = true)
    (hsame : r.parts.SameUnqualified r'.parts) (hclash : d.program.clashes r.parts = true)
    (hplain : d.program.clashes r'.parts = false) :
    r.layout = r'.layout ∨ r.layout = ⟨r'.layout.size + r'.layout.align, r'.layout.align⟩ := by
  have hgrow := (h.laysRecordsOut htarget).mayGrow_layOut hsame hclash hplain
  rw [h.layOut_parts id r hr hc, h.layOut_parts id' r' hr' hc'] at hgrow
  apply hgrow.same_or_grown.imp
  · exact Option.some.inj
  · intro heq
    rw [Option.bind_some, Layout.grown] at heq
    obtain ⟨size, hsize, heq⟩ := Option.map_eq_some_iff.1 heq.symm
    rw [← heq, (Layout.fits?_eq_some_iff.1 hsize).1]

/-- Qualifiers of data members and layouts: what is laid out from members that differ in their
qualifiers has the same layout if the first member that takes room has the type of an empty base at
the same place in both or in neither. Otherwise the one with such a member is as large as the other
or by its alignment larger, and surely larger if the other has no padding. So it is with complete
records that are the same but for the qualifiers of their data members. -/
theorem layouts_requalified (h : d.Reachable) (htarget : d.program.target.IsDescribed) :
    (∀ parts parts' : RecordParts, parts.SameUnqualified parts' →
      (d.program.clashes parts = d.program.clashes parts' →
        d.program.layOut parts = d.program.layOut parts') ∧
      (d.program.clashes parts = true → d.program.clashes parts' = false →
        Program.MayGrow (d.program.layOut parts) (d.program.layOut parts')
          ((d.program.heldLayouts parts').map (·.size)).sum)) ∧
    ∀ id id' r r', d.program.record? id = some r → r.complete = true →
      d.program.record? id' = some r' → r'.complete = true →
      r.parts.SameUnqualified r'.parts →
      (d.program.clashes r.parts = d.program.clashes r'.parts →
        d.program.sizeOf (.record id) = d.program.sizeOf (.record id') ∧
          d.program.alignOf (.record id) = d.program.alignOf (.record id')) ∧
      (d.program.clashes r.parts = true → d.program.clashes r'.parts = false →
        (d.program.sizeOf (.record id) = some r'.layout.size ∨
          d.program.sizeOf (.record id) = some (r'.layout.size + r'.layout.align)) ∧
        d.program.sizeOf (.record id') = some r'.layout.size ∧
        d.program.alignOf (.record id) = d.program.alignOf (.record id')) := by
  have hlays := h.laysRecordsOut htarget
  refine ⟨fun parts parts' hsame => ⟨hlays.layOut_congr hsame, hlays.mayGrow_layOut hsame⟩, ?_⟩
  intro id id' r r' hr hc hr' hc' hsame
  rw [Program.sizeOf, Program.sizeOf, Program.alignOf, Program.alignOf, layoutOf_record hr hc,
    layoutOf_record hr' hc']
  constructor
  · intro hclash
    have hlayout := hlays.layOut_congr hsame hclash
    rw [h.layOut_parts id r hr hc, h.layOut_parts id' r' hr' hc'] at hlayout
    rw [hlayout]
    exact ⟨rfl, rfl⟩
  · intro hclash hplain
    rcases h.mayGrow_record htarget hr hc hr' hc' hsame hclash hplain with heq | heq
    · rw [heq]
      exact ⟨Or.inl rfl, rfl, rfl⟩
    · rw [heq]
      exact ⟨Or.inr rfl, rfl, rfl⟩

/-- An empty class, a class that has it as its base and as its first member, and a copy of that
class whose member is `const`. -/
def emptyTwice : Development :=
  run .lp64
    [.start "Tag" .struct,
      .finish ⟨1⟩,
      .start "Twice" .struct,
      .write ⟨2⟩ (.base (.record ⟨1⟩)),
      .write ⟨2⟩ (.member "tag" (.record ⟨1⟩)),
      .finish ⟨2⟩,
      .start "ConstTwice" .struct,
      .write ⟨3⟩ (.base (.record ⟨1⟩)),
      .write ⟨3⟩ (.member "tag" (.qualified (.record ⟨1⟩) .const)),
      .finish ⟨3⟩]

theorem reachable_emptyTwice : emptyTwice.Reachable := by
  refine (Reachable.fresh .lp64).performAll ?_
  intro a ha
  simp only [List.mem_cons, List.not_mem_nil, or_false] at ha
  rcases ha with rfl | rfl | rfl | rfl | rfl | rfl | rfl | rfl | rfl | rfl
  all_goals first | trivial | exact RecordStep.isWritten_of_types rfl (by decide)

/-- What a class with the empty class as its base and one data member is laid out from. -/
def besideTag (t : Ty) : RecordParts where
  isUnion := false
  dynamic := false
  bases := [⟨.record ⟨1⟩, .pub, false⟩]
  members := [t]

theorem parts_emptyTwice {id : RecordId} {t : Ty}
    (h : ((emptyTwice.program.record? id).map fun r => (r.complete, r.isUnion, r.facts.dynamic,
      r.bases, r.members.map (·.type))) = some (true, false, false, (besideTag t).bases, [t])) :
    ∃ r, emptyTwice.program.record? id = some r ∧ r.complete = true ∧ r.parts = besideTag t := by
  obtain ⟨r, hr, heq⟩ := Option.map_eq_some_iff.1 h
  simp only [Prod.mk.injEq] at heq
  obtain ⟨hc, hunion, hdynamic, hbases, hmembers⟩ := heq
  refine ⟨r, hr, hc, ?_⟩
  rw [Record.parts, hunion, hdynamic, hbases, hmembers]
  rfl

/-- With the qualifier the first member shares offset zero with the base, and without it lies at
offset one. -/
theorem layouts_requalified_emptyTwice : emptyTwice.Reachable ∧
    emptyTwice.program.target.IsDescribed ∧
    ∃ r r', emptyTwice.program.record? ⟨2⟩ = some r ∧ emptyTwice.program.record? ⟨3⟩ = some r' ∧
      r.complete = true ∧ r'.complete = true ∧ r.parts.SameUnqualified r'.parts ∧
      emptyTwice.program.clashes r.parts = true ∧ emptyTwice.program.clashes r'.parts = false ∧
      emptyTwice.program.layOut r.parts = some ⟨2, 1⟩ ∧
      emptyTwice.program.layOut r'.parts = some ⟨1, 1⟩ ∧
      emptyTwice.program.sizeOf (.record ⟨2⟩) = some 2 ∧
      emptyTwice.program.sizeOf (.record ⟨3⟩) = some 1 ∧
      emptyTwice.program.alignOf (.record ⟨2⟩) = emptyTwice.program.alignOf (.record ⟨3⟩) := by
  have hlp64 : emptyTwice.program.target = .lp64 := by decide +kernel
  have htarget : emptyTwice.program.target.IsDescribed := hlp64 ▸ Target.isDescribed_lp64
  obtain ⟨r, hr, hc, hparts⟩ :=
    @parts_emptyTwice ⟨2⟩ (.record ⟨1⟩) (by decide +kernel)
  obtain ⟨r', hr', hc', hparts'⟩ :=
    @parts_emptyTwice ⟨3⟩ (.qualified (.record ⟨1⟩) .const) (by decide +kernel)
  have hsame : r.parts.SameUnqualified r'.parts := by
    rw [hparts, hparts']
    exact ((besideTag (.qualified (.record ⟨1⟩) .const)).sameUnqualified_map (by decide)).symm
  have hclash : emptyTwice.program.clashes r.parts = true := by
    rw [hparts]
    decide +kernel
  have hplain : emptyTwice.program.clashes r'.parts = false := by
    rw [hparts']
    decide +kernel
  have hlayout : emptyTwice.program.layOut r'.parts = some ⟨1, 1⟩ := by
    rw [hparts']
    decide +kernel
  obtain ⟨hlayouts, hrecords⟩ := layouts_requalified reachable_emptyTwice htarget
  have hgrown := ((hlayouts _ _ hsame).2 hclash hplain).grown _ hlayout (by
    rw [hparts']
    decide +kernel)
  exact ⟨reachable_emptyTwice, htarget, r, r', hr, hr', hc, hc', hsame, hclash, hplain, hgrown,
    hlayout, by decide +kernel, by decide +kernel,
    ((hrecords _ _ r r' hr hc hr' hc' hsame).2 hclash hplain).2.2⟩

end Development

end TypeTraits
