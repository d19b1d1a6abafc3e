import TypeTraits.Proofs.Layout.Padding
import TypeTraits.Proofs.Ty.NormalForm

/-!
# Data members with other qualifiers

A type and its unqualified version have one layout, whether the qualifiers stand on the type or on
the elements of an array. What the qualifiers of a data member are matters at offset zero only: a
member that takes room there moves the end of the record on if an empty base has the very same
type. So records whose members differ in their qualifiers have the same layout if this happens in
both or in neither; else one is as large as the other or by its alignment larger.
-/

namespace TypeTraits

namespace Ty

/-- Whether two types are the same but for qualifiers. -/
structure SameUnqualified (t u : Ty) : Prop where
  left : t.isNormal = true
  right : u.isNormal = true
  unqualified : t.unqualified = u.unqualified

theorem isNormal_unqualified {t : Ty} (h : t.isNormal = true) : t.unqualified.isNormal = true := by
  induction t using Ty.inductionOn with
  | qualified t cv _ =>
    rw [unqualified_qualified]
    simp only [isNormal, Bool.and_eq_true] at h
    exact h.2
  | array t b ih =>
    have ht : t.isNormal = true := h
    rw [unqualified_array ht]
    exact ih ht
  | _ => exact h

theorem sameUnqualified_unqualified {t : Ty} (h : t.isNormal = true) :
    t.SameUnqualified t.unqualified :=
  ⟨h, isNormal_unqualified h, (unqualified_unqualified h).symm⟩

end Ty

/-- Whether what two records are laid out from is the same but for qualifiers of data members. -/
structure RecordParts.SameUnqualified (parts parts' : RecordParts) : Prop where
  isUnion : parts.isUnion = parts'.isUnion
  dynamic : parts.dynamic = parts'.dynamic
  bases : parts.bases = parts'.bases
  members : List.Forall₂ Ty.SameUnqualified parts.members parts'.members

namespace Program

open Layout Placement

variable {p : Program} {s s' : Placement}

theorem layoutStep_unqualified {underlying : Enumeration → Option (Option Layout)} {t : Ty}
    (h : t.isNormal = true) :
    p.layoutStep underlying t.unqualified = p.layoutStep underlying t := by
  induction t using Ty.inductionOn with
  | qualified t cv _ =>
    rw [Ty.unqualified_qualified]
    cases t with
    | qualified _ _ | lvalueRef _ | rvalueRef _ => simp [Ty.isNormal, Ty.takesQualifier] at h
    | _ => rfl
  | array t b ih =>
    have ht : t.isNormal = true := h
    rw [Ty.unqualified_array ht, layoutStep, ih ht, layoutStep]
  | _ => rfl

/-- A type is laid out as its unqualified version is. -/
theorem layoutOf_unqualified {t : Ty} (h : t.isNormal = true) :
    p.layoutOf t.unqualified = p.layoutOf t :=
  congrArg Option.join (layoutStep_unqualified h)

theorem isReference_unqualified {t : Ty} (h : t.isNormal = true) :
    t.unqualified.isReference = t.isReference := by
  cases t with
  | qualified t cv =>
    cases t with
    | qualified _ _ | lvalueRef _ | rvalueRef _ => simp [Ty.isNormal, Ty.takesQualifier] at h
    | _ => rfl
  | array t b =>
    have ht : t.isNormal = true := h
    rw [Ty.unqualified_array ht]
    rfl
  | _ => rfl

theorem memberLayout_of_sameUnqualified {t u : Ty} (h : t.SameUnqualified u) :
    p.memberLayout t = p.memberLayout u := by
  rw [memberLayout, memberLayout, ← isReference_unqualified h.left, ← layoutOf_unqualified h.left,
    h.unqualified, isReference_unqualified h.right, layoutOf_unqualified h.right]

/-- A complete record is a data member with its own layout. -/
theorem memberLayout_of_completeRecord? {t : Ty} {r : Record} (h : p.completeRecord? t = some r) :
    p.memberLayout t = some r.layout := by
  obtain ⟨id, hid, hr, hc⟩ := completeRecord?_eq_some.1 h
  have hstep : p.layoutOf (.record id) = some r.layout := by
    simp [layoutOf, layoutWithin, layoutStep, hr, hc, Option.filter_some]
  cases t with
  | qualified t cv =>
    cases t <;> simp only [Ty.recordId?, Ty.core, Option.some.injEq, reduceCtorEq] at hid
    rw [hid] at *
    exact hstep
  | record id' =>
    cases hid
    exact hstep
  | _ => simp [Ty.recordId?, Ty.core] at hid

/-- The first data member that takes room. -/
def firstWithRoom? (p : Program) (members : List Ty) : Option Ty :=
  members.find? (p.memberSize · != 0)

theorem firstWithRoom?_cons_of_eq {t : Ty} (h : p.memberSize t = 0) (ts : List Ty) :
    p.firstWithRoom? (t :: ts) = p.firstWithRoom? ts :=
  List.find?_cons_of_neg (by simp [h])

theorem firstWithRoom?_cons_of_ne {t : Ty} (h : p.memberSize t ≠ 0) (ts : List Ty) :
    p.firstWithRoom? (t :: ts) = some t :=
  List.find?_cons_of_pos (by simpa using h)

/-- Whether the first data member that takes room lies at offset zero and has the very type of an
empty base there. -/
def clashes (p : Program) (parts : RecordParts) : Bool :=
  !parts.isUnion &&
    (parts.bases.foldlM p.placeBase (p.startPlacement parts)).any fun s =>
      s.offset == 0 && (p.firstWithRoom? parts.members).any (· ∈ s.emptyAtZero)

/-- What comes to lie at offset zero are empty classes. -/
theorem emptyAtZero_placeBase {base : BaseClass} (h : p.placeBase s base = some s') :
    ∀ t ∈ s'.emptyAtZero, t ∈ s.emptyAtZero ∨ ∃ r, p.completeRecord? t = some r := by
  rw [placeBase] at h
  split at h
  · cases h
    exact fun t ht => Or.inl ht
  · split at h
    · cases h
      exact fun t ht => Or.inl ht
    · next r hr =>
      split at h
      · split at h
        · cases h
          intro t ht
          rcases List.mem_cons.1 ht with rfl | ht
          · exact Or.inr ⟨r, hr⟩
          · exact Or.inl ht
        · rw [place_eq_some h]
          exact fun t ht => Or.inl ht
      · rw [place_eq_some h]
        exact fun t ht => Or.inl ht

theorem emptyAtZero_placeBases {bases : List BaseClass}
    (h : bases.foldlM p.placeBase s = some s')
    (hs : ∀ t ∈ s.emptyAtZero, ∃ r, p.completeRecord? t = some r) :
    ∀ t ∈ s'.emptyAtZero, ∃ r, p.completeRecord? t = some r := by
  induction bases generalizing s with
  | nil =>
    cases h
    exact hs
  | cons base bases ih =>
    rw [List.foldlM_cons, Option.bind_eq_bind, Option.bind_eq_some_iff] at h
    obtain ⟨next, hnext, h⟩ := h
    exact ih h fun t ht => (emptyAtZero_placeBase hnext t ht).elim (hs t) id

theorem emptyAtZero_startPlacement (parts : RecordParts) :
    (p.startPlacement parts).emptyAtZero = [] := by
  rw [startPlacement]
  split <;> rfl

theorem emptyAtZero_placeMember {t : Ty} (h : p.placeMember s t = some s') :
    s'.emptyAtZero = s.emptyAtZero := by
  obtain ⟨l, -, h⟩ := Option.bind_eq_some_iff.1 h
  obtain ⟨next, hnext, h⟩ := Option.bind_eq_some_iff.1 h
  have hkept : next.emptyAtZero = s.emptyAtZero := by rw [place_eq_some hnext]
  split at h
  · obtain ⟨offset, -, h⟩ := Option.bind_eq_some_iff.1 h
    cases h
    exact hkept
  · cases h
    exact hkept

/-- A member that leaves the placement at offset zero takes no room. -/
theorem offset_placeMember {t : Ty} (h : p.placeMember s t = some s') (hzero : s'.offset = 0) :
    s.offset = 0 ∧ p.memberSize t = 0 := by
  obtain ⟨l, hl, -⟩ := Option.bind_eq_some_iff.1 h
  have hroom := (adds_placeMember hl h).room
  rw [memberSize, hl]
  simp only [List.map_cons, List.map_nil, List.sum_cons, List.sum_nil] at hroom
  constructor
  · omega
  · simp only [Option.map_some, Option.getD_some]
    omega

/-- Members with the same layouts are placed alike if the first that takes room clashes with an
empty base in both lists or in neither. -/
theorem placeMembers_eq {ts us : List Ty} (hpos : ∀ t ∈ s.emptyAtZero, p.memberSize t ≠ 0)
    (hsame : List.Forall₂ (fun t u => p.memberLayout t = p.memberLayout u) ts us)
    (hclash : s.offset = 0 → (p.firstWithRoom? ts).any (· ∈ s.emptyAtZero) =
      (p.firstWithRoom? us).any (· ∈ s.emptyAtZero)) :
    ts.foldlM p.placeMember s = us.foldlM p.placeMember s := by
  induction hsame generalizing s with
  | nil => rfl
  | @cons t u ts us htu _ ih =>
    have hsize : p.memberSize t = p.memberSize u := by rw [memberSize, memberSize, htu]
    have hstep : p.placeMember s t = p.placeMember s u := by
      by_cases hzero : s.offset = 0
      · have hmem : t ∈ s.emptyAtZero ↔ u ∈ s.emptyAtZero := by
          by_cases hroom : p.memberSize u = 0
          · exact iff_of_false (fun ht => hpos t ht (hsize.trans hroom)) fun hu => hpos u hu hroom
          · have hclash := hclash hzero
            rw [firstWithRoom?_cons_of_ne hroom, firstWithRoom?_cons_of_ne (hsize ▸ hroom)] at hclash
            simpa using hclash
        simp only [placeMember, htu, hmem]
      · simp [placeMember, htu, hzero]
    rw [List.foldlM_cons, List.foldlM_cons, hstep]
    cases hnext : p.placeMember s u with
    | none => rfl
    | some next =>
      have hempties := emptyAtZero_placeMember hnext
      apply ih
      · rw [hempties]
        exact hpos
      · intro hzero
        obtain ⟨hzero, hroom⟩ := offset_placeMember hnext hzero
        have hclash := hclash hzero
        rwa [firstWithRoom?_cons_of_eq hroom, firstWithRoom?_cons_of_eq (hsize.trans hroom),
          ← hempties] at hclash

theorem layOutFrom_cons (t : Ty) (ts : List Ty) :
    p.layOutFrom s (t :: ts) = (p.placeMember s t).bind fun next => p.layOutFrom next ts := by
  rw [layOutFrom, List.foldlM_cons, Option.bind_eq_bind, Option.bind_eq_bind, Option.bind_assoc]
  rfl

/-- A record of which some data member has no layout has none. -/
theorem layOutFrom_of_not_laid {ts : List Ty} (h : ¬∀ t ∈ ts, ∃ l, p.memberLayout t = some l) :
    p.layOutFrom s ts = none := by
  cases hplaced : ts.foldlM p.placeMember s with
  | none => rw [layOutFrom, hplaced, Option.bind_eq_bind, Option.bind_none]
  | some s' => exact absurd (memberLayout_of_placeMember hplaced) h

theorem placeMember_of_notMem {t : Ty} {l : Layout} (hl : p.memberLayout t = some l)
    (ht : t ∉ s.emptyAtZero) : p.placeMember s t = s.add? [l] := by
  simp [placeMember, hl, ht, place_eq]

theorem laterItems_after (items : List Layout) (ts : List Ty) :
    p.laterItems (s.after items) ts = p.laterItems s ts := rfl

/-- A member at offset zero that does not clash is the first of a row of objects. -/
theorem layOutFrom_cons_of_notMem (hempty : p.EmptiesUnaligned) {u : Ty} {us : List Ty} {l : Layout}
    (hl : p.memberLayout u = some l) (hus : ∀ t ∈ us, ∃ l, p.memberLayout t = some l)
    (hzero : s.offset = 0) (hroom : 0 < l.size) (hu : u ∉ s.emptyAtZero) :
    p.layOutFrom s (u :: us) = finished (endOf l.size (p.laterItems s us))
      (greatestAlign (max s.align l.align) (p.laterItems s us)) := by
  have hend : endOf s.offset [l] = l.size := by simp [hzero]
  rw [layOutFrom_cons, placeMember_of_notMem hl hu, add?, hend]
  split
  · next hlt =>
    have hoffset : (s.after [l]).offset = l.size := hend
    rw [Option.bind_some, layOutFrom_of_pos hempty hus (by omega) (by omega), hoffset,
      laterItems_after]
    rfl
  · have hle := le_endOf l.size (p.laterItems s us)
    rw [finished_of_le (by omega), Option.bind_none]

/-- One that clashes makes the rest start later by its alignment. -/
theorem layOutFrom_cons_of_mem (hempty : p.EmptiesUnaligned) {t : Ty} {ts : List Ty} {l : Layout}
    (hl : p.memberLayout t = some l) (hts : ∀ t ∈ ts, ∃ l, p.memberLayout t = some l)
    (hzero : s.offset = 0) (hroom : 0 < l.size) (ht : t ∈ s.emptyAtZero) :
    p.layOutFrom s (t :: ts) = finished (endOf (l.size + l.align) (p.laterItems s ts))
      (greatestAlign (max s.align l.align) (p.laterItems s ts)) := by
  have hend : endOf s.offset [l] = l.size := by simp [hzero]
  have hplaced : p.placeMember s t = (s.add? [l]).bind fun next =>
      (fits? (next.offset + l.align)).map fun offset => { next with offset } := by
    simp only [placeMember, hl, hzero, ht, and_self, if_true, place_eq, Option.bind_eq_bind,
      Option.bind_some, Option.map_eq_bind]
    rfl
  have hle := le_endOf (l.size + l.align) (p.laterItems s ts)
  rw [layOutFrom_cons, hplaced, add?, hend]
  by_cases hlt : l.size + l.align < limit
  · have hoffset : (s.after [l]).offset = l.size := hend
    rw [if_pos (by omega), Option.bind_some, hoffset, fits?_of_lt hlt, Option.map_some,
      Option.bind_some, layOutFrom_of_pos hempty hts (by simp only; omega) hlt]
    rfl
  · rw [finished_of_le (by omega)]
    split
    · have hoffset : (s.after [l]).offset = l.size := hend
      rw [Option.bind_some, hoffset, fits?_of_le (by omega), Option.map_none, Option.bind_none]
    · rfl

/-- Whether a layout is another one or that by its alignment larger, and surely larger where the
other one has no room but for its parts. -/
structure MayGrow (layout? plain? : Option Layout) (room : Nat) : Prop where
  same_or_grown : layout? = plain? ∨ layout? = plain?.bind grown
  grown : ∀ l, plain? = some l → l.size = room → layout? = l.grown

theorem MayGrow.none (room : Nat) : MayGrow .none .none room := ⟨Or.inl rfl, by simp⟩

theorem exists_memberLayout_congr {ts us : List Ty}
    (h : List.Forall₂ (fun t u => p.memberLayout t = p.memberLayout u) ts us)
    (hus : ∀ u ∈ us, ∃ l, p.memberLayout u = some l) :
    ∀ t ∈ ts, ∃ l, p.memberLayout t = some l := by
  induction h with
  | nil => exact hus
  | cons htu _ ih =>
    obtain ⟨hu, hus⟩ := List.forall_mem_cons.1 hus
    exact List.forall_mem_cons.2 ⟨htu ▸ hu, ih hus⟩

theorem laterItems_congr {ts us : List Ty}
    (h : List.Forall₂ (fun t u => p.memberLayout t = p.memberLayout u) ts us) :
    p.laterItems s ts = p.laterItems s us := by
  rw [laterItems, laterItems]
  congr 1
  induction h with
  | nil => rfl
  | cons htu _ ih => rw [List.flatMap_cons, List.flatMap_cons, htu, ih]

theorem sum_laterItems_cons {t : Ty} {ts : List Ty} {l : Layout} (hl : p.memberLayout t = some l) :
    ((p.laterItems s (t :: ts)).map (·.size)).sum =
      l.size + ((p.laterItems s ts).map (·.size)).sum := by
  rw [laterItems, List.flatMap_cons, hl, Option.toList_some, List.append_assoc, List.map_append,
    List.sum_append]
  rfl

section Alignment

variable (htarget : p.target.IsDescribed) (hrecords : p.AlignsRecords)

include htarget hrecords

theorem isPowerOfTwo_laterItems (ts : List Ty) :
    ∀ l ∈ p.laterItems s ts, l.align.isPowerOfTwo := by
  intro l hl
  rcases List.mem_append.1 hl with hl | hl
  · obtain ⟨t, -, hl⟩ := List.mem_flatMap.1 hl
    exact isPowerOfTwo_memberLayout htarget.alignsScalars hrecords (Option.mem_toList.1 hl)
  · obtain ⟨t, -, hl⟩ := List.mem_flatMap.1 hl
    exact isPowerOfTwo_baseItems hrecords hl

theorem isPowerOfTwo_placeBases {parts : RecordParts}
    (h : parts.bases.foldlM p.placeBase (p.startPlacement parts) = some s) :
    s.align.isPowerOfTwo := by
  have hstart : (p.startPlacement parts).align.isPowerOfTwo := by
    rw [startPlacement]
    split
    · exact htarget.pointer.2
    · exact Nat.isPowerOfTwo_one
  rw [(adds_placeBases h).align]
  refine (isPowerOfTwo_greatestAlign hstart fun l hl => ?_).1
  obtain ⟨base, -, hl⟩ := List.mem_flatMap.1 hl
  split at hl
  · cases hl
  · exact isPowerOfTwo_baseItems hrecords hl

/-- Where one member clashes and the other does not, the record may grow. -/
theorem mayGrow_cons (hempty : p.EmptiesUnaligned) {t u : Ty} {ts us : List Ty} {l : Layout}
    (hl : p.memberLayout t = some l) (hl' : p.memberLayout u = some l)
    (hsame : List.Forall₂ (fun t u => p.memberLayout t = p.memberLayout u) ts us)
    (hus : ∀ u ∈ us, ∃ l, p.memberLayout u = some l) (hzero : s.offset = 0)
    (hs : s.align.isPowerOfTwo) (hroom : 0 < l.size) (ht : t ∈ s.emptyAtZero)
    (hu : u ∉ s.emptyAtZero) :
    MayGrow (p.layOutFrom s (t :: ts)) (p.layOutFrom s (u :: us))
      ((p.laterItems s (u :: us)).map (·.size)).sum := by
  have hitems : p.laterItems s ts = p.laterItems s us := laterItems_congr hsame
  have hts := exists_memberLayout_congr hsame hus
  have hlalign : l.align.isPowerOfTwo := isPowerOfTwo_memberLayout htarget.alignsScalars hrecords hl
  obtain ⟨hmax, -, hldvd⟩ := isPowerOfTwo_max hs hlalign
  obtain ⟨hgreatest, hdvd, hcovers⟩ :=
    isPowerOfTwo_greatestAlign hmax (isPowerOfTwo_laterItems (s := s) htarget hrecords us)
  have hpos := Nat.pos_of_isPowerOfTwo hgreatest
  have hle := Nat.le_of_dvd hpos (hldvd.trans hdvd)
  rw [layOutFrom_cons_of_mem hempty hl hts hzero hroom ht,
    layOutFrom_cons_of_notMem hempty hl' hus hzero hroom hu, hitems]
  constructor
  · exact finished_endOf_cases hroom hpos hcovers hle
  · intro whole hwhole htight
    have hsize : whole.size = roundUp (endOf l.size (p.laterItems s us))
        (greatestAlign (max s.align l.align) (p.laterItems s us)) := by
      have hend := le_endOf l.size (p.laterItems s us)
      rw [finished_eq_some hwhole, Nat.max_eq_left (show 1 ≤ _ by omega)]
    rw [sum_laterItems_cons hl', hsize] at htight
    rw [finished_endOf_of_tight hroom (Nat.pos_of_isPowerOfTwo hlalign) hpos hcovers hle htight,
      hwhole, Option.bind_some]

/-- Members that take no room come first; the first that does decides. -/
theorem mayGrow_layOutFrom (hempty : p.EmptiesUnaligned)
    (hpos : ∀ t ∈ s.emptyAtZero, p.memberSize t ≠ 0) {ts us : List Ty}
    (hsame : List.Forall₂ (fun t u => p.memberLayout t = p.memberLayout u) ts us)
    (hus : ∀ u ∈ us, ∃ l, p.memberLayout u = some l) (hzero : s.offset = 0)
    (hs : s.align.isPowerOfTwo) (ht : (p.firstWithRoom? ts).any (· ∈ s.emptyAtZero) = true)
    (hu : (p.firstWithRoom? us).any (· ∈ s.emptyAtZero) = false) :
    MayGrow (p.layOutFrom s ts) (p.layOutFrom s us)
      ((p.laterItems s us).map (·.size)).sum := by
  induction hsame generalizing s with
  | nil => simp [hu] at ht
  | @cons t u ts us htu hsame ih =>
    obtain ⟨⟨l, hl'⟩, hus⟩ := List.forall_mem_cons.1 hus
    have hl : p.memberLayout t = some l := htu.trans hl'
    have htsize : p.memberSize t = l.size := by simp [memberSize, hl]
    have husize : p.memberSize u = l.size := by simp [memberSize, hl']
    rcases Nat.eq_zero_or_pos l.size with hroom | hroom
    · have htmem : t ∉ s.emptyAtZero := fun h => hpos t h (htsize.trans hroom)
      have humem : u ∉ s.emptyAtZero := fun h => hpos u h (husize.trans hroom)
      have hend : endOf s.offset [l] = 0 := by simp [hzero, hroom]
      rw [firstWithRoom?_cons_of_eq (htsize.trans hroom)] at ht
      rw [firstWithRoom?_cons_of_eq (husize.trans hroom)] at hu
      rw [layOutFrom_cons, layOutFrom_cons, placeMember_of_notMem hl htmem,
        placeMember_of_notMem hl' humem, sum_laterItems_cons hl', hroom, Nat.zero_add,
        add?, if_pos (by rw [hend]; decide), Option.bind_some, Option.bind_some]
      refine ih hpos hus hend ?_ ht hu
      exact (isPowerOfTwo_max hs (isPowerOfTwo_memberLayout htarget.alignsScalars hrecords hl)).1
    · rw [firstWithRoom?_cons_of_ne (by omega)] at ht hu
      apply mayGrow_cons htarget hrecords hempty hl hl' hsame hus hzero hs hroom
      · simpa using ht
      · simpa using hu

end Alignment

/-- Whether the layouts of the complete records are as those of reachable programs are. -/
structure LaysRecordsOut (p : Program) : Prop where
  target : p.target.IsDescribed
  align : p.AlignsRecords
  empty : p.EmptiesUnaligned
  pos : ∀ t r, p.completeRecord? t = some r → r.layout.size ≠ 0

variable {parts parts' : RecordParts}

theorem LaysRecordsOut.memberSize_ne (h : p.LaysRecordsOut)
    (hbases : parts.bases.foldlM p.placeBase (p.startPlacement parts) = some s) :
    ∀ t ∈ s.emptyAtZero, p.memberSize t ≠ 0 := by
  intro t ht
  obtain ⟨r, hr⟩ := emptyAtZero_placeBases hbases (by simp [emptyAtZero_startPlacement]) t ht
  have hpos := h.pos t r hr
  simpa [memberSize, memberLayout_of_completeRecord? hr] using hpos

theorem forall₂_memberLayout (h : parts.SameUnqualified parts') :
    List.Forall₂ (fun t u => p.memberLayout t = p.memberLayout u) parts.members parts'.members :=
  h.members.imp fun _ _ => memberLayout_of_sameUnqualified

theorem placeBases_congr (h : parts.SameUnqualified parts') :
    parts.bases.foldlM p.placeBase (p.startPlacement parts) =
      parts'.bases.foldlM p.placeBase (p.startPlacement parts') := by
  rw [startPlacement, startPlacement, h.dynamic, h.bases]

theorem layOutUnion_congr {ts us : List Ty}
    (h : List.Forall₂ (fun t u => p.memberLayout t = p.memberLayout u) ts us) :
    p.layOutUnion ts = p.layOutUnion us := by
  have hfold : ∀ whole : Layout, ts.foldlM (fun (whole : Layout) t => do
        let layout ← p.memberLayout t
        return ⟨max whole.size layout.size, max whole.align layout.align⟩) whole =
      us.foldlM (fun (whole : Layout) t => do
        let layout ← p.memberLayout t
        return ⟨max whole.size layout.size, max whole.align layout.align⟩) whole := by
    induction h with
    | nil => exact fun _ => rfl
    | cons htu _ ih =>
      intro whole
      rw [List.foldlM_cons, List.foldlM_cons, htu]
      exact bind_congr ih
  rw [layOutUnion, hfold, layOutUnion]

/-- Other qualifiers on data members leave the layout as it is, if the same member clashes with an
empty base as before. -/
theorem LaysRecordsOut.layOut_congr (h : p.LaysRecordsOut) (hsame : parts.SameUnqualified parts')
    (hclash : p.clashes parts = p.clashes parts') : p.layOut parts = p.layOut parts' := by
  have hmembers := forall₂_memberLayout (p := p) hsame
  cases hunion : parts.isUnion with
  | true =>
    rw [layOut, layOut, ← hsame.isUnion, hunion, if_pos rfl, if_pos rfl]
    exact layOutUnion_congr hmembers
  | false =>
    have hunion' : parts'.isUnion = false := hsame.isUnion ▸ hunion
    rw [layOut_eq hunion, layOut_eq hunion', ← placeBases_congr hsame]
    cases hbases : parts.bases.foldlM p.placeBase (p.startPlacement parts) with
    | none => rfl
    | some s =>
      have hplaced := placeMembers_eq (h.memberSize_ne hbases) hmembers fun hzero => by
        simpa [clashes, hunion, hunion', ← placeBases_congr hsame, hbases, hzero] using hclash
      rw [Option.bind_some, Option.bind_some, layOutFrom, hplaced]
      rfl

/-- If a member clashes that did not, the record stays as large or grows. -/
theorem LaysRecordsOut.mayGrow_layOut (h : p.LaysRecordsOut) (hsame : parts.SameUnqualified parts')
    (hclash : p.clashes parts = true) (hplain : p.clashes parts' = false) :
    MayGrow (p.layOut parts) (p.layOut parts') ((p.heldLayouts parts').map (·.size)).sum := by
  have hmembers := forall₂_memberLayout (p := p) hsame
  rw [clashes, Bool.and_eq_true, Bool.not_eq_true', Option.any_eq_true] at hclash
  obtain ⟨hunion, s, hbases, hclash⟩ := hclash
  obtain ⟨hzero, hclash⟩ := Bool.and_eq_true_iff.1 hclash
  have hunion' : parts'.isUnion = false := hsame.isUnion ▸ hunion
  have hbases' := (placeBases_congr hsame).symm.trans hbases
  replace hzero : s.offset = 0 := by simpa using hzero
  replace hplain : (p.firstWithRoom? parts'.members).any (· ∈ s.emptyAtZero) = false := by
    simpa [clashes, hunion', hbases', hzero] using hplain
  have hroom : ((p.heldLayouts parts').map (·.size)).sum =
      ((p.laterItems s parts'.members).map (·.size)).sum := by
    have hnone := (adds_placeBases hbases').room
    have hperm := ((perm_virtualBases hbases').flatMap_right p.baseItems).map (·.size)
    simp only [heldLayouts, laterItems, List.map_append, List.sum_append, hperm.sum_eq]
    omega
  rw [layOut_eq hunion, layOut_eq hunion', hbases, hbases', Option.bind_some, Option.bind_some,
    hroom]
  by_cases hlaid : ∀ u ∈ parts'.members, ∃ l, p.memberLayout u = some l
  · exact mayGrow_layOutFrom h.target h.align h.empty (h.memberSize_ne hbases) hmembers hlaid hzero
      (isPowerOfTwo_placeBases h.target h.align hbases) hclash hplain
  · have hback := hmembers.flip.imp fun _ _ heq => heq.symm
    rw [layOutFrom_of_not_laid hlaid,
      layOutFrom_of_not_laid fun hts => hlaid (exists_memberLayout_congr hback hts)]
    exact .none _

end Program

end TypeTraits
