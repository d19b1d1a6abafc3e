import TypeTraits.Proofs.Config.TargetText
import TypeTraits.Proofs.Record.Layout

/-!
# Targets of configurations

A configuration takes any target whose sizes and alignments have 64 bits, without the check that
the text of a target has to pass. On such a target the complete records of every program have
alignments that fit their sizes and those of their members exactly if the alignments of the scalar
types are powers of two: one scalar type that is aligned otherwise is enough for a record that is,
too.
-/

namespace TypeTraits

/-- Whether the alignment of a record is one that an object can have: a power of two that divides
the size, which is not zero, and that the alignments of the data members divide. -/
structure Record.HasSoundAlignment (r : Record) (p : Program) : Prop where
  align : r.layout.align.isPowerOfTwo
  size_pos : 0 < r.layout.size
  align_dvd_size : r.layout.align ∣ r.layout.size
  /-- A reference counts as a pointer here, see `Program.memberLayout`. -/
  member : ∀ m ∈ r.members, ∃ l, p.memberLayout m.type = some l ∧ l.align ∣ r.layout.align

theorem Record.HasSoundLayout.hasSoundAlignment {r : Record} {p : Program}
    (h : r.HasSoundLayout p) : r.HasSoundAlignment p :=
  ⟨h.align, h.size_pos, h.align_dvd_size, h.member⟩

/-- Whether all complete records of all programs for a target have sound alignments. -/
def Target.AlignsRecords (target : Target) : Prop :=
  ∀ d : Development, d.Reachable → d.program.target = target →
    ∀ id r, d.program.record? id = some r → r.complete = true → r.HasSoundAlignment d.program

section ScalarMember

/-- A type for each of the scalar layouts of a target. -/
def scalarTypes : List Ty :=
  [.builtin .bool, .builtin .char, .builtin .wchar, .builtin .char16, .builtin .char32,
    .builtin .short, .builtin .int, .builtin .long, .builtin .longLong, .builtin .int128,
    .builtin .float, .builtin .double, .builtin .longDouble, .pointer .void,
    .memberPointer (.record ⟨1⟩) (.builtin .int),
    .memberPointer (.record ⟨1⟩) (.function .void [] {})]

variable {p : Program} {t : Ty} {l : Layout}

theorem layoutOf_scalarTypes (p : Program) :
    scalarTypes.map p.layoutOf = p.target.scalarLayouts.map some := rfl

theorem exists_mem_scalarTypes (hl : l ∈ p.target.scalarLayouts) :
    ∃ t ∈ scalarTypes, p.layoutOf t = some l := by
  have hmem : some l ∈ scalarTypes.map p.layoutOf :=
    layoutOf_scalarTypes p ▸ List.mem_map_of_mem hl
  exact List.mem_map.1 hmem

theorem layoutOf_congr {q : Program} (htarget : p.target = q.target) (ht : t ∈ scalarTypes) :
    p.layoutOf t = q.layoutOf t := by
  have hmap : scalarTypes.map p.layoutOf = scalarTypes.map q.layoutOf := by
    rw [layoutOf_scalarTypes, layoutOf_scalarTypes, htarget]
  exact List.map_inj_left.1 hmap t ht

theorem isNormal_of_mem_scalarTypes (ht : t ∈ scalarTypes) : t.isNormal = true := by
  have hall : scalarTypes.all Ty.isNormal = true := by decide
  exact List.all_eq_true.1 hall t ht

theorem isCompleteObject_of_mem_scalarTypes (ht : t ∈ scalarTypes) :
    p.isCompleteObject t = true := by
  have hall : scalarTypes.all p.isCompleteObject = true := rfl
  exact List.all_eq_true.1 hall t ht

/-- An array without elements has no size but the alignment of an element. -/
theorem memberLayout_noElements (h : p.layoutOf t = some l) :
    p.memberLayout (.array t (some 0)) = some ⟨0, l.align⟩ :=
  Option.join_eq_some_iff.2 <| Program.layoutStep_array.2
    ⟨l, 0, Option.join_eq_some_iff.1 h, rfl, by simp [Layout.limit], by simp⟩

/-- A class with an array without elements as its only member is as large as its alignment, which
is that of an element. -/
theorem layOut_noElements (h : p.layoutOf t = some l) (hlt : l.align < Layout.limit) :
    p.layOut { isUnion := false, dynamic := false, bases := [], members := [.array t (some 0)] } =
      some ⟨max 1 l.align, max 1 l.align⟩ := by
  have hone : (1 : Nat) < Layout.limit := by decide
  have hplaced : ({} : Placement).place ⟨0, l.align⟩ = some { align := max 1 l.align } := by
    simp [Placement.place, Layout.place?, Layout.roundUp?, Layout.fits?, Layout.limit]
  have hmember : p.placeMember {} (.array t (some 0)) = some { align := max 1 l.align } := by
    rw [Program.placeMember, memberLayout_noElements h, Option.bind_eq_bind, Option.bind_some,
      hplaced]
    rfl
  have hround : Layout.roundUp 1 (max 1 l.align) = max 1 l.align := by
    have hle := Layout.align_le_roundUp Nat.one_pos (max 1 l.align)
    have hlt := Layout.roundUp_lt 1 (max 1 l.align)
    omega
  have hfinish : ({ align := max 1 l.align } : Placement).finish =
      some ⟨max 1 l.align, max 1 l.align⟩ := by
    have hfits : Layout.roundUp? 1 (max 1 l.align) = some (max 1 l.align) :=
      Layout.fits?_eq_some_iff.2 ⟨hround, by omega⟩
    simp [Placement.finish, hfits]
  simp [Program.layOut, Program.startPlacement, hmember, hfinish]

/-- The programs `struct S;` and `struct S \x7b t x[0]; \x7d`. -/
def opened (target : Target) : Development := .run target [.start "S" .struct]

def noElements (target : Target) (t : Ty) : Development :=
  (opened target).performAll [.write ⟨1⟩ (.member "x" (.array t (some 0))), .finish ⟨1⟩]

theorem reachable_noElements (target : Target) (ht : t.isNormal = true) :
    (noElements target t).Reachable := by
  have hopened : (opened target).Reachable :=
    Development.Reachable.perform (a := .start "S" .struct) (.fresh target) trivial
  refine hopened.performAll fun a ha => ?_
  simp only [List.mem_cons, List.not_mem_nil, or_false] at ha
  rcases ha with rfl | rfl
  · exact RecordStep.isWritten_of_types rfl (by simpa [RecordStep.types, Ty.isNormal] using ht)
  · trivial

/-- The class as it is written. -/
def written (t : Ty) : Draft where
  record :=
    { id := ⟨1⟩
      name := "S"
      key := .struct
      members := [⟨"x", .array t (some 0), .pub, false, false⟩] }

theorem program_noElements {target : Target} {q : Program} {u : Ty}
    (h : (opened target).program.finishRecord (written t) = .ok (q, u)) :
    (noElements target t).program = q := by
  let drafted := (opened target).perform (.write ⟨1⟩ (.member "x" (.array t (some 0))))
  have hfind : drafted.drafts.find? (·.record.id = ⟨1⟩) = some (written t) := rfl
  have hfinish : drafted.program.finishRecord (written t) = .ok (q, u) := h
  change (drafted.perform (.finish ⟨1⟩)).program = q
  simp [Development.perform, hfind, hfinish]

/-- The class is completed, with the alignment of its element. -/
theorem record?_noElements {target : Target}
    (hcomplete : (opened target).program.isCompleteObject t = true)
    (h : (opened target).program.layoutOf t = some l) (hlt : l.align < Layout.limit) :
    (noElements target t).program.target = target ∧
    ∃ r, (noElements target t).program.record? ⟨1⟩ = some r ∧ r.complete = true ∧
      r.members.map (·.type) = [.array t (some 0)] ∧ r.layout.align = max 1 l.align := by
  have hlayout := layOut_noElements h hlt
  have hmembers : (opened target).program.checkMembers (written t).record = .ok () := by
    simp [Program.checkMembers, written, Program.isCompleteObject, hcomplete]
  obtain ⟨done, hdone, heq⟩ := (opened target).program.completeRecord_eq (written t)
  have hparts : (opened target).program.parts (written t).record =
      { isUnion := false, dynamic := false, bases := [], members := [.array t (some 0)] } := rfl
  rw [hparts, hlayout, Option.map_some] at heq
  have hkept := Program.kept_of_completeRecord heq
  have hfinish : (opened target).program.finishRecord (written t) = _ :=
    Program.finishRecord_eq_ok.2 ⟨[], _, rfl, hmembers, heq, rfl, rfl⟩
  have hid : (written t).record.id = ⟨1⟩ := rfl
  rw [program_noElements hfinish]
  refine ⟨?_, _, ?_, Program.complete_of_completeRecord heq, ?_, rfl⟩
  · unfold Program.defineRecord
    split <;> rfl
  · rw [Program.record?_defineRecord (by rw [hkept.id]; rfl), hkept.id, if_pos hid.symm]
  · rw [hkept.members]
    rfl

/-- A scalar type whose alignment is no power of two is enough for a record that is not aligned. -/
theorem alignsScalars_of_alignsRecords {target : Target} (hword : target.IsWordSized)
    (h : target.AlignsRecords) : target.AlignsScalars := by
  intro l hl
  obtain ⟨t, ht, hlayout⟩ := exists_mem_scalarTypes (p := (opened target).program) hl
  obtain ⟨htarget, r, hr, hc, hmembers, halign⟩ :=
    record?_noElements (isCompleteObject_of_mem_scalarTypes ht) hlayout (hword.scalar l hl).2
  have hreachable := reachable_noElements target (isNormal_of_mem_scalarTypes ht)
  have hsound := h _ hreachable htarget _ r hr hc
  obtain ⟨m, hm, hmt⟩ := List.mem_map.1
    (show Ty.array t (some 0) ∈ r.members.map (·.type) by simp [hmembers])
  obtain ⟨l', hl', hdvd⟩ := hsound.member m hm
  have hlayout' : (noElements target t).program.layoutOf t = some l :=
    (layoutOf_congr (htarget.trans rfl) ht).trans hlayout
  rw [hmt, memberLayout_noElements hlayout', Option.some.injEq] at hl'
  rw [← hl', halign] at hdvd
  have hpower := hsound.align
  rw [halign] at hpower
  rcases Nat.eq_zero_or_pos l.align with hzero | hpos
  · rw [hzero] at hdvd
    exact absurd hdvd (by decide)
  · rwa [Nat.max_eq_right hpos] at hpower

end ScalarMember

/-- The complete records for a target are aligned exactly if its scalar types are. -/
theorem Target.alignsRecords_iff {target : Target} (hword : target.IsWordSized) :
    target.AlignsRecords ↔ target.AlignsScalars := by
  refine ⟨alignsScalars_of_alignsRecords hword, fun h d hd htarget id r hr hc => ?_⟩
  subst htarget
  exact (hd.isLaidOut_of_alignsScalars h id r hr hc).toHasSoundLayout.hasSoundAlignment

namespace Configuration

variable {text : String} {c : Configuration}

theorem isWordSized_target (h : ofText? text = some c) : c.target.IsWordSized := by
  obtain ⟨value, -, h⟩ := Option.bind_eq_some_iff.1 h
  obtain ⟨fields, -, h⟩ := Option.bind_eq_some_iff.1 h
  split at h
  · obtain ⟨target, htarget, h⟩ := Option.bind_eq_some_iff.1 h
    obtain ⟨capabilities, -, h⟩ := Option.bind_eq_some_iff.1 h
    cases h
    unfold readOr at htarget
    split at htarget
    · cases htarget
      exact Target.isDescribed_lp64.isWordSized
    · exact Target.isWordSized_of_readTarget htarget
  · cases h

/-- A configuration takes any target whose sizes and alignments have 64 bits. -/
theorem exists_ofText?_iff {t : Target} :
    (∃ text c, ofText? text = some c ∧ c.target = t) ↔ t.IsWordSized := by
  constructor
  · rintro ⟨text, c, h, rfl⟩
    exact isWordSized_target h
  · intro h
    let described : Text.Json := .ofMembers [("target", Config.targetJson t)]
    have hplain : described.IsPlain := .ofMembers (by simpa using Target.isPlain_targetJson t)
    have hfields : Config.fieldsOf? ["target", "capabilities"] described =
        some [some (Config.targetJson t), none] := rfl
    refine ⟨described.pretty, ⟨t, .all⟩, ?_, rfl⟩
    rw [ofText?, hplain.ofText?_pretty, Option.bind_some, ofJson?, hfields]
    simp [readOr, Target.readTarget_targetJson h]

/-- What the target of a configuration is good for depends on what nothing has checked. Its own
text is taken as a target exactly if it is usable, and the complete records of the programs for it
are aligned exactly if its scalar types are. -/
theorem target_guarantees_iff (h : ofText? text = some c) :
    (Target.ofText c.target.toText = .ok c.target ↔ c.target.IsUsable) ∧
      (c.target.AlignsRecords ↔ c.target.AlignsScalars) := by
  have hword := isWordSized_target h
  refine ⟨?_, Target.alignsRecords_iff hword⟩
  rw [Target.ofText_toText hword, ← Target.unusableField?_eq_none_iff]
  cases Config.unusableField? c.target <;> simp

/-- A configuration with a target that aligns `double` by six. -/
def oddText : String :=
  "\x7b\"target\":[\"lp64\",true,true,[1,1],[1,1],[4,4],[2,2],[4,4],[2,2],[4,4],[8,8],[8,8],"
    ++ "[16,16],[4,4],[8,6],[16,16],[8,8],[8,8],[16,8],16]\x7d"

def oddDouble : Target := { Target.lp64 with double := ⟨8, 6⟩ }

/-- The configuration is taken, but its target is refused and has records that are not aligned. -/
theorem target_guarantees_iff_oddDouble :
    ofText? oddText = some { target := oddDouble } ∧
      Target.ofText oddDouble.toText ≠ .ok oddDouble ∧ ¬oddDouble.AlignsRecords := by
  have hread : ofText? oddText = some { target := oddDouble } := by decide +kernel
  have hdouble : (⟨8, 6⟩ : Layout) ∈ oddDouble.scalarLayouts := by decide
  have hsix : ¬Nat.isPowerOfTwo 6 := by
    rw [← Layout.isPowerOfTwo_iff]
    decide
  obtain ⟨hchecked, haligned⟩ := target_guarantees_iff hread
  refine ⟨hread, fun h => hsix ?_, fun h => hsix ?_⟩
  · exact ((hchecked.1 h).scalar _ hdouble).2
  · exact haligned.1 h _ hdouble

end Configuration

end TypeTraits
