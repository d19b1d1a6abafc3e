import TypeTraits.Config.Configuration
import TypeTraits.Proofs.Layout.Object
import TypeTraits.Proofs.Text.Json

/-!
# Targets and their texts

A target whose sizes and alignments have 64 bits can be written and read again, whether or not it
is usable. The text of a target is taken as that target if it is usable, and is refused otherwise,
for its first unusable field.
-/

namespace TypeTraits

open Text Text.Json

namespace Text.Json

/-- A natural number of 64 bits is read from its digits. -/
theorem word?_ofNat {n : Nat} (h : n < Layout.limit) : (ofNat n).word? = some n := by
  have hdigits : (Nat.toDigits 10 n).all Char.isDigit = true :=
    List.all_eq_true.2 fun c hc => Nat.isDigit_of_mem_toDigits (by decide) (by decide) hc
  have hvalue : (Nat.toDigits 10 n).foldl (fun n c => 10 * n + (c.toNat - '0'.toNat)) 0 = n :=
    Nat.ofDigitChars_ten_toDigits
  rw [ofNat, word?, Nat.toString_eq_ofList_toDigits, String.toList_ofList]
  dsimp only
  rw [if_pos hdigits, hvalue]
  exact if_pos h

theorem lt_limit_of_word? {value : Json} {n : Nat} (h : value.word? = some n) :
    n < Layout.limit := by
  unfold word? at h
  split at h
  · dsimp only at h
    split at h
    · split at h
      · next hlt =>
        cases h
        exact hlt
      · cases h
    · cases h
  · cases h

end Text.Json

namespace Config

section Fields

/-- The members of an object with these keys, all of which are texts. -/
def keyed (members : List (String × Json)) : List (Option String × Json) :=
  members.map fun (key, value) => (some key, value)

theorem occurrences_of_notMem {members : List (String × Json)} {field : String}
    (h : field ∉ members.map (·.1)) : occurrences (keyed members) field = [] := by
  rw [occurrences, keyed, List.filterMap_map, List.filterMap_eq_nil_iff]
  intro m hm
  have hne : m.1 ≠ field := fun heq => h (heq ▸ List.mem_map_of_mem hm)
  simp [hne]

theorem occurrences_of_mem {members : List (String × Json)} (h : (members.map (·.1)).Nodup)
    {m : String × Json} (hm : m ∈ members) : occurrences (keyed members) m.1 = [m.2] := by
  induction members with
  | nil => simp at hm
  | cons first members ih =>
    obtain ⟨hfirst, hrest⟩ := List.nodup_cons.1 h
    have hcons : occurrences (keyed (first :: members)) m.1 =
        (if first.1 = m.1 then [first.2] else []) ++ occurrences (keyed members) m.1 := by
      simp only [occurrences, keyed, List.map_cons, List.filterMap_cons, Option.some.injEq]
      split <;> simp_all
    rcases List.mem_cons.1 hm with rfl | hm
    · rw [hcons, occurrences_of_notMem hfirst]
      simp
    · have hne : first.1 ≠ m.1 := fun heq => hfirst (List.mem_map.2 ⟨m, hm, heq.symm⟩)
      rw [hcons, if_neg hne, ih hrest hm, List.nil_append]

theorem mapM_map_eq_some {α β γ : Type} {f : β → Option γ} {g : α → β} {k : α → γ} {as : List α}
    (h : ∀ a ∈ as, f (g a) = some (k a)) : (as.map g).mapM f = some (as.map k) := by
  induction as with
  | nil => rfl
  | cons a as ih =>
    obtain ⟨ha, has⟩ := List.forall_mem_cons.1 h
    simp [ha, ih has]

/-- An object that names each of the fields once describes them in their order. -/
theorem allFieldsOf?_ofMembers {members : List (String × Json)}
    (h : (members.map (·.1)).Nodup) :
    allFieldsOf? (members.map (·.1)) (.ofMembers members) = some (members.map (·.2)) := by
  have hread : fieldsOf? (members.map (·.1)) (.ofMembers members) =
      some (members.map fun m => some m.2) := by
    rw [ofMembers, fieldsOf?, if_neg]
    · refine mapM_map_eq_some fun m hm => ?_
      have hone := occurrences_of_mem h hm
      rw [keyed] at hone
      rw [hone]
    · simp [List.any_map]
  rw [allFieldsOf?, hread]
  exact mapM_map_eq_some fun _ _ => rfl

end Fields

section Reading

variable {t : Target} {l : Layout} {value : Json}

theorem readLayout_layoutJson (hsize : l.size < Layout.limit) (halign : l.align < Layout.limit) :
    readLayout (layoutJson l) = some l := by
  have hfields : allFieldsOf? ["size", "align"] (layoutJson l) =
      some [.ofNat l.size, .ofNat l.align] :=
    allFieldsOf?_ofMembers (by decide : ["size", "align"].Nodup)
  simp [readLayout, hfields, word?_ofNat hsize, word?_ofNat halign]

theorem lt_limit_of_readLayout (h : readLayout value = some l) :
    l.size < Layout.limit ∧ l.align < Layout.limit := by
  unfold readLayout at h
  obtain ⟨fields, -, h⟩ := Option.bind_eq_some_iff.1 h
  split at h
  · obtain ⟨size, hsize, h⟩ := Option.bind_eq_some_iff.1 h
    obtain ⟨align, halign, h⟩ := Option.bind_eq_some_iff.1 h
    cases h
    exact ⟨lt_limit_of_word? hsize, lt_limit_of_word? halign⟩
  · cases h

theorem lt_limit_of_readLayouts {values : List Json} {layouts : List Layout}
    (h : values.mapM readLayout = some layouts) :
    ∀ l ∈ layouts, l.size < Layout.limit ∧ l.align < Layout.limit := by
  induction values generalizing layouts with
  | nil =>
    cases h
    simp
  | cons value values ih =>
    rw [List.mapM_cons] at h
    obtain ⟨first, hfirst, h⟩ := Option.bind_eq_some_iff.1 h
    obtain ⟨rest, hrest, h⟩ := Option.bind_eq_some_iff.1 h
    cases h
    exact List.forall_mem_cons.2 ⟨lt_limit_of_readLayout hfirst, ih hrest⟩

end Reading

end Config

namespace Target

variable {t : Target}

/-- Whether all sizes and alignments have 64 bits. -/
structure IsWordSized (t : Target) : Prop where
  scalar : ∀ l ∈ t.scalarLayouts, l.size < Layout.limit ∧ l.align < Layout.limit
  maxAlign : t.maxFundamentalAlign < Layout.limit

/-- Whether types can have the layouts of the target. -/
structure IsUsable (t : Target) : Prop where
  scalar : ∀ l ∈ t.scalarLayouts, 0 < l.size ∧ l.align.isPowerOfTwo
  maxAlign : t.maxFundamentalAlign.isPowerOfTwo

theorem readTarget_targetJson (h : t.IsWordSized) :
    Config.readTarget (Config.targetJson t) = some t := by
  have hfields : Config.allFieldsOf? Config.targetFields (Config.targetJson t) =
      some ([.ofString t.name, .bool t.charIsSigned, .bool t.wcharIsSigned] ++
        t.scalarLayouts.map Config.layoutJson ++ [.ofNat t.maxFundamentalAlign]) :=
    Config.allFieldsOf?_ofMembers (by decide : Config.targetFields.Nodup)
  have hlayouts : ∀ l ∈ t.scalarLayouts, Config.readLayout (Config.layoutJson l) = some l :=
    fun l hl => Config.readLayout_layoutJson (h.scalar l hl).1 (h.scalar l hl).2
  simp only [scalarLayouts, Config.namedLayouts, List.map_cons, List.map_nil, List.forall_mem_cons,
    List.cons_append, List.nil_append] at hfields hlayouts
  simp [Config.readTarget, hfields, hlayouts, Json.ofString, Json.text?, Json.bool?,
    word?_ofNat h.maxAlign]

theorem isWordSized_of_readTarget {value : Json} (h : Config.readTarget value = some t) :
    t.IsWordSized := by
  unfold Config.readTarget at h
  obtain ⟨fields, -, h⟩ := Option.bind_eq_some_iff.1 h
  split at h
  · obtain ⟨layouts, hlayouts, h⟩ := Option.bind_eq_some_iff.1 h
    split at h
    · split at h
      · obtain ⟨_, -, h⟩ := Option.bind_eq_some_iff.1 h
        obtain ⟨_, -, h⟩ := Option.bind_eq_some_iff.1 h
        obtain ⟨_, -, h⟩ := Option.bind_eq_some_iff.1 h
        obtain ⟨maxAlign, hmax, h⟩ := Option.bind_eq_some_iff.1 h
        cases h
        refine ⟨fun l hl => ?_, lt_limit_of_word? hmax⟩
        refine Config.lt_limit_of_readLayouts hlayouts l ?_
        simpa [scalarLayouts, Config.namedLayouts] using hl
      · cases h
    · cases h
  · cases h

theorem isPlain_layoutJson (l : Layout) : (Config.layoutJson l).IsPlain := by
  refine .ofMembers fun m hm => ?_
  simp only [List.mem_cons, List.not_mem_nil, or_false] at hm
  rcases hm with rfl | rfl <;> exact .ofNat _

theorem isPlain_targetJson (t : Target) : (Config.targetJson t).IsPlain := by
  refine .ofMembers fun m hm => ?_
  simp only [List.mem_append, List.mem_cons, List.not_mem_nil, or_false, List.mem_map] at hm
  rcases hm with ((rfl | rfl | rfl) | ⟨⟨field, l⟩, -, rfl⟩) | rfl
  · exact .ofString _
  · exact .bool _
  · exact .bool _
  · exact isPlain_layoutJson l
  · exact .ofNat _

/-- A target is usable if no field makes it unusable. -/
theorem unusableField?_eq_none_iff : Config.unusableField? t = none ↔ t.IsUsable := by
  have hscalar : (Config.namedLayouts t).find? (fun m => !Config.isUsableLayout m.2) = none ↔
      ∀ l ∈ t.scalarLayouts, 0 < l.size ∧ l.align.isPowerOfTwo := by
    rw [List.find?_eq_none, scalarLayouts, List.forall_mem_map]
    refine forall₂_congr fun m _ => ?_
    rw [Bool.not_eq_true', Bool.not_eq_false, Config.isUsableLayout, Bool.and_eq_true, bne_iff_ne,
      Layout.isPowerOfTwo_iff, Nat.pos_iff_ne_zero]
  rw [Config.unusableField?]
  split
  · next field _ hfind =>
    refine iff_of_false (by simp) fun h => ?_
    exact Option.some_ne_none _ (hfind.symm.trans (hscalar.2 h.scalar))
  · next hfind =>
    rw [ite_eq_left_iff, Layout.isPowerOfTwo_iff]
    constructor
    · intro h
      by_contra hnot
      cases h fun hmax => hnot ⟨hscalar.1 hfind, hmax⟩
    · exact fun h hnot => absurd h.maxAlign hnot

/-- The text of a target is read as the target, or refused for its first unusable field. -/
theorem ofText_toText (h : t.IsWordSized) :
    ofText t.toText =
      match Config.unusableField? t with
      | some field => .error (.invalidLayout field)
      | none => .ok t := by
  rw [ofText, toText, (isPlain_targetJson t).ofText?_pretty]
  cases hfield : Config.unusableField? t <;> simp [ofJson, readTarget_targetJson h, hfield]

theorem IsDescribed.isWordSized (h : t.IsDescribed) : t.IsWordSized := by
  obtain ⟨text, h⟩ := h
  obtain ⟨value, -, hread⟩ := Option.bind_eq_some_iff.1 (ofText_eq_ok.1 h).1
  exact isWordSized_of_readTarget hread

/-- The targets that a text describes are the usable ones with sizes and alignments of 64 bits. -/
theorem isDescribed_iff : t.IsDescribed ↔ t.IsWordSized ∧ t.IsUsable := by
  constructor
  · exact fun h => ⟨h.isWordSized, unusableField?_eq_none_iff.1 h.unusableField?⟩
  · rintro ⟨hword, husable⟩
    refine ⟨t.toText, ?_⟩
    rw [ofText_toText hword, unusableField?_eq_none_iff.2 husable]

end Target

end TypeTraits
