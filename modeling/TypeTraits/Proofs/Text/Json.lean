import Mathlib.Data.List.Basic
import Mathlib.Data.List.DropRight
import TypeTraits.Text.Json.Reading
import TypeTraits.Text.Json.Writing

/-!
# Reading back what was written

A value whose strings and keys are texts and whose numbers are natural ones is read back from the
lines that it is written on. What was written ends where it ended before: a string at its quote,
a number at the first character that no number has, and each value before what follows it.
-/

namespace TypeTraits.Text

variable {rest : List Char}

theorem hexDigit?_digitChar {n : Nat} (h : n < 16) : hexDigit? (Nat.digitChar n) = some n := by
  have hall : ∀ n < 16, hexDigit? (Nat.digitChar n) = some n := by decide
  exact hall n h

namespace Json

section Strings

theorem hexWord?_hexPair {n : Nat} (h : n < 0x100) :
    hexWord? '0' '0' (Nat.digitChar (n / 16)) (Nat.digitChar (n % 16)) = some n := by
  have hzero : hexDigit? '0' = some 0 := by decide
  have hhigh : hexDigit? (Nat.digitChar (n / 16)) = some (n / 16) := hexDigit?_digitChar (by omega)
  have hlow : hexDigit? (Nat.digitChar (n % 16)) = some (n % 16) := hexDigit?_digitChar (by omega)
  simp only [hexWord?, hzero, hhigh, hlow, Option.bind_eq_bind, Option.bind_some, Option.pure_def,
    Option.some.injEq]
  omega

/-- A character is read back from what it is written as. -/
theorem readCodes_escapeChar (c : Char) (rest : List Char) :
    readCodes (escapeChar c ++ rest) =
      (readCodes rest).map fun (codes, rest) => (c.toNat :: codes, rest) := by
  unfold escapeChar
  split
  case h_8 _ hquote hbackslash _ _ _ _ _ =>
    split
    case isTrue hcontrol =>
      have hcode : hexWord? '0' '0' (Nat.digitChar (c.toNat / 16)) (Nat.digitChar (c.toNat % 16)) =
          some c.toNat := hexWord?_hexPair (by omega)
      simp [readCodes, hexPair, hcode, Option.bind_eq_bind, Option.map_eq_bind, Function.comp_def]
    case isFalse hcontrol =>
      rw [List.singleton_append, readCodes.eq_4 c rest hquote (fun _ _ _ _ _ h _ => hbackslash h)
        (fun _ _ h _ => hbackslash h), if_neg hcontrol]
      simp [Option.bind_eq_bind, Option.map_eq_bind, Function.comp_def]
  all_goals
    simp [readCodes, simpleEscape?, Option.bind_eq_bind, Option.map_eq_bind, Function.comp_def]

theorem readCodes_escaped (cs rest : List Char) :
    readCodes (cs.flatMap escapeChar ++ '"' :: rest) = some (cs.map Char.toNat, rest) := by
  induction cs with
  | nil => simp [readCodes]
  | cons c cs ih => simp [readCodes_escapeChar, ih]

/-- No character is half of a surrogate pair. -/
theorem joinSurrogates_toNat (cs : List Char) : joinSurrogates (cs.map Char.toNat) = some cs := by
  induction cs with
  | nil => rfl
  | cons c cs ih =>
    have hvalid : c.toNat < 0xD800 ∨ 0xDFFF < c.toNat ∧ c.toNat < 0x110000 := c.valid
    have hhigh : isHighSurrogate c.toNat = false := by simp [isHighSurrogate]; omega
    have hlow : isLowSurrogate c.toNat = false := by simp [isLowSurrogate]; omega
    rw [List.map_cons, joinSurrogates.eq_def]
    simp [hhigh, hlow, ih]

/-- A string is read back up to its closing quote. -/
theorem readString_escaped (text : String) (rest : List Char) :
    readString (text.toList.flatMap escapeChar ++ '"' :: rest) = some (some text, rest) := by
  simp [readString, readCodes_escaped, joinSurrogates_toNat]

theorem toList_quote (text : String) :
    (quote text).toList = '"' :: (text.toList.flatMap escapeChar ++ ['"']) := by
  simp [quote]

end Strings

section Numbers

/-- Whether a number cannot go on with what comes next. -/
def EndsNumber (rest : List Char) : Prop :=
  ∀ c ∈ rest.head?, c.isDigit = false ∧ c ≠ '.' ∧ c ≠ 'e' ∧ c ≠ 'E'

theorem endsNumber_cons {c : Char}
    (h : c.isDigit = false ∧ c ≠ '.' ∧ c ≠ 'e' ∧ c ≠ 'E') : EndsNumber (c :: rest) := by
  intro d hd
  cases hd
  exact h

theorem EndsNumber.dropWhile (h : EndsNumber rest) : rest.dropWhile Char.isDigit = rest ∧
    rest.takeWhile Char.isDigit = [] := by
  cases rest with
  | nil => simp
  | cons c rest => simp [(h c rfl).1]

theorem readFraction_of_endsNumber (h : EndsNumber rest) : readFraction rest = some ([], rest) := by
  cases rest with
  | nil => rfl
  | cons c rest => exact readFraction.eq_2 _ fun _ hc => (h c rfl).2.1 (List.cons.inj hc).1

theorem readExponent_of_endsNumber (h : EndsNumber rest) : readExponent rest = some ([], rest) := by
  cases rest with
  | nil => rfl
  | cons c rest =>
    obtain ⟨-, -, he, hE⟩ := h c rfl
    simp [readExponent, he, hE]

/-- A number without superfluous zeros is taken as a whole. -/
theorem readInteger_digits {ds : List Char} (hdigits : ∀ c ∈ ds, c.isDigit = true)
    (hne : ds ≠ []) (hzero : ∀ ds', ds = '0' :: ds' → ds' = []) (h : EndsNumber rest) :
    readInteger (ds ++ rest) = some (ds, rest) := by
  obtain ⟨hdrop, htake⟩ := h.dropWhile
  have hread : readDigits (ds ++ rest) = some (ds, rest) := by
    rw [readDigits, List.takeWhile_append_of_pos hdigits, List.dropWhile_append_of_pos hdigits,
      hdrop, htake, List.append_nil]
    split
    · exact absurd rfl hne
    · rfl
  rw [readInteger.eq_def]
  split
  · next heq =>
    cases ds with
    | nil => exact absurd rfl hne
    | cons d ds =>
      obtain ⟨rfl, rfl⟩ := List.cons.inj heq
      cases hzero ds rfl
      refine if_neg ?_
      cases rest with
      | nil => simp
      | cons c rest => simp [(h c rfl).1]
  · exact hread

/-- The decimal digits of a number that is not zero begin with another digit. -/
theorem toDigits_zero_cons (n : Nat) : ∀ ds, Nat.toDigits 10 n = '0' :: ds → ds = [] := by
  induction n using Nat.strongRecOn with
  | ind n ih =>
    intro ds hds
    by_cases hn : n < 10
    · rw [Nat.toDigits_of_lt_base hn] at hds
      exact (List.cons.inj hds).2.symm
    · rw [Nat.toDigits_of_base_le (by decide) (by omega)] at hds
      cases hhead : Nat.toDigits 10 (n / 10) with
      | nil => exact absurd hhead Nat.toDigits_ne_nil
      | cons d ds' =>
        -- The digits before the last one are those of a number that is not zero either.
        rw [hhead, List.cons_append] at hds
        obtain ⟨rfl, -⟩ := List.cons.inj hds
        cases ih (n / 10) (by omega) ds' hhead
        have hzero := congrArg (Nat.ofDigitChars 10 · 0) hhead
        rw [Nat.ofDigitChars_ten_toDigits] at hzero
        have : n / 10 = 0 := hzero
        omega

/-- A natural number is read back up to the end of its digits. -/
theorem readNumber_toDigits (n : Nat) (h : EndsNumber rest) :
    readNumber (Nat.toDigits 10 n ++ rest) = some (.ofNat n, rest) := by
  have hdigits : ∀ c ∈ Nat.toDigits 10 n, c.isDigit = true := fun c hc =>
    Nat.isDigit_of_mem_toDigits (by decide) (by decide) hc
  have hinteger := readInteger_digits hdigits Nat.toDigits_ne_nil (toDigits_zero_cons n) h
  rw [readNumber.eq_def]
  split
  next sign cs' heq =>
  split at heq
  · next r hr =>
    cases hhead : Nat.toDigits 10 n with
    | nil => exact absurd hhead Nat.toDigits_ne_nil
    | cons d ds =>
      rw [hhead] at hr
      have hd := hdigits d (hhead ▸ List.mem_cons_self)
      rw [(List.cons.inj hr).1] at hd
      exact absurd hd (by decide)
  · obtain ⟨rfl, rfl⟩ := Prod.mk.inj heq
    rw [ofNat, Nat.toString_eq_ofList_toDigits]
    simp [hinteger, readFraction_of_endsNumber h, readExponent_of_endsNumber h]

end Numbers

section Blanks

variable {bound depth : Nat} {cs : List Char}

theorem skipBlanks_cons {c : Char} (h : isJsonBlank c = false) :
    skipBlanks (c :: cs) = c :: cs := by
  simp [skipBlanks, h]

theorem skipBlanks_skipBlanks (cs : List Char) : skipBlanks (skipBlanks cs) = skipBlanks cs :=
  List.dropWhile_idempotent _ _

theorem toList_lineBreak (depth : Nat) :
    (lineBreak depth).toList = '\n' :: List.replicate (2 * depth) ' ' := by
  simp [lineBreak]

theorem skipBlanks_lineBreak (depth : Nat) (cs : List Char) :
    skipBlanks ((lineBreak depth).toList ++ cs) = skipBlanks cs := by
  refine List.dropWhile_append_of_pos fun c hc => ?_
  simp only [toList_lineBreak, List.mem_cons, List.mem_replicate] at hc
  rcases hc with rfl | ⟨-, rfl⟩ <;> decide

theorem endsNumber_lineBreak (depth : Nat) (cs : List Char) :
    EndsNumber ((lineBreak depth).toList ++ cs) := by
  rw [toList_lineBreak]
  exact endsNumber_cons (by decide)

theorem skipBlanks_comma (cs : List Char) : skipBlanks (',' :: cs) = ',' :: cs :=
  skipBlanks_cons (by decide)

theorem endsNumber_comma (cs : List Char) : EndsNumber (',' :: cs) := endsNumber_cons (by decide)

/-- Blanks before a value do not matter. -/
theorem readValue_skipBlanks (bound : Nat) (cs : List Char) :
    readValue bound (skipBlanks cs) = readValue bound cs := by
  cases bound with
  | zero => simp [readValue]
  | succ bound => rw [readValue, readValue, skipBlanks_skipBlanks]

theorem readItems_skipBlanks (bound : Nat) (cs : List Char) :
    readItems bound (skipBlanks cs) = readItems bound cs := by
  cases bound with
  | zero => simp [readItems]
  | succ bound => rw [readItems, readItems, readValue_skipBlanks]

theorem readMembers_skipBlanks (bound : Nat) (cs : List Char) :
    readMembers bound (skipBlanks cs) = readMembers bound cs := by
  cases bound with
  | zero => simp [readMembers]
  | succ bound => rw [readMembers, readMembers, skipBlanks_skipBlanks]

theorem readItems_lineBreak (bound depth : Nat) (cs : List Char) :
    readItems bound ((lineBreak depth).toList ++ cs) = readItems bound cs := by
  rw [← readItems_skipBlanks, skipBlanks_lineBreak, readItems_skipBlanks]

theorem readMembers_lineBreak (bound depth : Nat) (cs : List Char) :
    readMembers bound ((lineBreak depth).toList ++ cs) = readMembers bound cs := by
  rw [← readMembers_skipBlanks, skipBlanks_lineBreak, readMembers_skipBlanks]

end Blanks

section Values

/-- Values whose strings and keys are texts and whose numbers are natural. -/
inductive IsPlain : Json → Prop
  | null : IsPlain .null
  | bool (b : Bool) : IsPlain (.bool b)
  | ofNat (n : Nat) : IsPlain (.ofNat n)
  | ofString (text : String) : IsPlain (.ofString text)
  | array {items : List Json} (h : ∀ item ∈ items, IsPlain item) : IsPlain (.array items)
  | ofMembers {members : List (String × Json)} (h : ∀ m ∈ members, IsPlain m.2) :
    IsPlain (.ofMembers members)

/-- Whether a value is read back from its lines at any depth, up to what follows them. -/
def ReadsBack (value : Json) : Prop :=
  ∀ depth bound rest, EndsNumber rest → (value.prettyAt depth).length ≤ bound →
    readValue bound ((value.prettyAt depth).toList ++ rest) = some (value, rest)

variable {bound depth : Nat} {cs : List Char}

/-- No item begins with the closing bracket. -/
theorem readItems_closed (bound : Nat) (cs : List Char) : readItems bound (']' :: cs) = none := by
  have hblank : skipBlanks (']' :: cs) = ']' :: cs := skipBlanks_cons (by decide)
  rcases bound with _ | _ | bound <;>
    simp [readItems, readValue, hblank, readNumber, readInteger, readDigits, Char.isDigit]

/-- An array that is not empty is read as its items. -/
theorem readValue_array {items : List Json} (h : readItems bound cs = some (items, rest)) :
    readValue (bound + 1) ('[' :: cs) = some (.array items, rest) := by
  have hblank : skipBlanks ('[' :: cs) = '[' :: cs := skipBlanks_cons (by decide)
  rw [← readItems_skipBlanks] at h
  simp only [readValue, hblank]
  split
  · next hclosed =>
    rw [hclosed, readItems_closed] at h
    cases h
  · rw [h]
    rfl

/-- An object that is not empty is read as its members. -/
theorem readValue_object {members : List (Option String × Json)}
    (h : readMembers bound cs = some (members, rest)) :
    readValue (bound + 1) ('\x7b' :: cs) = some (.object members, rest) := by
  have hblank : skipBlanks ('\x7b' :: cs) = '\x7b' :: cs := skipBlanks_cons (by decide)
  rw [← readMembers_skipBlanks] at h
  simp only [readValue, hblank]
  split
  · next hclosed =>
    rw [hclosed] at h
    cases bound <;> simp [readMembers, skipBlanks, isJsonBlank] at h
  · rw [h]
    rfl

/-- The texts of parts, each on its own line. -/
def lines (depth : Nat) (parts : List String) : String :=
  ("," ++ lineBreak depth).intercalate parts

theorem toList_lines_cons_cons (depth : Nat) (part next : String) (parts : List String) :
    (lines depth (part :: next :: parts)).toList =
      part.toList ++ ',' :: ((lineBreak depth).toList ++ (lines depth (next :: parts)).toList) := by
  simp [lines, String.intercalate_cons_cons]

theorem length_lines_cons_cons (depth : Nat) (part next : String) (parts : List String) :
    part.length + (lines depth (next :: parts)).length + 1 ≤
      (lines depth (part :: next :: parts)).length := by
  have hlength := congrArg List.length (toList_lines_cons_cons depth part next parts)
  simp only [List.length_append, List.length_cons, String.length_toList] at hlength
  omega

/-- Items that are each read back are read back together, up to the closing bracket. -/
theorem readItems_lines {items : List Json} (hne : items ≠ [])
    (hitems : ∀ item ∈ items, item.ReadsBack) {after : Nat}
    (hbound : (lines depth (prettyItems depth items)).length < bound) :
    readItems bound ((lines depth (prettyItems depth items)).toList ++
      ((lineBreak after).toList ++ ']' :: rest)) = some (items, rest) := by
  induction items generalizing bound with
  | nil => exact absurd rfl hne
  | cons item items ih =>
    obtain _ | bound := bound
    · omega
    have hitem := hitems item List.mem_cons_self depth bound
    cases items with
    | nil =>
      simp only [lines, prettyItems, String.intercalate_singleton] at hbound ⊢
      have hread := hitem _ (endsNumber_lineBreak after (']' :: rest)) (by omega)
      have hblank : skipBlanks (']' :: rest) = ']' :: rest := skipBlanks_cons (by decide)
      simp [readItems, hread, skipBlanks_lineBreak, hblank]
    | cons next items =>
      simp only [prettyItems] at ih hbound ⊢
      have hlength := length_lines_cons_cons depth (item.prettyAt depth) (next.prettyAt depth)
        (prettyItems depth items)
      have hrest := ih (by simp) (fun item h => hitems item (List.mem_cons_of_mem _ h))
        (Nat.lt_of_lt_of_le (by omega) (Nat.le_of_lt_succ hbound))
      rw [toList_lines_cons_cons, List.append_assoc, List.cons_append, List.append_assoc, readItems,
        hitem _ (endsNumber_comma _) (by omega)]
      simp only [skipBlanks_comma, Option.bind_eq_bind, Option.bind_some]
      rw [readItems_lineBreak, hrest]
      rfl

/-- The line of a member. -/
def memberLine (depth : Nat) (m : String × Json) : String :=
  quote m.1 ++ ": " ++ m.2.prettyAt depth

theorem toList_memberLine (depth : Nat) (m : String × Json) :
    (memberLine depth m).toList = '"' :: (m.1.toList.flatMap escapeChar ++
      '"' :: ':' :: ' ' :: (m.2.prettyAt depth).toList) := by
  simp [memberLine, toList_quote]

theorem prettyMembers_eq_map (depth : Nat) (members : List (String × Json)) :
    prettyMembers depth (members.map fun (key, value) => (some key, value)) =
      members.map (memberLine depth) := by
  induction members with
  | nil => rfl
  | cons m members ih =>
    rw [List.map_cons, prettyMembers, ih]
    rfl

/-- A member whose value is read back is read up to what follows it. -/
theorem readMembers_memberLine {m : String × Json} (hm : m.2.ReadsBack) (h : EndsNumber rest)
    (hbound : (memberLine depth m).length ≤ bound) :
    readMembers (bound + 1) ((memberLine depth m).toList ++ rest) =
      match skipBlanks rest with
      | '\x7d' :: rest => some ([(some m.1, m.2)], rest)
      | ',' :: rest =>
        (readMembers bound rest).map fun (members, rest) => ((some m.1, m.2) :: members, rest)
      | _ => none := by
  have hquote : ∀ cs, skipBlanks ('"' :: cs) = '"' :: cs := fun cs => skipBlanks_cons (by decide)
  have hcolon : ∀ cs, skipBlanks (':' :: cs) = ':' :: cs := fun cs => skipBlanks_cons (by decide)
  have hspace : ∀ cs, skipBlanks (' ' :: cs) = skipBlanks cs := fun cs => rfl
  have hvalue : readValue bound (' ' :: ((m.2.prettyAt depth).toList ++ rest)) =
      some (m.2, rest) := by
    rw [← readValue_skipBlanks, hspace, readValue_skipBlanks]
    refine hm depth bound rest h ?_
    simp only [memberLine, String.length_append] at hbound
    omega
  rw [toList_memberLine, List.cons_append, readMembers, hquote]
  simp only [List.append_assoc, List.cons_append, readString_escaped, hcolon, hvalue,
    Option.bind_eq_bind, Option.bind_some, Option.map_eq_bind, Function.comp_def]
  rfl

/-- Members whose values are each read back are read back together, up to the closing brace. -/
theorem readMembers_lines {members : List (String × Json)} (hne : members ≠ [])
    (hmembers : ∀ m ∈ members, m.2.ReadsBack) {after : Nat}
    (hbound : (lines depth (members.map (memberLine depth))).length < bound) :
    readMembers bound ((lines depth (members.map (memberLine depth))).toList ++
      ((lineBreak after).toList ++ '\x7d' :: rest)) =
        some (members.map fun (key, value) => (some key, value), rest) := by
  induction members generalizing bound with
  | nil => exact absurd rfl hne
  | cons m members ih =>
    obtain _ | bound := bound
    · omega
    have hm := hmembers m List.mem_cons_self
    cases members with
    | nil =>
      simp only [lines, List.map_cons, List.map_nil, String.intercalate_singleton] at hbound ⊢
      have hblank : skipBlanks ('\x7d' :: rest) = '\x7d' :: rest := skipBlanks_cons (by decide)
      rw [readMembers_memberLine hm (endsNumber_lineBreak _ _) (by omega), skipBlanks_lineBreak,
        hblank]
      rfl
    | cons next members =>
      simp only [List.map_cons] at ih hbound ⊢
      have hlength := length_lines_cons_cons depth (memberLine depth m) (memberLine depth next)
        (members.map (memberLine depth))
      have hrest := ih (by simp) (fun m h => hmembers m (List.mem_cons_of_mem _ h))
        (Nat.lt_of_lt_of_le (by omega) (Nat.le_of_lt_succ hbound))
      rw [toList_lines_cons_cons, List.append_assoc, List.cons_append, List.append_assoc,
        readMembers_memberLine hm (endsNumber_comma _) (by omega), skipBlanks_comma]
      change (readMembers bound _).map _ = _
      rw [readMembers_lineBreak, hrest]
      rfl

/-- The lines of a value that has parts, between its brackets. -/
theorem toList_bracket {parts : List String} (h : parts ≠ []) (opening closing : String)
    (depth : Nat) : (bracket opening closing depth parts).toList =
      opening.toList ++ ((lineBreak (depth + 1)).toList ++ ((lines (depth + 1) parts).toList ++
        ((lineBreak depth).toList ++ closing.toList))) := by
  rw [bracket, if_neg (by simpa using h)]
  simp [lines]

theorem length_lines_add_le {parts : List String} (h : parts ≠ []) (opening closing : String)
    (depth : Nat) : opening.length + (lines (depth + 1) parts).length + closing.length ≤
      (bracket opening closing depth parts).length := by
  have hlength := congrArg List.length (toList_bracket h opening closing depth)
  simp only [List.length_append, String.length_toList] at hlength
  omega

theorem readsBack_array {items : List Json} (hitems : ∀ item ∈ items, item.ReadsBack) :
    (array items).ReadsBack := by
  intro depth bound rest _ hbound
  rw [prettyAt] at hbound ⊢
  obtain _ | bound := bound
  · exact absurd hbound (by rw [bracket]; split <;> simp)
  cases items with
  | nil => simp [bracket, prettyItems, readValue, skipBlanks, isJsonBlank]
  | cons item items =>
    have hne : prettyItems (depth + 1) (item :: items) ≠ [] := by simp [prettyItems]
    have hlength := length_lines_add_le hne "[" "]" depth
    simp only [show "[".length = 1 from rfl, show "]".length = 1 from rfl] at hlength
    rw [toList_bracket hne]
    simp only [show "[".toList = ['['] from rfl, show "]".toList = [']'] from rfl,
      List.append_assoc, List.cons_append, List.nil_append]
    refine readValue_array ?_
    rw [readItems_lineBreak]
    exact readItems_lines (List.cons_ne_nil item items) hitems (by omega)

theorem readsBack_ofMembers {members : List (String × Json)}
    (hmembers : ∀ m ∈ members, m.2.ReadsBack) : (ofMembers members).ReadsBack := by
  intro depth bound rest _ hbound
  rw [ofMembers, prettyAt, prettyMembers_eq_map] at hbound ⊢
  obtain _ | bound := bound
  · exact absurd hbound (by rw [bracket]; split <;> simp)
  cases members with
  | nil => simp [bracket, readValue, skipBlanks, isJsonBlank]
  | cons m members =>
    have hne : (m :: members).map (memberLine (depth + 1)) ≠ [] := by simp
    have hlength := length_lines_add_le hne "\x7b" "\x7d" depth
    simp only [show "\x7b".length = 1 from rfl, show "\x7d".length = 1 from rfl] at hlength
    rw [toList_bracket hne]
    simp only [show "\x7b".toList = ['\x7b'] from rfl, show "\x7d".toList = ['\x7d'] from rfl,
      List.append_assoc, List.cons_append, List.nil_append]
    refine readValue_object ?_
    rw [readMembers_lineBreak]
    exact readMembers_lines (List.cons_ne_nil m members) hmembers (by omega)

theorem readsBack_ofNat (n : Nat) : (ofNat n).ReadsBack := by
  intro depth bound rest hrest hbound
  have hdigits : ((ofNat n).prettyAt depth).toList = Nat.toDigits 10 n := by
    rw [ofNat, prettyAt, Nat.toString_eq_ofList_toDigits, String.toList_ofList]
  rw [← String.length_toList, hdigits] at hbound
  rw [hdigits]
  cases hhead : Nat.toDigits 10 n with
  | nil => exact absurd hhead Nat.toDigits_ne_nil
  | cons d ds =>
    rw [hhead] at hbound
    obtain _ | bound := bound
    · exact absurd hbound (by simp)
    -- A digit begins no other value, so that what begins with it is a number.
    have hd : d.isDigit = true :=
      Nat.isDigit_of_mem_toDigits (by decide) (by decide) (hhead ▸ List.mem_cons_self)
    have hblank : skipBlanks (d :: (ds ++ rest)) = d :: (ds ++ rest) := skipBlanks_cons (by
      simp only [isJsonBlank, Bool.or_eq_false_iff, decide_eq_false_iff_not]
      refine ⟨⟨⟨?_, ?_⟩, ?_⟩, ?_⟩ <;> rintro rfl <;> exact absurd hd (by decide))
    have hnumber := readNumber_toDigits n hrest
    rw [hhead, List.cons_append] at hnumber
    rw [List.cons_append, readValue, hblank]
    split <;> first
      | exact hnumber
      | next heq =>
        rw [(List.cons.inj heq).1] at hd
        exact absurd hd (by decide)

theorem readsBack_ofString (text : String) : (ofString text).ReadsBack := by
  intro depth bound rest _ hbound
  have hquote : ((ofString text).prettyAt depth).toList =
      '"' :: (text.toList.flatMap escapeChar ++ ['"']) := toList_quote text
  rw [← String.length_toList, hquote] at hbound
  obtain _ | bound := bound
  · exact absurd hbound (by simp)
  have hblank : ∀ cs, skipBlanks ('"' :: cs) = '"' :: cs := fun cs => skipBlanks_cons (by decide)
  rw [hquote]
  simp [readValue, hblank, readString_escaped, ofString]

theorem readsBack_null : null.ReadsBack := by
  intro depth bound rest _ hbound
  obtain _ | bound := bound
  · exact absurd hbound (by simp [prettyAt])
  · simp [prettyAt, readValue, skipBlanks, isJsonBlank]

theorem readsBack_bool (b : Bool) : (bool b).ReadsBack := by
  intro depth bound rest _ hbound
  obtain _ | bound := bound
  · exact absurd hbound (by cases b <;> simp [prettyAt])
  · cases b <;> simp [prettyAt, readValue, skipBlanks, isJsonBlank]

/-- Plain values are read back from their lines. -/
theorem IsPlain.readsBack {value : Json} (h : value.IsPlain) : value.ReadsBack := by
  induction h with
  | null => exact readsBack_null
  | bool b => exact readsBack_bool b
  | ofNat n => exact readsBack_ofNat n
  | ofString text => exact readsBack_ofString text
  | array _ ih => exact readsBack_array ih
  | ofMembers _ ih => exact readsBack_ofMembers ih

/-- The text that a plain value is written as is read as the value. -/
theorem IsPlain.ofText?_pretty {value : Json} (h : value.IsPlain) :
    ofText? value.pretty = some value := by
  have hread := h.readsBack 0 (2 * value.pretty.toList.length + 2) [] (by simp [EndsNumber])
    (by rw [String.length_toList]; change value.pretty.length ≤ _; omega)
  rw [List.append_nil] at hread
  rw [pretty] at hread ⊢
  simp [ofText?, hread, skipBlanks]

end Values

end Json

end TypeTraits.Text
