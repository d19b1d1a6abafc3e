import TypeTraits.Ty.Spelling
import Mathlib

/-!
# Tokens

A text falls into the tokens that a reader of declarations sees. Identifiers and numbers are words,
as long as they can be; `&&`, `::` and `...` are one token each; every other character that is not
blank is a token of its own, and blanks only separate. A text can be cut into tokens piece by piece
wherever two pieces do not run together.
-/

namespace TypeTraits.Spelling

/-- Letters, digits, the underscore, and every character that is not ASCII. -/
def isWordChar (c : Char) : Bool := c.isAlphanum || c == '_' || 128 ≤ c.toNat

/-- White space between tokens. -/
def isSpace (c : Char) : Bool := c ∈ [' ', '\t', '\n', '\r', '\x0b', '\x0c']

/-- A token. -/
inductive Token where
  /-- An identifier, a keyword or a number. -/
  | word (text : List Char)
  /-- `&&` -/
  | andAnd
  /-- `::` -/
  | scope
  /-- `...` -/
  | ellipsis
  | mark (c : Char)
  deriving DecidableEq, Repr

/-- The word that ends here, if any of it has been read. -/
def finished : List Char → List Token
  | [] => []
  | c :: cs => [.word (c :: cs)]

/-- The tokens of a text that follows the characters of a word. -/
def scan (word : List Char) : List Char → List Token
  | [] => finished word
  | '&' :: '&' :: cs => finished word ++ .andAnd :: scan [] cs
  | ':' :: ':' :: cs => finished word ++ .scope :: scan [] cs
  | '.' :: '.' :: '.' :: cs => finished word ++ .ellipsis :: scan [] cs
  | c :: cs =>
    if isWordChar c then scan (word ++ [c]) cs
    else if isSpace c then finished word ++ scan [] cs
    else finished word ++ .mark c :: scan [] cs

/-- The tokens of a text. -/
def tokens (text : String) : List Token := scan [] text.toList

/-- Whether a character may begin or continue a token of several marks. -/
def isRepeating (c : Char) : Bool := c ∈ ['&', ':', '.']

variable {w v a cs : List Char} {c d : Char} {s : String}

theorem finished_of_ne_nil (h : w ≠ []) : finished w = [.word w] := by
  cases w with
  | nil => exact absurd rfl h
  | cons c w => rfl

theorem isRepeating_of_isWordChar (h : isWordChar c = true) : isRepeating c = false := by
  simp only [isRepeating, List.mem_cons, List.not_mem_nil, or_false, decide_eq_false_iff_not]
  rintro (rfl | rfl | rfl) <;> exact absurd h (by decide)

theorem scan_cons_of_not_isRepeating (h : isRepeating c = false) :
    scan w (c :: cs) =
      if isWordChar c then scan (w ++ [c]) cs
      else if isSpace c then finished w ++ scan [] cs
      else finished w ++ .mark c :: scan [] cs := by
  refine scan.eq_5 w c cs ?_ ?_ ?_ <;> intros <;> subst_vars <;> exact absurd h (by decide)

/-- The characters of a word are read one by one. -/
theorem scan_append_word (h : ∀ c ∈ v, isWordChar c = true) :
    scan w (v ++ cs) = scan (w ++ v) cs := by
  induction v generalizing w with
  | nil => simp
  | cons c v ih =>
    have hc := h c List.mem_cons_self
    rw [List.cons_append, scan_cons_of_not_isRepeating (isRepeating_of_isWordChar hc), if_pos hc,
      ih fun c hv => h c (List.mem_cons_of_mem _ hv), List.append_assoc]
    rfl

/-- A word ends where something else begins. -/
theorem scan_cons_of_not_isWordChar (h : isWordChar c = false) :
    scan w (c :: cs) = finished w ++ scan [] (c :: cs) := by
  have hnil : finished [] = [] := rfl
  rw [scan.eq_def, scan.eq_def []]
  split
  case h_5 c cs _ _ _ heq =>
    obtain ⟨rfl, rfl⟩ := List.cons.inj heq
    simp only [h, hnil, Bool.false_eq_true, if_false, List.nil_append]
    split <;> rfl
  all_goals simp_all

/-- Whether no token of `a` goes on with `c`: neither a word nor a repeated mark. -/
def Separates (a : List Char) (c : Char) : Prop :=
  isWordChar c = false ∧ ∀ d ∈ a.getLast?, isRepeating d = true → d ≠ c

/-- A mark that is never repeated separates. -/
theorem separates_of_not_isRepeating (hword : isWordChar c = false) (h : isRepeating c = false) :
    Separates a c := by
  refine ⟨hword, fun d _ hd hdc => ?_⟩
  rw [hdc, h] at hd
  cases hd

namespace Separates

theorem tail (h : Separates (d :: a) c) : Separates a c := by
  refine ⟨h.1, fun e he => h.2 e ?_⟩
  rw [List.getLast?_cons]
  simp_all

/-- A text that `c` follows starts with the same token as the text alone. -/
theorem scan_cons (h : Separates (d :: a) c)
    (hand : ∀ a', d = '&' → a = '&' :: a' → False)
    (hscope : ∀ a', d = ':' → a = ':' :: a' → False)
    (hellipsis : ∀ a', d = '.' → a = '.' :: '.' :: a' → False) :
    scan w (d :: (a ++ c :: cs)) =
      if isWordChar d then scan (w ++ [d]) (a ++ c :: cs)
      else if isSpace d then finished w ++ scan [] (a ++ c :: cs)
      else finished w ++ .mark d :: scan [] (a ++ c :: cs) := by
  have hlast := h.2
  refine scan.eq_5 w d _ ?_ ?_ ?_
  · rintro a' rfl ha
    rcases a with _ | ⟨_, a⟩ <;> simp_all [isRepeating]
  · rintro a' rfl ha
    rcases a with _ | ⟨_, a⟩ <;> simp_all [isRepeating]
  · rintro a' rfl ha
    rcases a with _ | ⟨_, _ | ⟨_, a⟩⟩ <;> simp_all [isRepeating]

/-- Two texts that do not run together have the tokens of the one and then of the other. -/
theorem scan_append (h : Separates a c) :
    scan w (a ++ c :: cs) = scan w a ++ scan [] (c :: cs) := by
  fun_induction scan w a with
  | case1 w => exact scan_cons_of_not_isWordChar h.1
  | case2 w a ih | case3 w a ih =>
    simp [scan, ih h.tail.tail]
  | case4 w a ih =>
    simp [scan, ih h.tail.tail.tail]
  | case5 w d a hand hscope hellipsis hd ih =>
    rw [List.cons_append, h.scan_cons hand hscope hellipsis, if_pos hd, ih h.tail]
  | case6 w d a hand hscope hellipsis hd hspace ih =>
    rw [List.cons_append, h.scan_cons hand hscope hellipsis, if_neg hd, if_pos hspace, ih h.tail,
      List.append_assoc]
  | case7 w d a hand hscope hellipsis hd hspace ih =>
    rw [List.cons_append, h.scan_cons hand hscope hellipsis, if_neg hd, if_neg hspace, ih h.tail,
      List.append_assoc]
    rfl

end Separates

/-- A mark that is never repeated begins a new token, whatever is before it. -/
theorem scan_append_of_not_isRepeating (hword : isWordChar c = false) (h : isRepeating c = false) :
    scan w (a ++ c :: cs) = scan w a ++ scan [] (c :: cs) :=
  (separates_of_not_isRepeating hword h).scan_append

/-- A blank only separates. -/
theorem scan_append_blank : scan w (a ++ ' ' :: cs) = scan w a ++ scan [] cs :=
  scan_append_of_not_isRepeating (by decide) (by decide)

/-- A text that begins with an ampersand begins with a reference mark. -/
theorem scan_ampersand (cs : List Char) :
    ∃ ts, scan [] ('&' :: cs) = .mark '&' :: ts ∨ scan [] ('&' :: cs) = .andAnd :: ts := by
  rcases cs with _ | ⟨c, cs⟩
  · exact ⟨_, .inl rfl⟩
  · by_cases hc : c = '&'
    · subst hc
      exact ⟨_, .inr rfl⟩
    · exact ⟨_, .inl (scan.eq_5 [] '&' (c :: cs) (fun _ _ h => hc (List.cons.inj h).1)
        (fun _ h => absurd h (by decide)) (fun _ h => absurd h (by decide)))⟩

/-- A text of one word. -/
def IsWord (s : String) : Prop := s.toList ≠ [] ∧ ∀ c ∈ s.toList, isWordChar c = true

instance (s : String) : Decidable (IsWord s) :=
  decidable_of_iff (s.toList ≠ [] ∧ s.toList.all isWordChar = true) (by simp [IsWord])

theorem IsWord.tokens (h : IsWord s) : tokens s = [.word s.toList] := by
  have hscan : scan [] (s.toList ++ []) = scan ([] ++ s.toList) [] := scan_append_word h.2
  rw [List.append_nil] at hscan
  rw [Spelling.tokens, hscan]
  exact finished_of_ne_nil h.1

theorem IsWord.scan_append (hs : IsWord s) (h : isWordChar c = false) :
    scan w (s.toList ++ c :: cs) = .word (w ++ s.toList) :: scan [] (c :: cs) := by
  rw [scan_append_word hs.2, scan_cons_of_not_isWordChar h,
    finished_of_ne_nil (List.append_ne_nil_of_right_ne_nil w hs.1)]
  rfl

theorem isWord_toString (n : Nat) : IsWord (toString n) := by
  rw [IsWord, Nat.toString_eq_ofList_toDigits, String.toList_ofList]
  refine ⟨Nat.toDigits_ne_nil, fun c hc => ?_⟩
  have hdigit := Nat.isDigit_of_mem_toDigits (by decide) (by decide) hc
  simp [isWordChar, Char.isAlphanum, hdigit]

/-- The tokens of several texts with commas between them, up to a parenthesis. -/
theorem scan_intercalate (texts : List String) (cs : List Char) :
    scan [] ((", ".intercalate texts).toList ++ ')' :: cs) =
      [.mark ','].intercalate (texts.map tokens) ++ .mark ')' :: scan [] cs := by
  rw [String.toList_intercalate]
  induction texts with
  | nil => rfl
  | cons text texts ih =>
    cases texts with
    | nil =>
      simp only [List.map_cons, List.map_nil, List.intercalate_singleton]
      exact scan_append_of_not_isRepeating (by decide) (by decide)
    | cons text' texts =>
      have hcomma : ", ".toList = [',', ' '] := rfl
      simp only [List.map_cons, List.intercalate_cons_cons, hcomma, List.append_assoc] at ih ⊢
      rw [List.cons_append, scan_append_of_not_isRepeating (by decide) (by decide)]
      change _ ++ .mark ',' :: scan [] _ = _
      rw [← ih]
      rfl

end TypeTraits.Spelling
