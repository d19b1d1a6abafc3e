import TypeTraits.Proofs.Spelling.Name

/-!
# Reading the leaf of a type

A leaf is read off the front of a list of tokens: qualifiers first, then keywords as long as they
come, or one name. It ends where the tokens go on with neither a keyword nor `::`, which is how a
declarator begins.
-/

namespace TypeTraits

open Spelling

namespace Spelling

/-- Takes a token off the front, if it is there. -/
def takeToken (token : Token) : List Token → Bool × List Token
  | t :: ts => if t = token then (true, ts) else (false, t :: ts)
  | [] => (false, [])

/-- Takes qualifiers that are words of their own off the front. -/
def takeCv (ts : List Token) : Cv × List Token :=
  let (isConst, ts) := takeToken (.word "const".toList) ts
  let (isVolatile, ts) := takeToken (.word "volatile".toList) ts
  (⟨isConst, isVolatile⟩, ts)

/-- A token that may be there. -/
def optional (present : Bool) (token : Token) : List Token := if present then [token] else []

/-- The words of a qualification. -/
def cvTokens (cv : Cv) : List Token :=
  optional cv.isConst (.word "const".toList) ++ optional cv.isVolatile (.word "volatile".toList)

/-- Whether a declarator with a part before the name begins here. -/
def opensDeclarator : List Token → Bool
  | .mark '*' :: _ | .mark '&' :: _ | .andAnd :: _ | .word _ :: .scope :: .mark '*' :: _ => true
  | _ => false

variable {ts : List Token} {token : Token}

theorem takeToken_optional (present : Bool) (h : token ∉ ts.head?) :
    takeToken token (optional present token ++ ts) = (present, ts) := by
  cases present with
  | true => simp [optional, takeToken]
  | false =>
    cases ts with
    | nil => rfl
    | cons t ts => exact if_neg fun ht => h (by rw [ht]; rfl)

theorem not_mem_head_optional {other : Token} (hne : token ≠ other) (present : Bool)
    (h : token ∉ ts.head?) : token ∉ (optional present other ++ ts).head? := by
  cases present with
  | true => simpa [optional] using hne.symm
  | false => exact h

/-- Qualifiers are read back before anything else. -/
theorem takeCv_cvTokens (cv : Cv) (hconst : .word "const".toList ∉ ts.head?)
    (hvolatile : .word "volatile".toList ∉ ts.head?) : takeCv (cvTokens cv ++ ts) = (cv, ts) := by
  have hne : Token.word "const".toList ≠ .word "volatile".toList := by decide
  have hfirst := not_mem_head_optional hne cv.isVolatile hconst
  rw [cvTokens, List.append_assoc]
  simp only [takeCv, takeToken_optional cv.isConst hfirst,
    takeToken_optional cv.isVolatile hvolatile]

theorem scan_spelling_blank (cv : Cv) (cs : List Char) :
    scan [] (cv.spelling.toList ++ ' ' :: cs) = cvTokens cv ++ scan [] cs := by
  rcases cv with ⟨_ | _, _ | _⟩ <;> rfl

theorem opensDeclarator_word {w : List Char} (h : .scope ∉ ts.head?) :
    opensDeclarator (.word w :: ts) = false := by
  rcases ts with _ | ⟨token, ts⟩
  · rfl
  · cases token with
    | scope => exact absurd rfl h
    | _ => rfl

end Spelling

namespace Program

/-- Reads a type without qualifiers and without a declarator. -/
def readNamed (p : Program) : List Token → Option (Ty × List Token)
  | .word w :: .scope :: .word _ :: ts => if w = "std".toList then some (.nullptr, ts) else none
  | .word w :: ts =>
    if isKeyword (.word w) then
      (keywordTypes.find? fun x => tokens x.2 == .word w :: ts.takeWhile isKeyword).map
        (·.1, ts.dropWhile isKeyword)
    else (p.named? w).map (·, ts)
  | _ => none

/-- Reads the leaf of a type. -/
def readLeaf (p : Program) (ts : List Token) : Option (Ty × List Token) :=
  let (cv, ts) := takeCv ts
  (p.readNamed ts).map fun (t, ts) => (t.qualify cv, ts)

variable {p : Program} {u : Ty} {ts : List Token}

/-- A word with no `::` after it is a keyword or a name. -/
theorem readNamed_word {w : List Char} (h : .scope ∉ ts.head?) :
    p.readNamed (.word w :: ts) =
      if isKeyword (.word w) then
        (keywordTypes.find? fun x => tokens x.2 == .word w :: ts.takeWhile isKeyword).map
          (·.1, ts.dropWhile isKeyword)
      else (p.named? w).map (·, ts) := by
  rcases ts with _ | ⟨token, ts⟩
  · rfl
  · cases token with
    | scope => exact absurd rfl h
    | _ => rfl

/-- A type that is known by a name is read back. -/
theorem readNamed_tokens (hnames : p.WellNamed) (hu : u.isNamed = true) (h : p.IsDeclared u)
    (hts : EndsLeaf ts) : p.readNamed (tokens (p.spell u) ++ ts) = some (u, ts) := by
  by_cases hnull : u = .nullptr
  · subst hnull
    rw [tokens_nullptr]
    rfl
  obtain ⟨w, ws, htokens, -⟩ := hnames.tokens_named hu h
  have hscope := hnames.scope_not_mem_named hu h hnull hts htokens
  rcases named_cases hu h with ⟨name, hname⟩ | rfl | ⟨x, hx, rfl, hspell⟩
  · rw [hnames.tokens_name hname] at htokens ⊢
    cases htokens
    rw [List.cons_append, readNamed_word hscope, hnames.isKeyword_name hname,
      hnames.named?_of_nameOf? hname]
    rfl
  · exact absurd rfl hnull
  · have hfind := find?_keywordTypes x hx
    have hall := isKeyword_keywordTypes x hx
    rw [hspell] at htokens ⊢
    rw [htokens] at hall hfind ⊢
    have hws : ∀ token ∈ ws, isKeyword token = true := fun token ht =>
      hall token (List.mem_cons_of_mem _ ht)
    have htake : ts.takeWhile isKeyword = [] ∧ ts.dropWhile isKeyword = ts := by
      rcases ts with _ | ⟨token, ts⟩
      · exact ⟨rfl, rfl⟩
      · simp [(hts token rfl).1]
    rw [List.cons_append, readNamed_word hscope, if_pos (hall _ List.mem_cons_self),
      List.takeWhile_append_of_pos hws, List.dropWhile_append_of_pos hws, htake.1, htake.2,
      List.append_nil, hfind]
    rfl

theorem tokens_qualify (p : Program) (hu : u.isNamed = true) (cv : Cv) :
    tokens (p.spell (u.qualify cv)) = cvTokens cv ++ tokens (p.spell u) := by
  rw [spell_qualify p hu]
  split
  · rename_i hcv
    rw [Cv.isEmpty_iff.mp hcv]
    rfl
  · rw [tokens, String.toList_append, String.toList_append, List.append_assoc]
    exact scan_spelling_blank ..

/-- The leaf of a type is read back. -/
theorem readLeaf_tokens (hnames : p.WellNamed) (hu : u.isNamed = true) (h : p.IsDeclared u)
    (cv : Cv) (hts : EndsLeaf ts) :
    p.readLeaf (tokens (p.spell (u.qualify cv)) ++ ts) = some (u.qualify cv, ts) := by
  obtain ⟨w, ws, htokens, hconst, hvolatile⟩ := hnames.tokens_named hu h
  have htake : takeCv (cvTokens cv ++ (tokens (p.spell u) ++ ts)) =
      (cv, tokens (p.spell u) ++ ts) := by
    rw [htokens]
    exact takeCv_cvTokens cv (fun h => hconst (Token.word.inj (Option.some.inj h)))
      fun h => hvolatile (Token.word.inj (Option.some.inj h))
  rw [tokens_qualify p hu, List.append_assoc]
  simp only [readLeaf, htake, readNamed_tokens hnames hu h hts, Option.map_some]

/-- A leaf begins with a word, and does not look like the beginning of a declarator. -/
theorem leaf_begins (hnames : p.WellNamed) (hu : u.isNamed = true) (h : p.IsDeclared u) (cv : Cv)
    (hts : EndsLeaf ts) :
    (∃ w ws, tokens (p.spell (u.qualify cv)) = .word w :: ws) ∧
      opensDeclarator (tokens (p.spell (u.qualify cv)) ++ ts) = false := by
  obtain ⟨w, ws, htokens, -⟩ := hnames.tokens_named hu h
  rw [tokens_qualify p hu, htokens]
  rcases cv with ⟨_ | _, _ | _⟩
  · refine ⟨⟨w, ws, rfl⟩, ?_⟩
    by_cases hnull : u = .nullptr
    · subst hnull
      rw [tokens_nullptr] at htokens
      cases htokens
      rfl
    · exact opensDeclarator_word (hnames.scope_not_mem_named hu h hnull hts htokens)
  all_goals exact ⟨⟨_, _, rfl⟩, rfl⟩

end Program

end TypeTraits
