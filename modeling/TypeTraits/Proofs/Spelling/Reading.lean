import TypeTraits.Proofs.Spelling.Leaf

/-!
# Reading a type

A reader that takes a type off the front of a list of tokens. A declarator is read from the leaf
outwards: parts before the name one by one, then, perhaps in parentheses, the declarator further
out, then the parts after the name. A qualifier and a class name that ran together are told apart
by what the program declares. Where that is possible, every type comes back from the tokens it is
spelled with, by every reader that may go deep enough.
-/

namespace TypeTraits

open Spelling Filter

namespace Spelling

/-- Takes what a function type says after its parameters off the front. -/
def takeFunctionQualifiers (variadic : Bool) (ts : List Token) : FunctionQualifiers × List Token :=
  let (cv, ts) := takeCv ts
  let (lvalue, ts) := takeToken (.mark '&') ts
  let (rvalue, ts) := takeToken .andAnd ts
  let (noexcept, ts) := takeToken (.word "noexcept".toList) ts
  (⟨variadic, cv, if lvalue then .lvalue else if rvalue then .rvalue else .none, noexcept⟩, ts)

end Spelling

namespace Program

/-- Takes a qualifier off the front: a word, or the beginning of a word that names no class. -/
def takeQualifier (p : Program) (q : List Char) : List Token → Bool × List Token
  | .word w :: ts =>
    if p.isClassName w then (false, .word w :: ts)
    else
      match q.isPrefixOf? w with
      | none => (false, .word w :: ts)
      | some rest => (true, finished rest ++ ts)
  | ts => (false, ts)

/-- Takes the qualifiers of a pointer off the front. -/
def takeQualifiers (p : Program) (ts : List Token) : Cv × List Token :=
  let (isConst, ts) := p.takeQualifier "const".toList ts
  let (isVolatile, ts) := p.takeQualifier "volatile".toList ts
  (⟨isConst, isVolatile⟩, ts)

mutual

/-- Reads a type. -/
def readType (p : Program) : Nat → List Token → Option (Ty × List Token)
  | 0, _ => none
  | depth + 1, ts => do
    let (leaf, ts) ← p.readLeaf ts
    let (parts, ts) ← p.readDeclarator depth ts
    return (parts.foldl Part.apply leaf, ts)

/-- Reads a declarator. -/
def readDeclarator (p : Program) : Nat → List Token → Option (List Part × List Token)
  | 0, _ => none
  | depth + 1, .mark '*' :: ts => do
    let (cv, ts) := p.takeQualifiers ts
    let (outer, ts) ← p.readDeclarator depth ts
    return (.pointer cv :: outer, ts)
  | depth + 1, .mark '&' :: ts => do
    let (outer, ts) ← p.readDeclarator depth ts
    return (.lvalueRef :: outer, ts)
  | depth + 1, .andAnd :: ts => do
    let (outer, ts) ← p.readDeclarator depth ts
    return (.rvalueRef :: outer, ts)
  | depth + 1, .word w :: .scope :: .mark '*' :: ts => do
    let cls ← p.named? w
    let (cv, ts) := p.takeQualifiers ts
    let (outer, ts) ← p.readDeclarator depth ts
    return (.memberPointer cls cv :: outer, ts)
  | depth + 1, ts => p.readGroup depth ts

/-- Reads a declarator that may be in parentheses, and the parts that follow it. -/
def readGroup (p : Program) : Nat → List Token → Option (List Part × List Token)
  | 0, _ => none
  | depth + 1, .mark '(' :: rest =>
    if opensDeclarator rest then do
      let (outer, ts) ← p.readDeclarator depth rest
      match ts with
      | .mark ')' :: ts => p.readFollowing depth outer ts
      | _ => none
    else p.readFollowing depth [] (.mark '(' :: rest)
  | depth + 1, ts => p.readFollowing depth [] ts

/-- Reads the parts that follow the name, and the parts `outer` further out. -/
def readFollowing (p : Program) :
    Nat → List Part → List Token → Option (List Part × List Token)
  | 0, _, _ => none
  | depth + 1, outer, .mark '[' :: .mark ']' :: ts =>
    p.readFollowing depth (.array none :: outer) ts
  | depth + 1, outer, .mark '[' :: .word n :: .mark ']' :: ts =>
    p.readFollowing depth (.array (some (Nat.ofDigitChars 10 n 0)) :: outer) ts
  | depth + 1, outer, .mark '(' :: ts => do
    let (params, variadic, ts) ← p.readParameters depth ts
    let (quals, ts) := takeFunctionQualifiers variadic ts
    p.readFollowing depth (.function params quals :: outer) ts
  | _ + 1, outer, ts => some (outer, ts)

/-- Reads a parameter list up to the parenthesis that ends it. -/
def readParameters (p : Program) : Nat → List Token → Option (List Ty × Bool × List Token)
  | 0, _ => none
  | _ + 1, .mark ')' :: ts => some ([], false, ts)
  | _ + 1, .ellipsis :: .mark ')' :: ts => some ([], true, ts)
  | depth + 1, ts => do
    let (t, ts) ← p.readType depth ts
    match ts with
    | .mark ',' :: ts => do
      let (params, variadic, ts) ← p.readParameters depth ts
      return (t :: params, variadic, ts)
    | .mark ')' :: ts => return ([t], false, ts)
    | _ => none

end

end Program

/-! ### Where types and their parts end -/

namespace Spelling

/-- Whether a type ends before these tokens: at their end, at a parenthesis or at a comma. -/
def Ends (ts : List Token) : Prop := ∀ token ∈ ts.head?, token = .mark ')' ∨ token = .mark ','

/-- The tokens that a part of a declarator may end before. -/
def isClosing (token : Token) : Bool :=
  token ∈ [.mark ')', .mark ',', .mark '(', .mark '[']

/-- Whether a part of a declarator may end before these tokens. -/
def EndsPart (ts : List Token) : Prop := ∀ token ∈ ts.head?, isClosing token = true

/-- The tokens that a declarator may begin with, if not with the name of a class. -/
def openingMarks : List Token := [.mark '*', .mark '&', .andAnd, .mark '(', .mark '[']

variable {ts : List Token} {token : Token}

/-- A level that is gone down into does not matter in the long run. -/
theorem eventually_of_succ {q : Nat → Prop} (h : ∀ᶠ depth in atTop, q (depth + 1)) :
    ∀ᶠ depth in atTop, q depth := by
  rw [← map_add_atTop_eq_nat 1]
  exact h

theorem ends_comma (ts : List Token) : Ends (.mark ',' :: ts) := by
  rintro _ ⟨⟩
  exact .inr rfl

theorem ends_paren (ts : List Token) : Ends (.mark ')' :: ts) := by
  rintro _ ⟨⟩
  exact .inl rfl

theorem Ends.endsPart (h : Ends ts) : EndsPart ts := by
  intro token ht
  rcases h token ht with rfl | rfl <;> rfl

theorem Ends.endsLeaf (h : Ends ts) : EndsLeaf ts := by
  intro token ht
  rcases h token ht with rfl | rfl <;> exact ⟨rfl, nofun⟩

theorem EndsPart.not_mem (h : EndsPart ts) (hne : isClosing token = false) :
    token ∉ ts.head? := by
  intro ht
  rw [h token ht] at hne
  cases hne

theorem endsLeaf_openingMarks : ∀ token ∈ openingMarks,
    isKeyword token = false ∧ token ≠ .scope := by decide

theorem tokens_suffix (q : FunctionQualifiers) :
    tokens (suffix q) = cvTokens q.cv ++ (optional (q.ref == .lvalue) (.mark '&') ++
      (optional (q.ref == .rvalue) .andAnd ++ optional q.noexcept (.word "noexcept".toList))) := by
  obtain ⟨variadic, cv, ref, noexcept⟩ := q
  have hcv : cvTokens cv = scan [] (if cv.isEmpty then "" else " " ++ cv.spelling).toList := by
    rcases cv with ⟨_ | _, _ | _⟩ <;> rfl
  simp only [tokens, suffix, String.toList_append, hcv]
  -- whatever the qualifiers are, each of the other words has a blank before it
  generalize (if cv.isEmpty then "" else " " ++ cv.spelling).toList = text
  cases ref <;> cases noexcept <;> simp [optional, scan_append_blank] <;> rfl

/-- What a function type says after its parameters is read back. -/
theorem takeFunctionQualifiers_suffix (q : FunctionQualifiers) (hts : EndsPart ts) :
    takeFunctionQualifiers q.variadic (tokens (suffix q) ++ ts) = (q, ts) := by
  have hnoexcept : .word "noexcept".toList ∉ ts.head? := hts.not_mem rfl
  have hafter : ∀ token : Token, isClosing token = false → token ≠ .word "noexcept".toList →
      token ∉ (optional q.noexcept (.word "noexcept".toList) ++ ts).head? :=
    fun _ hclosing hne => not_mem_head_optional hne _ (hts.not_mem hclosing)
  have hrvalue := hafter .andAnd rfl (by decide)
  have hmarks : Token.mark '&' ≠ .andAnd := by decide
  have hlvalue := not_mem_head_optional hmarks (q.ref == .rvalue)
    (hafter (.mark '&') rfl (by decide))
  have hwords : ∀ token ∈ [Token.word "const".toList, .word "volatile".toList],
      token ∉ (optional (q.ref == .lvalue) (.mark '&') ++ (optional (q.ref == .rvalue) .andAnd ++
        (optional q.noexcept (.word "noexcept".toList) ++ ts))).head? := by
    intro token htoken
    have hfacts : isClosing token = false ∧ token ≠ .word "noexcept".toList ∧ token ≠ .andAnd ∧
        token ≠ .mark '&' := by
      revert token
      decide
    exact not_mem_head_optional hfacts.2.2.2 _
      (not_mem_head_optional hfacts.2.2.1 _ (hafter token hfacts.1 hfacts.2.1))
  have hcv := takeCv_cvTokens q.cv (hwords _ (by decide)) (hwords _ (by decide))
  rw [tokens_suffix]
  simp only [List.append_assoc, takeFunctionQualifiers, hcv, takeToken_optional _ hlvalue,
    takeToken_optional _ hrvalue, takeToken_optional _ hnoexcept]
  rcases q with ⟨_, _, _ | _ | _, _⟩ <;> rfl

end Spelling

namespace Program

variable {p : Program} {t : Ty} {part : Part} {outer : List Part} {ts : List Token}
variable {answer : List Part × List Token}

/-- Whether the classes of the member pointers are declared records. -/
def ClassesDeclared (p : Program) (parts : List Part) : Prop :=
  ∀ c cv, .memberPointer c cv ∈ parts → ∃ id name, c = .record id ∧ p.nameOf? c = some name

/-- Where all names are words, a type can be cut into tokens. -/
theorem legible (hnames : p.WellNamed) (hnormal : t.isNormal = true)
    (hdeclared : p.IsDeclared t.leaf) (hlevels : t.parts.length ≤ maxDepth)
    (hclasses : p.ClassesDeclared t.parts) : p.Legible (t.unwind []) := by
  obtain ⟨u, cv, hu, hleaf⟩ := Ty.leaf_eq_qualify hnormal
  refine ⟨fun c hc => ?_, fun c cv hc => ?_, hlevels⟩
  · have hlast := hnames.getLast?_leaf hu (isDeclared_qualify (hleaf ▸ hdeclared) hu) cv
    have hc : (p.spell t.leaf).toList.getLast? = some c := hc
    rw [← hleaf, hc] at hlast
    exact hlast
  · obtain ⟨id, name, rfl, hname⟩ := hclasses c cv hc
    rw [spell_of_nameOf? hname]
    exact hnames.isWord hname

/-! ### Qualifiers and class names -/

section Qualifiers

variable (hnames : p.WellNamed) (hclasses : p.ClassesDeclared outer)
include hnames hclasses

/-- A declarator goes on with a word by the name of a class, or not at all. -/
theorem declaratorTokens_word :
    ∃ n ts, (∀ w, p.declaratorTokens w outer = finished (w ++ n) ++ ts) ∧
      ((n = [] ∧ ∀ token ∈ ts.head?, token ∈ openingMarks) ∨
        ∃ id name, p.nameOf? (.record id) = some name ∧ n = name.toList) := by
  have hmark : (∃ ts, (∀ w, p.declaratorTokens w outer = finished w ++ ts) ∧
      ∀ token ∈ ts.head?, token ∈ openingMarks) → ∃ n ts,
      (∀ w, p.declaratorTokens w outer = finished (w ++ n) ++ ts) ∧
        ((n = [] ∧ ∀ token ∈ ts.head?, token ∈ openingMarks) ∨
          ∃ id name, p.nameOf? (.record id) = some name ∧ n = name.toList) := by
    rintro ⟨ts, hts, hmarks⟩
    exact ⟨[], ts, by simpa using hts, .inl ⟨rfl, hmarks⟩⟩
  rcases outer with _ | ⟨part, outer⟩
  · exact hmark ⟨[], fun w => (List.append_nil _).symm, nofun⟩
  · cases hpart : part.precedes with
    | false =>
      obtain ⟨c, ts, hc, hts⟩ := p.declaratorTokens_head hpart outer
      refine hmark ⟨_, hts, ?_⟩
      rintro _ ⟨⟩
      rcases hc with rfl | rfl <;> decide
    | true =>
      cases part with
      | memberPointer c cv =>
        obtain ⟨id, name, rfl, hname⟩ := hclasses c cv List.mem_cons_self
        refine ⟨name.toList, .scope :: .mark '*' ::
          (leadingWords cv ++ p.declaratorTokens (lastWord cv) outer), fun w => ?_,
          .inr ⟨id, name, hname, rfl⟩⟩
        rw [finished_of_ne_nil (List.append_ne_nil_of_right_ne_nil w (hnames.isWord hname).1),
          declaratorTokens, spell_of_nameOf? hname]
        rfl
      | pointer cv | lvalueRef | rvalueRef =>
        exact hmark ⟨_, fun w => rfl, by rintro _ ⟨⟩; decide⟩
      | _ => cases hpart

/-- A qualifier is told from the name of a class that it runs together with. -/
theorem takeQualifier_glued (hstands : p.QualifiersStandOut) {cv : Cv}
    (hcv : cv ∈ [Cv.const, Cv.volatile]) (ts : List Token) :
    p.takeQualifier cv.spelling.toList (p.declaratorTokens cv.spelling.toList outer ++ ts) =
      (true, p.declaratorTokens [] outer ++ ts) := by
  obtain ⟨n, rest, hrest, hn⟩ := declaratorTokens_word hnames hclasses
  have hword : cv.spelling.toList ≠ [] ∧ cv.spelling ∈ keywords := by
    revert cv
    decide
  have hclass : p.isClassName (cv.spelling.toList ++ n) = false := by
    rw [← Bool.not_eq_true]
    intro h
    obtain ⟨d, hd⟩ := exists_of_isClassName h
    rcases hn with ⟨rfl, -⟩ | ⟨c, name, hname, rfl⟩
    · rw [List.append_nil, String.ofList_toList] at hd
      exact hnames.notKeyword _ _ hd hword.2
    · rw [← String.toList_append, String.ofList_toList] at hd
      exact hstands cv hcv c d name hname hd
  have hsplit : cv.spelling.toList.isPrefixOf? (cv.spelling.toList ++ n) = some n :=
    List.isPrefixOf?_eq_some_iff_append_eq.mpr rfl
  rw [hrest, hrest, finished_of_ne_nil (List.append_ne_nil_of_left_ne_nil hword.1 n)]
  simp only [List.cons_append, List.nil_append, takeQualifier, hclass, hsplit]
  simp

omit hnames hclasses in
theorem takeQualifier_not_word {q : List Char} (h : ∀ w, .word w ∉ ts.head?) :
    p.takeQualifier q ts = (false, ts) := by
  rcases ts with _ | ⟨token, ts⟩
  · rfl
  · cases token with
    | word w => exact absurd rfl (h w)
    | _ => rfl

/-- No qualifier is taken where a class name or another part comes next. -/
theorem takeQualifier_apart (hts : Ends ts) (q : List Char) :
    p.takeQualifier q (p.declaratorTokens [] outer ++ ts) =
      (false, p.declaratorTokens [] outer ++ ts) := by
  obtain ⟨n, rest, hrest, hn⟩ := declaratorTokens_word hnames hclasses
  rw [hrest, List.nil_append]
  rcases hn with ⟨rfl, hmarks⟩ | ⟨id, name, hname, rfl⟩
  · refine takeQualifier_not_word fun w hw => ?_
    rcases rest with _ | ⟨token, rest⟩
    · rcases hts _ hw with h | h <;> cases h
    · cases hw
      simpa [openingMarks] using hmarks _ rfl
  · rw [finished_of_ne_nil (hnames.isWord hname).1]
    simp [takeQualifier, hnames.isClassName_of_nameOf? hname]

theorem takeQualifier_const_volatile (ts : List Token) :
    p.takeQualifier "const".toList (p.declaratorTokens "volatile".toList outer ++ ts) =
      (false, p.declaratorTokens "volatile".toList outer ++ ts) := by
  obtain ⟨n, rest, hrest, -⟩ := declaratorTokens_word hnames hclasses
  have hsplit : "const".toList.isPrefixOf? ("volatile".toList ++ n) = none := rfl
  rw [hrest, finished_of_ne_nil (List.append_ne_nil_of_left_ne_nil (by decide) n)]
  simp only [List.cons_append, takeQualifier, hsplit, ite_self]

/-- The qualifiers of a pointer are read back, whatever part comes next. -/
theorem takeQualifiers_tokens (hstands : p.QualifiersStandOut) (hts : Ends ts) (cv : Cv) :
    p.takeQualifiers (leadingWords cv ++ (p.declaratorTokens (lastWord cv) outer ++ ts)) =
      (cv, p.declaratorTokens [] outer ++ ts) := by
  have happart := takeQualifier_apart hnames hclasses hts
  have hconst : p.takeQualifier "const".toList (p.declaratorTokens "const".toList outer ++ ts) =
      (true, p.declaratorTokens [] outer ++ ts) :=
    takeQualifier_glued hnames hclasses hstands List.mem_cons_self ts
  have hvolatile : p.takeQualifier "volatile".toList
      (p.declaratorTokens "volatile".toList outer ++ ts) =
        (true, p.declaratorTokens [] outer ++ ts) :=
    takeQualifier_glued hnames hclasses hstands (List.mem_cons_of_mem _ List.mem_cons_self) ts
  have hskip := takeQualifier_const_volatile hnames hclasses ts
  have hfirst : ∀ ts, p.takeQualifier "const".toList (.word "const".toList :: ts) = (true, ts) :=
    takeQualifier_glued hnames (show p.ClassesDeclared [] from nofun) hstands List.mem_cons_self
  rcases cv with ⟨_ | _, _ | _⟩
  · simp only [leadingWords, lastWord, Bool.false_and, Bool.false_eq_true, if_false,
      List.nil_append, takeQualifiers, happart]
  · simp only [leadingWords, lastWord, Bool.false_and, Bool.false_eq_true, if_false, if_true,
      List.nil_append, takeQualifiers, hskip, hvolatile]
  · simp only [leadingWords, lastWord, Bool.and_false, Bool.false_eq_true, if_false, if_true,
      List.nil_append, takeQualifiers, happart, hconst]
  · simp only [leadingWords, lastWord, Bool.and_true, if_true, List.cons_append, List.nil_append,
      takeQualifiers, hfirst, hvolatile]

theorem endsLeaf_declarator (hts : Ends ts) : EndsLeaf (p.declaratorTokens [] outer ++ ts) := by
  obtain ⟨n, rest, hrest, hn⟩ := declaratorTokens_word hnames hclasses
  rw [hrest, List.nil_append]
  rcases hn with ⟨rfl, hmarks⟩ | ⟨id, name, hname, rfl⟩
  · rcases rest with _ | ⟨token, rest⟩
    · exact hts.endsLeaf
    · rintro _ ⟨⟩
      exact endsLeaf_openingMarks token (hmarks token rfl)
  · rw [finished_of_ne_nil (hnames.isWord hname).1]
    rintro _ ⟨⟩
    exact ⟨hnames.isKeyword_name hname, nofun⟩

end Qualifiers

/-! ### Parts that follow the name -/

/-- Whether the type is read back wherever it may end, and does not look like a declarator. -/
structure IsRead (p : Program) (t : Ty) : Prop where
  readType : ∀ ts, Ends ts →
    ∀ᶠ depth in atTop, p.readType depth (tokens (p.spell t) ++ ts) = some (t, ts)
  word : ∃ w ts, tokens (p.spell t) = .word w :: ts
  opens : ∀ ts, Ends ts → opensDeclarator (tokens (p.spell t) ++ ts) = false

theorem parameterTokens_cons (p : Program) (t : Ty) (params : List Ty) (variadic : Bool) :
    p.parameterTokens (t :: params) variadic =
      tokens (p.spell t) ++
        if params = [] ∧ variadic = false then []
        else .mark ',' :: p.parameterTokens params variadic := by
  unfold parameterTokens
  cases params <;> cases variadic <;> simp [List.intercalate_cons_cons]

theorem readParameters_comma {w : List Char} {rest ts' : List Token} {params : List Ty}
    {variadic : Bool}
    (h : ∀ᶠ depth in atTop, p.readType depth (.word w :: rest) = some (t, .mark ',' :: ts))
    (hrest : ∀ᶠ depth in atTop, p.readParameters depth ts = some (params, variadic, ts')) :
    ∀ᶠ depth in atTop,
      p.readParameters depth (.word w :: rest) = some (t :: params, variadic, ts') := by
  refine eventually_of_succ ?_
  filter_upwards [h, hrest] with depth h hrest
  simp [readParameters, h, hrest]

theorem readParameters_paren {w : List Char} {rest : List Token}
    (h : ∀ᶠ depth in atTop, p.readType depth (.word w :: rest) = some (t, .mark ')' :: ts)) :
    ∀ᶠ depth in atTop, p.readParameters depth (.word w :: rest) = some ([t], false, ts) := by
  refine eventually_of_succ ?_
  filter_upwards [h] with depth h
  simp [readParameters, h]

/-- A parameter list is read back. -/
theorem readParameters_tokens {params : List Ty} (h : ∀ t ∈ params, p.IsRead t) (variadic : Bool)
    (ts : List Token) :
    ∀ᶠ depth in atTop,
      p.readParameters depth (p.parameterTokens params variadic ++ .mark ')' :: ts) =
        some (params, variadic, ts) := by
  induction params with
  | nil => cases variadic <;> exact eventually_of_succ (.of_forall fun _ => rfl)
  | cons t params ih =>
    have ih := ih fun u hu => h u (List.mem_cons_of_mem _ hu)
    obtain ⟨hread, ⟨w, rest, hword⟩, -⟩ := h t List.mem_cons_self
    rw [hword] at hread
    rw [parameterTokens_cons, List.append_assoc, hword]
    split
    · rename_i hlast
      obtain ⟨rfl, rfl⟩ := hlast
      exact readParameters_paren (hread _ (ends_paren ts))
    · exact readParameters_comma (hread _ (ends_comma _)) ih

theorem opensDeclarator_parameters {params : List Ty} (h : ∀ t ∈ params, p.IsRead t)
    (variadic : Bool) (ts : List Token) :
    opensDeclarator (p.parameterTokens params variadic ++ .mark ')' :: ts) = false := by
  cases params with
  | nil => cases variadic <;> rfl
  | cons t params =>
    have hopens := (h t List.mem_cons_self).opens
    rw [parameterTokens_cons, List.append_assoc]
    split
    · exact hopens _ (ends_paren ts)
    · exact hopens _ (ends_comma _)

/-- A part that follows the name is read back, before the parts further out. -/
theorem readFollowing_part (hpart : part.precedes = false)
    (hparams : ∀ params q, part = .function params q → ∀ t ∈ params, p.IsRead t)
    (hts : EndsPart ts)
    (h : ∀ᶠ depth in atTop, p.readFollowing depth (part :: outer) ts = some answer) :
    ∀ᶠ depth in atTop,
      p.readFollowing depth outer (p.followingTokens part ++ ts) = some answer := by
  refine eventually_of_succ ?_
  cases part with
  | array b =>
    filter_upwards [h] with depth h
    rw [← h]
    cases b with
    | none => rfl
    | some n =>
      have hn : Nat.ofDigitChars 10 (toString n).toList 0 = n := by
        rw [Nat.toString_eq_ofList_toDigits, String.toList_ofList, Nat.ofDigitChars_ten_toDigits]
      change p.readFollowing depth
        (.array (some (Nat.ofDigitChars 10 (toString n).toList 0)) :: outer) ts = _
      rw [hn]
  | function params q =>
    have hread :=
      readParameters_tokens (hparams params q rfl) q.variadic (tokens (suffix q) ++ ts)
    filter_upwards [h, hread] with depth h hread
    simp only [followingTokens, List.cons_append, List.append_assoc, readFollowing, hread]
    simp [takeFunctionQualifiers_suffix q hts, h]
  | _ => cases hpart

/-- A part that follows the name begins neither a type nor a declarator in parentheses. -/
theorem followingTokens_begin (hpart : part.precedes = false)
    (hparams : ∀ params q, part = .function params q → ∀ t ∈ params, p.IsRead t)
    (ts : List Token) :
    EndsPart (p.followingTokens part ++ ts) ∧
      ∀ rest, p.followingTokens part ++ ts = .mark '(' :: rest →
        opensDeclarator rest = false := by
  cases part with
  | array b => exact ⟨by rintro _ ⟨⟩; decide, nofun⟩
  | function params q =>
    refine ⟨by rintro _ ⟨⟩; decide, fun rest hrest => ?_⟩
    simp only [followingTokens, List.cons_append, List.append_assoc, List.cons.injEq, true_and]
      at hrest
    rw [← hrest]
    exact opensDeclarator_parameters (hparams params q rfl) q.variadic _
  | _ => cases hpart

theorem readFollowing_ends (h : Ends ts) :
    ∀ᶠ depth in atTop, p.readFollowing depth outer ts = some (outer, ts) := by
  refine eventually_of_succ (.of_forall fun depth => ?_)
  rcases ts with _ | ⟨token, ts⟩
  · rfl
  · rcases h _ rfl with rfl | rfl <;> rfl

/-! ### Declarators -/

/-- Whether the parts can be read back: the classes of member pointers and the parameters can. -/
structure AreReadable (p : Program) (parts : List Part) : Prop where
  classes : p.ClassesDeclared parts
  params : ∀ params q, .function params q ∈ parts → ∀ t ∈ params, p.IsRead t

theorem AreReadable.tail (h : p.AreReadable (part :: outer)) : p.AreReadable outer :=
  ⟨fun c cv hc => h.classes c cv (List.mem_cons_of_mem _ hc),
    fun params q hq => h.params params q (List.mem_cons_of_mem _ hq)⟩

/-- Tokens that begin no part before the name are read as parts that follow it. -/
theorem readDeclarator_group (hopens : opensDeclarator ts = false)
    (h : ∀ᶠ depth in atTop, p.readGroup depth ts = some answer) :
    ∀ᶠ depth in atTop, p.readDeclarator depth ts = some answer := by
  refine eventually_of_succ ?_
  filter_upwards [h] with depth h
  rw [← h]
  refine readDeclarator.eq_6 p ts depth ?_ ?_ ?_ ?_ <;> intros <;> subst_vars <;> cases hopens

theorem readGroup_following
    (hopens : ∀ rest, ts = .mark '(' :: rest → opensDeclarator rest = false)
    (h : ∀ᶠ depth in atTop, p.readFollowing depth [] ts = some answer) :
    ∀ᶠ depth in atTop, p.readGroup depth ts = some answer := by
  refine eventually_of_succ ?_
  filter_upwards [h] with depth h
  rw [← h]
  rcases ts with _ | ⟨token, rest⟩
  · rfl
  · by_cases hparen : token = .mark '('
    · subst hparen
      simp [readGroup, hopens rest rfl]
    · exact readGroup.eq_3 p (token :: rest) depth fun rest' h => hparen (List.cons.inj h).1

/-- A declarator in parentheses is read before the parts that follow it. -/
theorem readGroup_paren {rest : List Token} (hopens : opensDeclarator ts = true)
    (hread : ∀ᶠ depth in atTop,
      p.readDeclarator depth ts = some (outer, .mark ')' :: rest))
    (h : ∀ᶠ depth in atTop, p.readFollowing depth outer rest = some answer) :
    ∀ᶠ depth in atTop, p.readGroup depth (.mark '(' :: ts) = some answer := by
  refine eventually_of_succ ?_
  filter_upwards [hread, h] with depth hread h
  simp [readGroup, hopens, hread, h]

theorem opensDeclarator_of_precedes (h : part.precedes = true) (outer : List Part)
    (ts : List Token) : opensDeclarator (p.declaratorTokens [] (part :: outer) ++ ts) = true := by
  cases part <;> first | rfl | cases h

theorem opensDeclarator_of_follows (h : part.precedes = false) (outer : List Part)
    (ts : List Token) : opensDeclarator (p.declaratorTokens [] (part :: outer) ++ ts) = false := by
  obtain ⟨c, rest, hc, hrest⟩ := p.declaratorTokens_head h outer
  rw [hrest]
  rcases hc with rfl | rfl <;> rfl

section Reading

variable (hnames : p.WellNamed) (hstands : p.QualifiersStandOut)
include hnames hstands

/-- A part before the name is read back where the rest of the declarator is. -/
theorem readDeclarator_part (hpart : part.precedes = true) (hparts : p.AreReadable (part :: outer))
    (hts : Ends ts) (h : ∀ᶠ depth in atTop,
      p.readDeclarator depth (p.declaratorTokens [] outer ++ ts) = some (outer, ts)) :
    ∀ᶠ depth in atTop, p.readDeclarator depth (p.declaratorTokens [] (part :: outer) ++ ts) =
      some (part :: outer, ts) := by
  have hcv := takeQualifiers_tokens hnames hparts.tail.classes hstands hts
  refine eventually_of_succ ?_
  filter_upwards [h] with depth h
  cases part with
  | pointer cv => simp [declaratorTokens, finished, readDeclarator, hcv, h]
  | lvalueRef => simp [declaratorTokens, finished, readDeclarator, h]
  | rvalueRef => simp [declaratorTokens, finished, readDeclarator, h]
  | memberPointer c cv =>
    obtain ⟨id, name, rfl, hname⟩ := hparts.classes c cv List.mem_cons_self
    simp [declaratorTokens, spell_of_nameOf? hname, readDeclarator,
      hnames.named?_of_nameOf? hname, hcv, h]
  | _ => cases hpart

/-- A declarator is read back. Before parts that follow it, it is read in the parentheses that it
needs, and they are read after it; the induction takes both together. -/
theorem readDeclarator_tokens (h : p.AreReadable outer) :
    (∀ ts, Ends ts → ∀ᶠ depth in atTop,
      p.readDeclarator depth (p.declaratorTokens [] outer ++ ts) = some (outer, ts)) ∧
    ∀ ts answer, EndsPart ts →
      (∀ rest, ts = .mark '(' :: rest → opensDeclarator rest = false) →
      (∀ᶠ depth in atTop, p.readFollowing depth outer ts = some answer) →
      ∀ᶠ depth in atTop,
        p.readGroup depth (grouped [] outer (p.declaratorTokens · outer) ++ ts) =
          some answer := by
  induction outer with
  | nil =>
    refine ⟨fun ts hts => ?_, fun ts answer _ hopens => readGroup_following hopens⟩
    have hopens : opensDeclarator ts = false ∧ ∀ rest, ts ≠ .mark '(' :: rest := by
      rcases ts with _ | ⟨token, ts⟩
      · exact ⟨rfl, nofun⟩
      · rcases hts _ rfl with rfl | rfl <;> exact ⟨rfl, nofun⟩
    exact readDeclarator_group hopens.1
      (readGroup_following (fun rest hrest => absurd hrest (hopens.2 rest))
        (readFollowing_ends hts))
  | cons part outer ih =>
    obtain ⟨ihread, ihgroup⟩ := ih h.tail
    cases hpart : part.precedes with
    | true =>
      have hread : ∀ ts, Ends ts → ∀ᶠ depth in atTop,
          p.readDeclarator depth (p.declaratorTokens [] (part :: outer) ++ ts) =
            some (part :: outer, ts) :=
        fun ts hts => readDeclarator_part hnames hstands hpart h hts (ihread ts hts)
      refine ⟨hread, fun ts answer _ _ hfollowing => ?_⟩
      rw [grouped_of_precedes hpart]
      simp only [finished, List.nil_append, List.cons_append, List.append_assoc]
      exact readGroup_paren (opensDeclarator_of_precedes hpart outer _) (hread _ (ends_paren ts))
        hfollowing
    | false =>
      have hgroup : ∀ ts answer, EndsPart ts →
          (∀ᶠ depth in atTop, p.readFollowing depth (part :: outer) ts = some answer) →
          ∀ᶠ depth in atTop,
            p.readGroup depth (p.declaratorTokens [] (part :: outer) ++ ts) = some answer := by
        intro ts answer hts hfollowing
        have hparams : ∀ params q, part = .function params q → ∀ t ∈ params, p.IsRead t := by
          rintro params q rfl
          exact h.params params q List.mem_cons_self
        obtain ⟨hends, hopens⟩ := followingTokens_begin hpart hparams ts
        rw [declaratorTokens_cons hpart, List.append_assoc]
        exact ihgroup _ answer hends hopens (readFollowing_part hpart hparams hts hfollowing)
      refine ⟨fun ts hts => ?_, fun ts answer hts _ hfollowing => ?_⟩
      · exact readDeclarator_group (opensDeclarator_of_follows hpart outer ts)
          (hgroup ts _ hts.endsPart (readFollowing_ends hts))
      · rw [grouped_of_follows hpart]
        exact hgroup ts answer hts hfollowing

/-- A type comes back from the tokens it is spelled with. -/
theorem isRead (hnormal : t.isNormal = true) (hdeclared : p.IsDeclared t.leaf)
    (hlevels : t.parts.length ≤ maxDepth) (h : p.AreReadable t.parts) : p.IsRead t := by
  obtain ⟨u, cv, hu, hleaf⟩ := Ty.leaf_eq_qualify hnormal
  have hu' := isDeclared_qualify (hleaf ▸ hdeclared) hu
  have htokens := tokens_spell hnormal (legible hnames hnormal hdeclared hlevels h.classes)
  rw [hleaf] at htokens
  constructor
  · intro ts hts
    have hends := endsLeaf_declarator hnames h.classes hts
    have hread := readLeaf_tokens hnames hu hu' cv hends
    have hfold : t.parts.foldl Part.apply (u.qualify cv) = t :=
      hleaf ▸ Ty.foldl_apply_unwind hnormal
    refine eventually_of_succ ?_
    filter_upwards [(readDeclarator_tokens hnames hstands h).1 ts hts] with depth hparts
    rw [htokens, List.append_assoc, readType, hread]
    simp [hparts, hfold]
  · obtain ⟨⟨w, ws, hw⟩, -⟩ := leaf_begins hnames hu hu' cv (show EndsLeaf [] from nofun)
    rw [htokens, hw]
    exact ⟨_, _, rfl⟩
  · intro ts hts
    rw [htokens, List.append_assoc]
    exact (leaf_begins hnames hu hu' cv (endsLeaf_declarator hnames h.classes hts)).2

end Reading

end Program

end TypeTraits
