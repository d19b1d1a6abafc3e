import TypeTraits.Proofs.Spelling.Token
import TypeTraits.Proofs.Ty.NormalForm

/-!
# Declarators

A type is a leaf with the parts of a declarator around the place of the name. A part that follows
the name binds before one that precedes it, so the parts from the leaf outwards are written with
parentheses wherever one that follows the name is followed by one that precedes it. The tokens of
a spelled type are those of its leaf and then those of its declarator, where a qualifier runs
together with the name of a class that comes right after it.
-/

namespace TypeTraits

open Spelling

/-- A part of a declarator. The qualifiers of a pointer belong to its part. -/
inductive Part where
  | pointer (cv : Cv)
  | lvalueRef
  | rvalueRef
  | memberPointer (cls : Ty) (cv : Cv)
  | array (bound : Option Nat)
  | function (params : List Ty) (quals : FunctionQualifiers)

namespace Part

/-- The type that the part forms from `t`. -/
def apply (t : Ty) : Part → Ty
  | pointer cv => (Ty.pointer t).qualify cv
  | lvalueRef => .lvalueRef t
  | rvalueRef => .rvalueRef t
  | memberPointer cls cv => (Ty.memberPointer cls t).qualify cv
  | array bound => .array t bound
  | function params quals => .function t params quals

/-- Whether the part is written before the name. -/
def precedes : Part → Bool
  | array _ | function .. => false
  | _ => true

def isReference : Part → Bool
  | lvalueRef | rvalueRef => true
  | _ => false

end Part

namespace Ty

/-- The leaf of a type, and its declarator from the leaf outwards, followed by `outer`. -/
def unwind : Ty → List Part → Ty × List Part
  | qualified (pointer t) cv, outer => t.unwind (.pointer cv :: outer)
  | qualified (memberPointer c t) cv, outer => t.unwind (.memberPointer c cv :: outer)
  | pointer t, outer => t.unwind (.pointer ∅ :: outer)
  | lvalueRef t, outer => t.unwind (.lvalueRef :: outer)
  | rvalueRef t, outer => t.unwind (.rvalueRef :: outer)
  | memberPointer c t, outer => t.unwind (.memberPointer c ∅ :: outer)
  | array t b, outer => t.unwind (.array b :: outer)
  | function r ps q, outer => r.unwind (.function ps q :: outer)
  | t, outer => (t, outer)

/-- The type that is left when the declarator is taken away. -/
def leaf (t : Ty) : Ty := (t.unwind []).1

/-- The parts of the declarator, from the leaf outwards. -/
def parts (t : Ty) : List Part := (t.unwind []).2

/-- Whether the type is known by a name. -/
def isNamed : Ty → Bool
  | void | nullptr | builtin _ | record _ | enum _ => true
  | _ => false

/-- Whether the outermost part of the declarator follows the name. -/
def followsName : Ty → Bool
  | array .. | function .. | functionNamed _ => true
  | _ => false

variable {t : Ty} {outer : List Part}

theorem suffix_unwind (t : Ty) (outer : List Part) : outer <:+ (t.unwind outer).2 := by
  fun_induction unwind t outer with
  | case9 t outer => exact List.suffix_rfl
  | _ => rename_i ih; exact (List.suffix_cons ..).trans ih

/-- A type is its leaf with the parts of its declarator around it. -/
theorem foldl_apply_unwind (h : t.isNormal = true) :
    (t.unwind outer).2.foldl Part.apply (t.unwind outer).1 = outer.foldl Part.apply t := by
  fun_induction unwind t outer with
  | case9 t outer => rfl
  | _ =>
    rename_i ih
    simp only [isNormal, Bool.and_eq_true, Bool.not_eq_true'] at h
    rw [ih (by simp_all)]
    simp_all [Part.apply, qualify_of_not_isEmpty, withCv]

/-- The leaf is a possibly qualified type that is known by a name. -/
theorem unwind_leaf (h : t.isNormal = true) (outer : List Part) :
    ∃ (u : Ty) (cv : Cv), u.isNamed = true ∧ (t.unwind outer).1 = u.qualify cv := by
  fun_induction unwind t outer with
  | case9 t outer =>
    cases t with
    | qualified t cv =>
      simp only [isNormal, Bool.and_eq_true, Bool.not_eq_true'] at h
      refine ⟨t, cv, ?_, by rw [qualify_of_not_isEmpty h.1.1, withCv_of_takesQualifier h.1.2]⟩
      cases t <;> simp_all [takesQualifier, isNormal, isNamed]
    | _ => exact ⟨_, ∅, by simp_all [isNormal, isNamed], (qualify_empty _).symm⟩
  | _ =>
    rename_i ih
    simp only [isNormal, Bool.and_eq_true, Bool.not_eq_true'] at h
    exact ih (by simp_all)

theorem leaf_eq_qualify (h : t.isNormal = true) :
    ∃ (u : Ty) (cv : Cv), u.isNamed = true ∧ t.leaf = u.qualify cv :=
  unwind_leaf h []

end Ty

namespace Spelling

/-- The words of a qualification but the last. -/
def leadingWords (cv : Cv) : List Token :=
  if cv.isConst && cv.isVolatile then [.word "const".toList] else []

/-- The last word of a qualification. -/
def lastWord (cv : Cv) : List Char :=
  if cv.isVolatile then "volatile".toList else if cv.isConst then "const".toList else []

theorem scan_spelling (cv : Cv) (cs : List Char) :
    scan [] (cv.spelling.toList ++ cs) = leadingWords cv ++ scan (lastWord cv) cs := by
  rcases cv with ⟨_ | _, _ | _⟩ <;> rfl

/-- What is between the brackets of an array. -/
def boundTokens : Option Nat → List Token
  | none => []
  | some n => [.word (toString n).toList]

/-- A declarator, in parentheses if it begins before the name. -/
def grouped (w : List Char) (outer : List Part) (inside : List Char → List Token) : List Token :=
  if outer.head?.any Part.precedes then
    finished w ++ Token.mark '(' :: (inside [] ++ [Token.mark ')'])
  else inside w

variable {part : Part} {outer : List Part} {w : List Char}

theorem grouped_of_precedes (h : part.precedes = true) (f : List Char → List Token) :
    grouped w (part :: outer) f = finished w ++ .mark '(' :: (f [] ++ [.mark ')']) := by
  simp [grouped, h]

theorem grouped_of_follows (h : part.precedes = false) (f : List Char → List Token) :
    grouped w (part :: outer) f = f w := by
  simp [grouped, h]

end Spelling

namespace Program

/-- What is between the parentheses of a parameter list. -/
def parameterTokens (p : Program) (params : List Ty) (variadic : Bool) : List Token :=
  [.mark ','].intercalate
    (params.map (fun t => tokens (p.spell t)) ++ if variadic then [[.ellipsis]] else [])

/-- The tokens of a part that follows the name. -/
def followingTokens (p : Program) : Part → List Token
  | .array b => .mark '[' :: (boundTokens b ++ [.mark ']'])
  | .function ps q =>
    .mark '(' :: (p.parameterTokens ps q.variadic ++ .mark ')' :: tokens (suffix q))
  | _ => []

/-- The tokens of a declarator that comes after the characters of a word. -/
def declaratorTokens (p : Program) (w : List Char) : List Part → List Token
  | [] => finished w
  | .pointer cv :: outer =>
    finished w ++ .mark '*' :: (leadingWords cv ++ p.declaratorTokens (lastWord cv) outer)
  | .lvalueRef :: outer => finished w ++ .mark '&' :: p.declaratorTokens [] outer
  | .rvalueRef :: outer => finished w ++ .andAnd :: p.declaratorTokens [] outer
  | .memberPointer c cv :: outer =>
    .word (w ++ (p.spell c).toList) :: .scope :: .mark '*' ::
      (leadingWords cv ++ p.declaratorTokens (lastWord cv) outer)
  | part :: outer => grouped w outer (p.declaratorTokens · outer) ++ p.followingTokens part

variable {p : Program} {t u : Ty} {part : Part} {outer : List Part} {w : List Char} {s : String}

theorem declaratorTokens_cons (h : part.precedes = false) :
    p.declaratorTokens w (part :: outer) =
      grouped w outer (p.declaratorTokens · outer) ++ p.followingTokens part := by
  cases part <;> first | rfl | cases h

theorem followingTokens_head (p : Program) (h : part.precedes = false) :
    ∃ c ts, (c = '(' ∨ c = '[') ∧ p.followingTokens part = .mark c :: ts := by
  cases part <;> first | exact ⟨_, _, .inl rfl, rfl⟩ | exact ⟨_, _, .inr rfl, rfl⟩ | cases h

/-- A declarator that begins after the name begins with a parenthesis or a bracket. -/
theorem declaratorTokens_head (p : Program) (h : part.precedes = false) (outer : List Part) :
    ∃ c ts, (c = '(' ∨ c = '[') ∧
      ∀ w, p.declaratorTokens w (part :: outer) = finished w ++ .mark c :: ts := by
  simp only [declaratorTokens_cons h]
  induction outer generalizing part with
  | nil =>
    obtain ⟨c, ts, hc, hts⟩ := followingTokens_head p h
    exact ⟨c, ts, hc, fun w => by rw [hts]; rfl⟩
  | cons next outer ih =>
    cases hnext : next.precedes with
    | true =>
      refine ⟨'(', p.declaratorTokens [] (next :: outer) ++ .mark ')' :: p.followingTokens part,
        .inl rfl, fun w => ?_⟩
      simp [grouped_of_precedes hnext]
    | false =>
      obtain ⟨c, ts, hc, hts⟩ := ih hnext
      refine ⟨c, ts ++ p.followingTokens part, hc, fun w => ?_⟩
      simp [grouped_of_follows hnext, declaratorTokens_cons hnext, hts]

theorem declaratorTokens_ne_reference (p : Program)
    (hrefs : ∀ part ∈ outer.head?, part.isReference = false) (ts : List Token) :
    p.declaratorTokens [] outer ≠ .mark '&' :: ts ∧
      p.declaratorTokens [] outer ≠ .andAnd :: ts := by
  rcases outer with _ | ⟨part, outer⟩
  · exact ⟨nofun, nofun⟩
  · cases hpart : part.precedes with
    | true =>
      have hreference := hrefs part rfl
      cases part <;> simp_all [declaratorTokens, finished, Part.isReference, Part.precedes]
    | false =>
      obtain ⟨c, ts', hc, hts'⟩ := declaratorTokens_head p hpart outer
      rw [hts']
      rcases hc with rfl | rfl <;> simp [finished]

/-- Whether `s` is the text of a declarator with these parts, whatever word it goes on with. -/
def Spells (p : Program) (s : String) (outer : List Part) : Prop :=
  ∀ w, scan w s.toList = p.declaratorTokens w outer

/-- Whether `s` is the text of the declarator around the type `t`: what precedes the name is in
parentheses where the next part, one of `t`, follows the name. -/
def SpellsAround (p : Program) (t : Ty) (s : String) (outer : List Part) : Prop :=
  if t.followsName then ∀ w, scan w s.toList = grouped w outer (p.declaratorTokens · outer)
  else p.Spells s outer

namespace Spells

theorem pointer (h : p.Spells s outer) : p.Spells ("*" ++ s) (.pointer ∅ :: outer) := by
  intro w
  have htext : ("*" ++ s).toList = '*' :: s.toList := by simp
  rw [htext, scan_cons_of_not_isWordChar (by decide), declaratorTokens, ← h]
  rfl

theorem qualifiedPointer (h : p.Spells s outer) (cv : Cv) :
    p.Spells ("* " ++ cv.spelling ++ s) (.pointer cv :: outer) := by
  intro w
  have htext : ("* " ++ cv.spelling ++ s).toList =
      '*' :: ' ' :: (cv.spelling.toList ++ s.toList) := by simp
  rw [htext, scan_cons_of_not_isWordChar (by decide), declaratorTokens, ← h, ← scan_spelling]
  rfl

theorem rvalueRef (h : p.Spells s outer) : p.Spells ("&&" ++ s) (.rvalueRef :: outer) := by
  intro w
  have htext : ("&&" ++ s).toList = '&' :: '&' :: s.toList := by simp
  rw [htext, declaratorTokens, ← h]
  rfl

/-- The mark of a reference stays one mark because references do not nest. -/
theorem lvalueRef (h : p.Spells s outer)
    (hrefs : ∀ part ∈ outer.head?, part.isReference = false) :
    p.Spells ("&" ++ s) (.lvalueRef :: outer) := by
  intro w
  have htext : ("&" ++ s).toList = '&' :: s.toList := by simp
  have hstart : ∀ cs, s.toList ≠ '&' :: cs := by
    intro cs hs
    have htokens := h []
    have hne := declaratorTokens_ne_reference p hrefs
    rw [hs] at htokens
    obtain ⟨ts, hts | hts⟩ := scan_ampersand cs
    · exact (hne ts).1 (htokens.symm.trans hts)
    · exact (hne ts).2 (htokens.symm.trans hts)
  rw [htext, declaratorTokens, ← h]
  exact scan.eq_5 w '&' _ (fun cs _ hs => hstart cs hs) (fun _ h => absurd h (by decide))
    (fun _ h => absurd h (by decide))

theorem memberPointer {c : Ty} (h : p.Spells s outer) (hc : IsWord (p.spell c)) :
    p.Spells (p.spell c ++ "::*" ++ s) (.memberPointer c ∅ :: outer) := by
  intro w
  have htext : (p.spell c ++ "::*" ++ s).toList =
      (p.spell c).toList ++ ':' :: ':' :: '*' :: s.toList := by simp
  rw [htext, hc.scan_append (by decide), declaratorTokens, ← h]
  rfl

theorem qualifiedMemberPointer {c : Ty} (h : p.Spells s outer) (hc : IsWord (p.spell c))
    (cv : Cv) :
    p.Spells (p.spell c ++ "::* " ++ cv.spelling ++ s) (.memberPointer c cv :: outer) := by
  intro w
  have htext : (p.spell c ++ "::* " ++ cv.spelling ++ s).toList =
      (p.spell c).toList ++ ':' :: ':' :: '*' :: ' ' :: (cv.spelling.toList ++ s.toList) := by simp
  rw [htext, hc.scan_append (by decide), declaratorTokens, ← h, ← scan_spelling]
  rfl

/-- A declarator that begins before the name gets the parentheses it needs. -/
theorem wrap (h : p.Spells s (part :: outer)) (hpart : part.precedes = true) (t : Ty) :
    p.SpellsAround t (wrap t s) (part :: outer) := by
  have htext : (Spelling.wrap t s).toList =
      if t.followsName then ' ' :: '(' :: (s.toList ++ [')']) else s.toList := by
    cases t <;> simp [Spelling.wrap, Ty.followsName]
  have hparen : scan [] (s.toList ++ [')']) = scan [] s.toList ++ [.mark ')'] :=
    scan_append_of_not_isRepeating (by decide) (by decide)
  unfold SpellsAround
  split
  · intro w
    rw [htext, if_pos ‹_›, grouped_of_precedes hpart, ← h, ← hparen,
      scan_cons_of_not_isWordChar (by decide)]
    rfl
  · intro w
    rw [htext, if_neg ‹_›, h]

/-- A declarator that begins after the name needs no parentheses. -/
theorem around (h : p.Spells s (part :: outer)) (hpart : part.precedes = false) (t : Ty) :
    p.SpellsAround t s (part :: outer) := by
  unfold SpellsAround
  simp only [grouped_of_follows hpart]
  exact (ite_self _).mpr h

end Spells

theorem declarators_eq_map (p : Program) (ts : List Ty) : p.declarators ts = ts.map p.spell := by
  induction ts with
  | nil => rfl
  | cons t ts ih => rw [declarators, ih]; rfl

namespace SpellsAround

theorem spells (h : p.SpellsAround t s outer) (ht : t.followsName = false) :
    p.Spells s outer := by
  simpa [SpellsAround, ht] using h

theorem array {b : Option Nat} :
    p.SpellsAround (.array t b) s outer →
      p.Spells (s ++ match b with
        | some n => s!"[{n}]"
        | none => "[]") (.array b :: outer) := by
  intro h w
  have h : ∀ w, scan w s.toList = grouped w outer (p.declaratorTokens · outer) := h
  rw [declaratorTokens_cons rfl, ← h]
  cases b with
  | none =>
    rw [String.toList_append]
    exact scan_append_of_not_isRepeating (by decide) (by decide)
  | some n =>
    have htext : (s ++ (toString "[" ++ toString n ++ toString "]")).toList =
        s.toList ++ '[' :: ((toString n).toList ++ [']']) := by
      rw [String.toList_append, String.toList_append, String.toList_append]
      rfl
    have hbound : scan [] ('[' :: ((toString n).toList ++ [']'])) =
        .mark '[' :: scan [] ((toString n).toList ++ [']']) := rfl
    rw [htext, scan_append_of_not_isRepeating (by decide) (by decide), hbound,
      (isWord_toString n).scan_append (by decide)]
    rfl

theorem function {ps : List Ty} {q : FunctionQualifiers}
    (h : p.SpellsAround (.function t ps q) s outer) :
    p.Spells (s ++ "(" ++ ", ".intercalate (p.declarators ps ++
      (if q.variadic then ["..."] else [])) ++ ")" ++ suffix q) (.function ps q :: outer) := by
  have h : ∀ w, scan w s.toList = grouped w outer (p.declaratorTokens · outer) := h
  have hparameters : p.parameterTokens ps q.variadic = [.mark ','].intercalate
      ((p.declarators ps ++ (if q.variadic then ["..."] else [])).map tokens) := by
    rw [parameterTokens, declarators_eq_map, List.map_append, List.map_map]
    split <;> rfl
  intro w
  generalize p.declarators ps ++ (if q.variadic then ["..."] else []) = texts at hparameters ⊢
  have htext : (s ++ "(" ++ ", ".intercalate texts ++ ")" ++ suffix q).toList =
      s.toList ++ '(' :: ((", ".intercalate texts).toList ++ ')' :: (suffix q).toList) := by
    simp
  have hopening : ∀ cs, scan [] ('(' :: cs) = .mark '(' :: scan [] cs := fun _ => rfl
  rw [htext, scan_append_of_not_isRepeating (by decide) (by decide), hopening, scan_intercalate,
    declaratorTokens_cons rfl, ← h, followingTokens, hparameters]
  rfl

end SpellsAround

theorem tokens_join {base : String} (inner : String)
    (hlast : ∀ c ∈ base.toList.getLast?, isWordChar c = true) :
    tokens (join base inner) = tokens base ++ tokens inner := by
  have hseparates : ∀ {c : Char}, isWordChar c = false → Separates base.toList c := by
    intro c hc
    refine ⟨hc, fun d hd hrepeats => ?_⟩
    rw [isRepeating_of_isWordChar (hlast d hd)] at hrepeats
    cases hrepeats
  unfold join tokens
  cases hinner : inner.toList with
  | nil => simp [scan, finished]
  | cons c cs =>
    simp only
    split
    · rename_i hc
      rw [String.toList_append, hinner]
      refine (hseparates ?_).scan_append
      simp only [List.mem_cons, List.not_mem_nil, or_false] at hc
      rcases hc with rfl | rfl | rfl | rfl | rfl <;> decide
    · simp only [String.toList_append, hinner, List.append_assoc]
      exact (hseparates (by decide)).scan_append

theorem join_empty (base : String) : join base "" = base := rfl

/-- A leaf stands before its declarator. -/
theorem declarator_leaf (p : Program) (h : u.isNamed = true) (cv : Cv) (inner : String)
    {depth : Nat} (hdepth : depth ≤ maxDepth) :
    p.declarator inner depth (u.qualify cv) = join (p.spell (u.qualify cv)) inner := by
  unfold Ty.qualify
  split <;> cases u <;> simp [Ty.isNamed] at h <;>
    simp [declarator, Ty.withCv, spell, join_empty, Nat.not_lt.mpr hdepth]

theorem spell_qualify (p : Program) (h : u.isNamed = true) (cv : Cv) :
    p.spell (u.qualify cv) =
      if cv.isEmpty then p.spell u else cv.spelling ++ " " ++ p.spell u := by
  unfold Ty.qualify
  split
  · rfl
  · cases u <;> simp_all [declarator, Ty.withCv, spell, join_empty, Ty.isNamed]

/-- What it takes to cut a spelled type into tokens: the leaf ends in a word, the classes of member
pointers are words, and the declarator is not cut off. -/
structure Legible (p : Program) (type : Ty × List Part) : Prop where
  leaf : ∀ c ∈ (p.spell type.1).toList.getLast?, isWordChar c = true
  classes : ∀ c cv, .memberPointer c cv ∈ type.2 → IsWord (p.spell c)
  levels : type.2.length ≤ maxDepth

theorem Legible.depth (h : p.Legible (t.unwind (part :: outer))) : outer.length ≤ maxDepth :=
  ((List.suffix_cons part outer).trans (t.suffix_unwind _)).length_le.trans h.levels

theorem Legible.isWord {c : Ty} {cv : Cv}
    (h : p.Legible (t.unwind (.memberPointer c cv :: outer))) : IsWord (p.spell c) :=
  h.classes c cv ((t.suffix_unwind _).subset List.mem_cons_self)

/-- A type inside a declarator has the tokens of its leaf and of the whole declarator. -/
theorem tokens_declarator {inner : String} (hnormal : t.isNormal = true)
    (h : p.Legible (t.unwind outer))
    (hrefs : t.isReference = true → ∀ part ∈ outer.head?, part.isReference = false)
    (hinner : p.SpellsAround t inner outer) :
    tokens (p.declarator inner outer.length t) =
      tokens (p.spell (t.unwind outer).1) ++ p.declaratorTokens [] (t.unwind outer).2 := by
  fun_induction Ty.unwind t outer generalizing inner with
  | case1 t cv outer ih =>
    simp only [Ty.isNormal, Bool.and_eq_true] at hnormal
    simp only [declarator, h.depth.not_gt, if_false]
    exact ih hnormal.2 h (by rintro - _ ⟨⟩; rfl)
      (((hinner.spells rfl).qualifiedPointer cv).wrap rfl t)
  | case2 c t cv outer ih =>
    simp only [Ty.isNormal, Bool.and_eq_true] at hnormal
    simp only [declarator, h.depth.not_gt, if_false]
    exact ih hnormal.2.2 h (by rintro - _ ⟨⟩; rfl)
      (((hinner.spells rfl).qualifiedMemberPointer h.isWord cv).wrap rfl t)
  | case3 t outer ih =>
    simp only [declarator, h.depth.not_gt, if_false]
    exact ih hnormal h (by rintro - _ ⟨⟩; rfl) ((hinner.spells rfl).pointer.wrap rfl t)
  | case4 t outer ih =>
    simp only [Ty.isNormal, Bool.and_eq_true, Bool.not_eq_true'] at hnormal
    simp only [declarator, h.depth.not_gt, if_false]
    exact ih hnormal.2 h (fun ht => absurd ht (by simp [hnormal.1]))
      (((hinner.spells rfl).lvalueRef (hrefs rfl)).wrap rfl t)
  | case5 t outer ih =>
    simp only [Ty.isNormal, Bool.and_eq_true, Bool.not_eq_true'] at hnormal
    simp only [declarator, h.depth.not_gt, if_false]
    exact ih hnormal.2 h (fun ht => absurd ht (by simp [hnormal.1]))
      ((hinner.spells rfl).rvalueRef.wrap rfl t)
  | case6 c t outer ih =>
    simp only [Ty.isNormal, Bool.and_eq_true] at hnormal
    simp only [declarator, h.depth.not_gt, if_false]
    exact ih hnormal.2 h (by rintro - _ ⟨⟩; rfl)
      (((hinner.spells rfl).memberPointer h.isWord).wrap rfl t)
  | case7 t b outer ih =>
    simp only [declarator, h.depth.not_gt, if_false]
    exact ih hnormal h (by rintro - _ ⟨⟩; rfl) (hinner.array.around rfl t)
  | case8 t ps q outer ih =>
    simp only [Ty.isNormal, Bool.and_eq_true] at hnormal
    simp only [declarator, h.depth.not_gt, if_false]
    exact ih hnormal.1 h (by rintro - _ ⟨⟩; rfl) (hinner.function.around rfl t)
  | case9 t outer h₁ h₂ h₃ h₄ h₅ h₆ h₇ h₈ =>
    obtain ⟨u, cv, hu, ht⟩ := Ty.unwind_leaf hnormal outer
    rw [Ty.unwind.eq_9 t outer h₁ h₂ h₃ h₄ h₅ h₆ h₇ h₈] at ht
    subst ht
    have hfollows : (u.qualify cv).followsName = false := by
      unfold Ty.qualify
      split <;> cases u <;> first | rfl | cases hu
    rw [declarator_leaf p hu cv inner h.levels, tokens_join inner h.leaf,
      ← hinner.spells hfollows]
    rfl

/-- A spelled type has the tokens of its leaf and then of its declarator. -/
theorem tokens_spell (hnormal : t.isNormal = true) (h : p.Legible (t.unwind [])) :
    tokens (p.spell t) = tokens (p.spell t.leaf) ++ p.declaratorTokens [] t.parts := by
  refine tokens_declarator hnormal h (fun _ => nofun) ?_
  unfold SpellsAround
  split <;> exact fun _ => rfl

end Program

end TypeTraits
