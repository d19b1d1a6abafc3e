import TypeTraits.Proofs.Spelling.Reading

/-!
# Types and their spellings

Two types with the same tokens are the same type, because a reader gets each of them back. The one
exception is a member pointer to a qualified pointer: the qualifier is written without a blank
before the name of the class, and where a record has the name that this makes, the member pointer of
that record to the plain pointer has the same tokens.
-/

namespace TypeTraits

open Spelling

namespace Program

/-- The types that are spelled out in full: those formed over declared records and enumerations,
with declarators of at most as many levels as are written, and with unqualified records as the
classes of member pointers. -/
inductive Spellable (p : Program) : Ty → Prop where
  | intro {t : Ty} (formed : t.IsFormed) (declared : p.IsDeclared t.leaf)
      (levels : t.parts.length ≤ maxDepth)
      (classes : ∀ c cv, .memberPointer c cv ∈ t.parts →
        ∃ id, c = .record id ∧ p.IsDeclared c)
      (params : ∀ ps q, .function ps q ∈ t.parts → ∀ u ∈ ps, p.Spellable u) : p.Spellable t

variable {p : Program} {t : Ty} {id : RecordId} {name : String}

theorem classesDeclared_of_classes {parts : List Part}
    (h : ∀ c cv, .memberPointer c cv ∈ parts → ∃ id, c = .record id ∧ p.IsDeclared c) :
    p.ClassesDeclared parts := by
  intro c cv hc
  obtain ⟨id, rfl, hid⟩ := h c cv hc
  obtain ⟨r, hr⟩ := Option.isSome_iff_exists.mp hid
  exact ⟨id, r.name, rfl, by simp [nameOf?, hr]⟩

theorem Spellable.isRead (hnames : p.WellNamed) (hstands : p.QualifiersStandOut)
    (h : p.Spellable t) : p.IsRead t := by
  induction h with
  | intro formed declared levels classes params ih =>
    exact Program.isRead hnames hstands (Ty.isFormed_iff_isNormal.mp formed) declared levels
      ⟨classesDeclared_of_classes classes, ih⟩

theorem Spellable.tokens_spell (hnames : p.WellNamed) (h : p.Spellable t) :
    tokens (p.spell t) = tokens (p.spell t.leaf) ++ p.declaratorTokens [] t.parts := by
  obtain ⟨formed, declared, levels, classes, -⟩ := h
  have hnormal := Ty.isFormed_iff_isNormal.mp formed
  exact Program.tokens_spell hnormal
    (legible hnames hnormal declared levels (classesDeclared_of_classes classes))

/-- A member pointer to a qualified pointer to `int`. -/
def pointerMember (id : RecordId) (cv : Cv) : Ty :=
  .memberPointer (.record id) ((Ty.pointer (.builtin .int)).qualify cv)

theorem unwind_pointerMember (id : RecordId) (cv : Cv) :
    (pointerMember id cv).unwind [] =
      (.builtin .int, [.pointer cv, .memberPointer (.record id) ∅]) := by
  rcases cv with ⟨_ | _, _ | _⟩ <;> rfl

theorem spellable_pointerMember (h : p.nameOf? (.record id) = some name) (cv : Cv) :
    p.Spellable (pointerMember id cv) := by
  have hunwind := unwind_pointerMember id cv
  have hid : p.IsDeclared (.record id) := by
    obtain ⟨r, hr, -⟩ := Option.map_eq_some_iff.mp h
    simp [IsDeclared, hr]
  refine .intro (.memberPointer (.record id) (.qualify cv (.pointer (.builtin .int)))) ?_ ?_ ?_ ?_
  · rw [Ty.leaf, hunwind]
    trivial
  · rw [Ty.parts, hunwind]
    exact show 2 ≤ maxDepth by decide
  · rw [Ty.parts, hunwind]
    intro c cv hc
    simp only [List.mem_cons, reduceCtorEq, Part.memberPointer.injEq, List.not_mem_nil, or_false,
      false_or] at hc
    exact ⟨id, hc.1, hc.1 ▸ hid⟩
  · rw [Ty.parts, hunwind]
    simp

/-- The last qualifier of the pointer and the name of the class make one word. -/
theorem tokens_pointerMember (hnames : p.WellNamed) (h : p.nameOf? (.record id) = some name)
    (cv : Cv) :
    tokens (p.spell (pointerMember id cv)) = .word "int".toList :: .mark '*' ::
      (leadingWords cv ++ [.word (lastWord cv ++ name.toList), .scope, .mark '*']) := by
  have hunwind := unwind_pointerMember id cv
  have hint : tokens (p.spell (.builtin .int)) = [.word "int".toList] := by
    have hspell : p.spell (.builtin .int) = "int" := rfl
    rw [hspell]
    decide
  rw [(spellable_pointerMember h cv).tokens_spell hnames, Ty.leaf, Ty.parts, hunwind, hint]
  change _ :: .mark '*' :: (leadingWords cv ++ .word (lastWord cv ++ (p.spell (.record id)).toList)
    :: .scope :: .mark '*' :: []) = _
  rw [spell_of_nameOf? h]

theorem qualifier_words : ∀ cv ∈ [Cv.const, Cv.volatile],
    cv ≠ ∅ ∧ leadingWords cv = [] ∧ lastWord cv = cv.spelling.toList := by decide

/-- Types are told apart by their tokens exactly if no qualifier makes the name of a record out of
the name of a record. -/
theorem spelling_identifies_iff (hnames : p.WellNamed) :
    (∀ t u, p.Spellable t → p.Spellable u → tokens (p.spell t) = tokens (p.spell u) → t = u) ↔
      p.QualifiersStandOut := by
  constructor
  · intro h cv hcv c d name hc hd
    obtain ⟨hne, hleading, hlast⟩ := qualifier_words cv hcv
    have hsame : tokens (p.spell (pointerMember c cv)) = tokens (p.spell (pointerMember d ∅)) := by
      rw [tokens_pointerMember hnames hc, tokens_pointerMember hnames hd, hleading, hlast,
        String.toList_append]
      rfl
    have heq := h _ _ (spellable_pointerMember hc cv) (spellable_pointerMember hd ∅) hsame
    have hparts := congrArg Ty.parts heq
    rw [Ty.parts, Ty.parts, unwind_pointerMember, unwind_pointerMember] at hparts
    exact hne (Part.pointer.inj (List.cons.inj hparts).1)
  · intro hstands t u ht hu htokens
    have hread := (ht.isRead hnames hstands).readType [] nofun
    rw [htokens] at hread
    obtain ⟨depth, ht', hu'⟩ := (hread.and ((hu.isRead hnames hstands).readType [] nofun)).exists
    exact congrArg Prod.fst (Option.some.inj (ht'.symm.trans hu'))

/-- A record with a name that a qualifier makes out of the name of another. -/
def gluedNames : Program where
  target := .lp64
  records := #[
    { id := ⟨1⟩, name := "C", key := .struct },
    { id := ⟨2⟩, name := "constC", key := .struct }]

theorem wellNamed_gluedNames : gluedNames.WellNamed :=
  wellNamed_of_declaredTypes (by decide)

/-- A member pointer of `C` to an `int* const` is written like one of `constC` to an `int*`. -/
theorem spelling_identifies_iff_gluedNames :
    gluedNames.WellNamed ∧
      gluedNames.spell (pointerMember ⟨1⟩ .const) = "int* constC::*" ∧
      gluedNames.spell (pointerMember ⟨2⟩ ∅) = "int*constC::*" ∧
      ¬ ∀ t u, gluedNames.Spellable t → gluedNames.Spellable u →
        tokens (gluedNames.spell t) = tokens (gluedNames.spell u) → t = u := by
  refine ⟨wellNamed_gluedNames, rfl, rfl, fun h => ?_⟩
  exact (spelling_identifies_iff wellNamed_gluedNames).mp h .const List.mem_cons_self ⟨1⟩ ⟨2⟩ "C"
    rfl rfl

end Program

end TypeTraits
