import TypeTraits.Proofs.Spelling.Declarator
import TypeTraits.Proofs.Program.Store

/-!
# Names

What a leaf is spelled with. Keywords alone spell the builtin types, and records and enumerations
are spelled by the names they are declared with. Where these are identifiers of their own, a name
tells its declaration, and the first word of a leaf tells which kind of leaf it is.
-/

namespace TypeTraits

open Spelling

namespace Spelling

/-- The words that spell types without being declared. -/
def keywords : List String :=
  ["const", "volatile", "void", "bool", "char", "signed", "unsigned", "wchar_t", "char16_t",
    "char32_t", "short", "int", "long", "__int128", "float", "double"]

def isKeyword : Token → Bool
  | .word w => String.ofList w ∈ keywords
  | _ => false

/-- The types that keywords spell. -/
def keywordTypes : List (Ty × String) :=
  (.void, "void") :: Builtin.all.map fun k => (.builtin k, k.name)

theorem find?_keywordTypes : ∀ x ∈ keywordTypes,
    keywordTypes.find? (fun y => tokens y.2 == tokens x.2) = some x := by decide

theorem isKeyword_keywordTypes : ∀ x ∈ keywordTypes, ∀ token ∈ tokens x.2,
    isKeyword token = true := by decide

theorem head_keywordTypes : ∀ x ∈ keywordTypes, (tokens x.2).head?.any fun token =>
    token != .word "const".toList && token != .word "volatile".toList := by decide

theorem getLast?_keywordTypes : ∀ x ∈ keywordTypes, x.2.toList.getLast?.any isWordChar = true := by
  decide

/-- A word of letters, digits and underscores that does not begin with a digit. -/
def IsIdentifier (name : String) : Prop :=
  IsWord name ∧ name.toList.head?.any Char.isDigit = false

instance (name : String) : Decidable (IsIdentifier name) :=
  inferInstanceAs (Decidable (_ ∧ _))

/-- Whether a leaf may end before these tokens. -/
def EndsLeaf (ts : List Token) : Prop :=
  ∀ token ∈ ts.head?, isKeyword token = false ∧ token ≠ .scope

end Spelling

namespace Program

/-- The name a record or an enumeration is declared with. -/
def nameOf? (p : Program) : Ty → Option String
  | .record id => (p.record? id).map (·.name)
  | .enum id => (p.enum? id).map (·.name)
  | _ => none

/-- The declared records and enumerations. -/
def declaredTypes (p : Program) : List Ty :=
  (List.range p.records.size).map (fun i => .record ⟨i + 1⟩) ++
    (List.range p.enums.size).map fun i => .enum ⟨i + 1⟩

/-- The record or enumeration declared with a name. -/
def named? (p : Program) (w : List Char) : Option Ty :=
  p.declaredTypes.find? fun t => p.nameOf? t == some (String.ofList w)

/-- Whether a record is declared with the name. -/
def isClassName (p : Program) (w : List Char) : Bool := (p.named? w).any Ty.isRecord

/-- The record or enumeration, if the type is one, is declared. -/
def IsDeclared (p : Program) : Ty → Prop
  | .record id => (p.record? id).isSome
  | .enum id => (p.enum? id).isSome
  | .qualified t _ => p.IsDeclared t
  | _ => True

/-- Records and enumerations have names of their own, which are identifiers and no keywords. -/
structure WellNamed (p : Program) : Prop where
  isIdentifier : ∀ t name, p.nameOf? t = some name → IsIdentifier name
  notKeyword : ∀ t name, p.nameOf? t = some name → name ∉ keywords
  distinct : ∀ t u name, p.nameOf? t = some name → p.nameOf? u = some name → t = u

variable {p : Program} {t u : Ty} {name : String} {ts : List Token}

theorem mem_declaredTypes (h : p.nameOf? t = some name) : t ∈ p.declaredTypes := by
  have hposition : ∀ {i n : Nat}, 0 < i ∧ i ≤ n → ∃ a < n, a + 1 = i := fun {i n} hi =>
    ⟨i - 1, by omega, by omega⟩
  simp only [declaredTypes, List.mem_append, List.mem_map, List.mem_range]
  cases t with
  | record id =>
    obtain ⟨r, hr, -⟩ := Option.map_eq_some_iff.mp h
    obtain ⟨a, ha, hid⟩ := hposition (record?_lt hr)
    exact .inl ⟨a, ha, by rw [hid]⟩
  | enum id =>
    obtain ⟨e, he, -⟩ := Option.map_eq_some_iff.mp h
    obtain ⟨a, ha, hid⟩ := hposition (enum?_lt he)
    exact .inr ⟨a, ha, by rw [hid]⟩
  | _ => cases h

/-- It is enough to look at the declared types. -/
theorem wellNamed_of_declaredTypes (h : ∀ t ∈ p.declaredTypes, ∀ name ∈ p.nameOf? t,
    IsIdentifier name ∧ name ∉ keywords ∧ ∀ u ∈ p.declaredTypes, p.nameOf? u = some name → t = u) :
    p.WellNamed where
  isIdentifier t name ht := (h t (mem_declaredTypes ht) name ht).1
  notKeyword t name ht := (h t (mem_declaredTypes ht) name ht).2.1
  distinct t u name ht hu := (h t (mem_declaredTypes ht) name ht).2.2 u (mem_declaredTypes hu) hu

theorem spell_of_nameOf? (h : p.nameOf? t = some name) : p.spell t = name := by
  cases t with
  | record id =>
    obtain ⟨r, hr, rfl⟩ := Option.map_eq_some_iff.mp h
    simp [spell, declarator, join, recordName, hr]
  | enum id =>
    obtain ⟨e, he, rfl⟩ := Option.map_eq_some_iff.mp h
    simp [spell, declarator, join, enumName, he]
  | _ => cases h

theorem isDeclared_qualify {cv : Cv} (h : p.IsDeclared (u.qualify cv)) (hu : u.isNamed = true) :
    p.IsDeclared u := by
  unfold Ty.qualify at h
  split at h
  · exact h
  · cases u <;> exact h

/-- A named type is declared, `std::nullptr_t` or spelled by keywords. -/
theorem named_cases (hu : u.isNamed = true) (h : p.IsDeclared u) :
    (∃ name, p.nameOf? u = some name) ∨ u = .nullptr ∨
      ∃ x ∈ keywordTypes, x.1 = u ∧ p.spell u = x.2 := by
  cases u with
  | void => exact .inr (.inr ⟨_, List.mem_cons_self, rfl, rfl⟩)
  | nullptr => exact .inr (.inl rfl)
  | builtin k =>
    have hmem := List.mem_map_of_mem (f := fun k => (Ty.builtin k, k.name)) (Builtin.mem_all k)
    exact .inr (.inr ⟨_, List.mem_cons_of_mem _ hmem, rfl, rfl⟩)
  | record id =>
    obtain ⟨r, hr⟩ := Option.isSome_iff_exists.mp h
    exact .inl ⟨r.name, by simp [nameOf?, hr]⟩
  | enum id =>
    obtain ⟨e, he⟩ := Option.isSome_iff_exists.mp h
    exact .inl ⟨e.name, by simp [nameOf?, he]⟩
  | _ => cases hu

theorem tokens_nullptr (p : Program) : tokens (p.spell .nullptr) =
    [.word "std".toList, .scope, .word "nullptr_t".toList] := by
  have hspell : p.spell .nullptr = "std::nullptr_t" := rfl
  rw [hspell]
  decide

/-- No record is named by a qualifier followed by the name of a record. -/
def QualifiersStandOut (p : Program) : Prop :=
  ∀ cv ∈ [Cv.const, Cv.volatile], ∀ c d name, p.nameOf? (.record c) = some name →
    p.nameOf? (.record d) ≠ some (cv.spelling ++ name)

theorem exists_of_isClassName {w : List Char} (h : p.isClassName w = true) :
    ∃ id, p.nameOf? (.record id) = some (String.ofList w) := by
  unfold isClassName named? at h
  cases hfound : p.declaredTypes.find? fun t => p.nameOf? t == some (String.ofList w) with
  | none => simp [hfound] at h
  | some t =>
    have hname := List.find?_some hfound
    rw [hfound] at h
    cases t with
    | record id => exact ⟨id, by simpa using hname⟩
    | _ => first | cases h | simp [nameOf?] at hname

namespace WellNamed

variable (hnames : p.WellNamed)
include hnames

theorem named?_of_nameOf? (h : p.nameOf? t = some name) : p.named? name.toList = some t := by
  unfold named?
  rw [String.ofList_toList]
  cases hfound : p.declaredTypes.find? fun u => p.nameOf? u == some name with
  | none =>
    have hnone := List.find?_eq_none.mp hfound t (mem_declaredTypes h)
    simp [h] at hnone
  | some u =>
    have hu := List.find?_some hfound
    rw [hnames.distinct u t name (by simpa using hu) h]

theorem isClassName_of_nameOf? {id : RecordId} (h : p.nameOf? (.record id) = some name) :
    p.isClassName name.toList = true := by
  rw [isClassName, hnames.named?_of_nameOf? h]
  rfl

theorem isWord (h : p.nameOf? t = some name) : IsWord name := (hnames.isIdentifier t name h).1

theorem tokens_name (h : p.nameOf? t = some name) :
    tokens (p.spell t) = [.word name.toList] := by
  rw [spell_of_nameOf? h, (hnames.isWord h).tokens]

theorem isKeyword_name (h : p.nameOf? t = some name) : isKeyword (.word name.toList) = false := by
  simpa [isKeyword] using hnames.notKeyword t name h

/-- The tokens of a named type begin with a word that is no qualifier. -/
theorem tokens_named (hu : u.isNamed = true) (h : p.IsDeclared u) :
    ∃ w ts, tokens (p.spell u) = .word w :: ts ∧ w ≠ "const".toList ∧ w ≠ "volatile".toList := by
  rcases named_cases hu h with ⟨name, hname⟩ | rfl | ⟨x, hx, rfl, hspell⟩
  · have hkeyword := hnames.notKeyword u name hname
    refine ⟨name.toList, [], hnames.tokens_name hname, ?_, ?_⟩ <;> intro heq <;>
      exact hkeyword (String.toList_injective heq ▸ by decide)
  · exact ⟨_, _, tokens_nullptr p, by decide, by decide⟩
  · have hhead := head_keywordTypes x hx
    have hkeywords := isKeyword_keywordTypes x hx
    rw [hspell]
    cases htokens : tokens x.2 with
    | nil => simp [htokens] at hhead
    | cons token ts =>
      rw [htokens] at hhead hkeywords
      have hkeyword := hkeywords token List.mem_cons_self
      cases token with
      | word w => exact ⟨w, ts, rfl, by simpa using hhead⟩
      | _ => cases hkeyword

/-- No `::` comes after the first word of a named type, but in `std::nullptr_t`. -/
theorem scope_not_mem_named (hu : u.isNamed = true) (h : p.IsDeclared u) (hnull : u ≠ .nullptr)
    (hts : EndsLeaf ts) {w : List Char} {ws : List Token}
    (hword : tokens (p.spell u) = .word w :: ws) : .scope ∉ (ws ++ ts).head? := by
  rcases named_cases hu h with ⟨name, hname⟩ | rfl | ⟨x, hx, rfl, hspell⟩
  · rw [hnames.tokens_name hname] at hword
    cases hword
    exact fun hscope => (hts _ hscope).2 rfl
  · exact absurd rfl hnull
  · have hkeywords := isKeyword_keywordTypes x hx
    rw [hspell] at hword
    rw [hword] at hkeywords
    intro hscope
    rcases ws with _ | ⟨token, ws⟩
    · exact (hts _ hscope).2 rfl
    · cases hscope
      cases hkeywords .scope (List.mem_cons_of_mem _ List.mem_cons_self)

theorem getLast?_named (hu : u.isNamed = true) (h : p.IsDeclared u) :
    (p.spell u).toList.getLast?.any isWordChar = true := by
  rcases named_cases hu h with ⟨name, hname⟩ | rfl | ⟨x, hx, rfl, hspell⟩
  · have hword := hnames.isWord hname
    rw [spell_of_nameOf? hname, List.getLast?_eq_some_getLast hword.1]
    exact hword.2 _ (List.getLast_mem hword.1)
  · have hspell : p.spell .nullptr = "std::nullptr_t" := rfl
    rw [hspell]
    decide
  · rw [hspell]
    exact getLast?_keywordTypes x hx

/-- The leaf of a type ends in a word. -/
theorem getLast?_leaf (hu : u.isNamed = true) (h : p.IsDeclared u) (cv : Cv) :
    (p.spell (u.qualify cv)).toList.getLast?.any isWordChar = true := by
  have hlast := hnames.getLast?_named hu h
  rw [spell_qualify p hu]
  split
  · exact hlast
  · rw [String.toList_append, List.getLast?_append]
    cases hget : (p.spell u).toList.getLast? with
    | none => simp [hget] at hlast
    | some c => simpa [hget] using hlast

end WellNamed

end Program

end TypeTraits
