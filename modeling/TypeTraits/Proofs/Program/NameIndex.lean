import Mathlib.Data.List.Basic
import TypeTraits.Proofs.Program.Store

/-!
# The index of record names

What the index of names holds after any history of declarations, with definitions of records that
are declared already in between. Every name that is not empty stands in it once, at the place of its
first declaration and with the number of its last one. So the numbers increase along the index
exactly if the names were last declared in the order in which they were first declared.
-/

namespace TypeTraits
namespace Program

/-- The programs that a history of record declarations leads to, with the names that were declared,
in order. -/
inductive Declares (target : Target) : List String → Program → Prop
  | fresh : Declares target [] { target }
  | declare {names : List String} {p : Program} (name : String) (key : ClassKey) :
      Declares target names p → Declares target (names ++ [name]) (p.declareRecord name key).1
  | define {names : List String} {p : Program} (r : Record) :
      Declares target names p → (p.record? r.id).isSome → Declares target names (p.defineRecord r)

/-- The last declaration of a name is the one that was given this number. -/
def IsNewest (names : List String) (name : String) (id : RecordId) : Prop :=
  ∃ earlier later, names = earlier ++ name :: later ∧ name ∉ later ∧
    id.index = earlier.length + 1

/-- The first name was first declared before the other one, and declared again after that one was
declared for the last time. -/
def Overtakes (names : List String) (a b : String) : Prop :=
  names.idxOf a < names.idxOf b ∧ ∃ i j, IsNewest names a i ∧ IsNewest names b j ∧ j.index < i.index

section Newest

variable {names : List String} {name last a b : String} {id : RecordId}

theorem IsNewest.mem (h : IsNewest names name id) : name ∈ names := by
  obtain ⟨earlier, later, rfl, _, _⟩ := h
  simp

theorem IsNewest.getElem? (h : IsNewest names name id) : names[id.index - 1]? = some name := by
  obtain ⟨earlier, later, rfl, _, hid⟩ := h
  simp [hid]

theorem exists_isNewest (h : name ∈ names) : ∃ id, IsNewest names name id := by
  obtain ⟨later, earlier, hnames, hnot⟩ := List.eq_append_cons_of_mem (List.mem_reverse.mpr h)
  refine ⟨⟨earlier.length + 1⟩, earlier.reverse, later.reverse, ?_, by simpa using hnot, by simp⟩
  have hreversed := congrArg List.reverse hnames
  simpa using hreversed

/-- One number belongs to one name. -/
theorem IsNewest.name_unique (ha : IsNewest names a id) (hb : IsNewest names b id) : a = b :=
  Option.some.inj (ha.getElem?.symm.trans hb.getElem?)

theorem isNewest_append_singleton : IsNewest (names ++ [last]) name id ↔
    (name = last ∧ id = ⟨names.length + 1⟩) ∨ (name ≠ last ∧ IsNewest names name id) := by
  constructor
  · rintro ⟨earlier, later, hnames, hnot, hid⟩
    rcases List.eq_nil_or_concat later with rfl | ⟨rest, x, rfl⟩
    · obtain ⟨rfl, hlast⟩ := List.append_inj' hnames rfl
      exact Or.inl ⟨(List.cons.inj hlast).1.symm, by cases id; simpa using hid⟩
    · rw [List.concat_eq_append, ← List.cons_append, ← List.append_assoc] at hnames
      obtain ⟨rfl, hlast⟩ := List.append_inj' hnames rfl
      obtain rfl := (List.cons.inj hlast).1
      simp only [List.concat_eq_append, List.mem_append, List.mem_singleton, not_or] at hnot
      exact Or.inr ⟨hnot.2, earlier, rest, rfl, hnot.1, hid⟩
  · rintro (⟨rfl, rfl⟩ | ⟨hne, earlier, later, rfl, hnot, hid⟩)
    · exact ⟨names, [], rfl, List.not_mem_nil, rfl⟩
    · exact ⟨earlier, later ++ [last], by simp, by simp [hnot, hne], hid⟩

end Newest

section IndexName

variable {name : String} {id : RecordId} {l : List (String × RecordId)}

theorem keys_indexName : (indexName name id l).map (·.1) =
    if name ∈ l.map (·.1) then l.map (·.1) else l.map (·.1) ++ [name] := by
  induction l with
  | nil => rfl
  | cons entry l ih =>
    rw [indexName]
    split
    · next h => simp [h]
    · next h =>
      rw [List.map_cons, ih]
      by_cases hmem : name ∈ l.map (·.1) <;> simp [hmem, Ne.symm h]

/-- Where every name has one entry, declaring a name replaces its entry or adds one. -/
theorem mem_indexName (hnodup : (l.map (·.1)).Nodup) {entry : String × RecordId} :
    entry ∈ indexName name id l ↔ entry = (name, id) ∨ (entry.1 ≠ name ∧ entry ∈ l) := by
  induction l with
  | nil => simp [indexName]
  | cons first l ih =>
    obtain ⟨hfirst, hnodup⟩ := List.nodup_cons.mp hnodup
    rw [indexName]
    split
    · next h =>
      subst h
      have hothers : entry ∈ l → entry.1 ≠ first.1 := by
        intro hmem heq
        exact hfirst (List.mem_map.mpr ⟨entry, hmem, heq⟩)
      simp only [List.mem_cons]
      grind
    · next h =>
      rw [List.mem_cons, ih hnodup, List.mem_cons]
      grind

end IndexName

/-- What the index of names holds once the names were declared in this order. -/
structure Indexes (p : Program) (names : List String) : Prop where
  count : p.recordCount = names.length
  entries : ∀ name id, (name, id) ∈ p.names ↔ name ≠ "" ∧ IsNewest names name id
  order : (p.names.map (·.1)).Pairwise fun a b => names.idxOf a < names.idxOf b

namespace Indexes

variable {p : Program} {names : List String}

theorem nodup (h : p.Indexes names) : (p.names.map (·.1)).Nodup := by
  refine List.Pairwise.imp ?_ h.order
  rintro a b hlt rfl
  exact Nat.lt_irrefl _ hlt

theorem mem_of_mem_keys (h : p.Indexes names) {name : String} (hmem : name ∈ p.names.map (·.1)) :
    name ∈ names := by
  obtain ⟨⟨_, id⟩, hentry, rfl⟩ := List.mem_map.mp hmem
  exact ((h.entries _ id).mp hentry).2.mem

/-- Declaring one more name leaves the order of the names known before. -/
theorem order_append (h : p.Indexes names) (last : String) :
    (p.names.map (·.1)).Pairwise fun a b =>
      (names ++ [last]).idxOf a < (names ++ [last]).idxOf b := by
  refine h.order.imp_of_mem fun ha hb hlt => ?_
  rwa [List.idxOf_append_of_mem (h.mem_of_mem_keys ha),
    List.idxOf_append_of_mem (h.mem_of_mem_keys hb)]

/-- A record without a name is not in the index. -/
theorem declare_unnamed (h : p.Indexes names) (key : ClassKey) :
    (p.declareRecord "" key).1.Indexes (names ++ [""]) where
  count := by
    have hcount := h.count
    simp only [recordCount] at hcount
    simp [recordCount, declareRecord, hcount]
  entries name id := by
    change (name, id) ∈ p.names ↔ _
    rw [h.entries, isNewest_append_singleton]
    grind
  order := h.order_append ""

theorem declare_named (h : p.Indexes names) {name : String} (hname : name ≠ "") (key : ClassKey) :
    (p.declareRecord name key).1.Indexes (names ++ [name]) := by
  have hcount : p.records.size = names.length := h.count
  have hindex : (p.declareRecord name key).1.names =
      indexName name ⟨names.length + 1⟩ p.names := by
    simp [declareRecord, hname, hcount]
  constructor
  · simp [recordCount, declareRecord, hcount]
  · intro other id
    rw [hindex, mem_indexName h.nodup, h.entries, isNewest_append_singleton, Prod.mk.injEq]
    grind
  · rw [hindex, keys_indexName]
    split
    · exact h.order_append name
    · next hnew =>
      refine List.pairwise_append.mpr ⟨h.order_append name, List.pairwise_singleton .., ?_⟩
      -- a name that has no entry yet was never declared
      have hfresh : name ∉ names := by
        intro hmem
        obtain ⟨id, hid⟩ := exists_isNewest hmem
        exact hnew (List.mem_map.mpr ⟨(name, id), (h.entries name id).mpr ⟨hname, hid⟩, rfl⟩)
      intro a ha b hb
      rw [List.mem_singleton.mp hb, List.idxOf_append_of_mem (h.mem_of_mem_keys ha),
        List.idxOf_append_of_notMem hfresh]
      have := List.idxOf_lt_length_of_mem (h.mem_of_mem_keys ha)
      omega

/-- Defining a record that is declared leaves the index as it is. -/
theorem define (h : p.Indexes names) (r : Record) : (p.defineRecord r).Indexes names := by
  unfold defineRecord
  split
  · exact h
  · exact ⟨by simpa [recordCount] using h.count, h.entries, h.order⟩

theorem findRecord?_eq_some_iff (h : p.Indexes names) {name : String} {id : RecordId} :
    p.findRecord? name = some id ↔ name ≠ "" ∧ IsNewest names name id := by
  rw [← h.entries]
  constructor
  · intro hfind
    obtain ⟨before, after, hnames, _⟩ := List.lookup_eq_some_iff.mp hfind
    simp [hnames]
  · intro hmem
    obtain ⟨before, after, hnames⟩ := List.append_of_mem hmem
    refine List.lookup_eq_some_iff.mpr ⟨before, after, hnames, fun entry hentry => ?_⟩
    have hnodup := h.nodup
    rw [hnames, List.map_append, List.map_cons] at hnodup
    have hdisjoint := (List.nodup_append.mp hnodup).2.2 entry.1 (List.mem_map_of_mem hentry) name
      List.mem_cons_self
    simpa using Ne.symm hdisjoint

theorem mem_namedRecords (h : p.Indexes names) {id : RecordId} :
    id ∈ p.namedRecords ↔ ∃ name, name ≠ "" ∧ IsNewest names name id := by
  simp only [namedRecords, List.mem_map, Prod.exists, h.entries]
  grind

/-- The numbers stand in the order in which their names were first declared. -/
theorem order_namedRecords (h : p.Indexes names) : p.namedRecords.Pairwise fun i j =>
    ∃ a b, IsNewest names a i ∧ IsNewest names b j ∧ names.idxOf a < names.idxOf b := by
  refine List.pairwise_map.mpr ((List.pairwise_map.mp h.order).imp_of_mem ?_)
  intro x y hx hy hlt
  exact ⟨x.1, y.1, ((h.entries ..).mp hx).2, ((h.entries ..).mp hy).2, hlt⟩

/-- Of two names in the index, the one that was first declared earlier comes first. -/
theorem rel_of_idxOf_lt (h : p.Indexes names) {rel : String × RecordId → String × RecordId → Prop}
    (hrel : p.names.Pairwise rel) {x y : String × RecordId} (hx : x ∈ p.names) (hy : y ∈ p.names)
    (hlt : names.idxOf x.1 < names.idxOf y.1) : rel x y := by
  have hboth := (List.pairwise_map.mp h.order).and hrel
  obtain ⟨i, hi, rfl⟩ := List.getElem_of_mem hx
  obtain ⟨j, hj, rfl⟩ := List.getElem_of_mem hy
  rcases Nat.lt_trichotomy i j with hij | rfl | hji
  · exact (List.pairwise_iff_getElem.mp hboth i j hi hj hij).2
  · exact absurd hlt (Nat.lt_irrefl _)
  · exact absurd hlt (Nat.lt_asymm (List.pairwise_iff_getElem.mp hboth j i hj hi hji).1)

/-- The numbers increase along the index exactly if no name overtakes another one. -/
theorem increasing_iff (h : p.Indexes names) : p.namedRecords.Pairwise (·.index < ·.index) ↔
    ∀ a b, a ≠ "" → b ≠ "" → ¬Overtakes names a b := by
  unfold namedRecords
  rw [List.pairwise_map]
  constructor
  · intro hincreasing a b ha hb ⟨hfirst, i, j, hi, hj, hlast⟩
    have hlt := h.rel_of_idxOf_lt hincreasing ((h.entries a i).mpr ⟨ha, hi⟩)
      ((h.entries b j).mpr ⟨hb, hj⟩) hfirst
    exact Nat.lt_asymm hlt hlast
  · intro hovertakes
    refine (List.pairwise_map.mp h.order).imp_of_mem fun {x y} hx hy hfirst => ?_
    obtain ⟨hxname, hxid⟩ := (h.entries x.1 x.2).mp hx
    obtain ⟨hyname, hyid⟩ := (h.entries y.1 y.2).mp hy
    have hlast : ¬y.2.index < x.2.index := fun hlt =>
      hovertakes x.1 y.1 hxname hyname ⟨hfirst, x.2, y.2, hxid, hyid, hlt⟩
    have hne : x.2.index ≠ y.2.index := by
      intro heq
      have hid : x.2 = y.2 := congrArg RecordId.mk heq
      have hname : x.1 = y.1 := hxid.name_unique (by rwa [hid])
      rw [hname] at hfirst
      exact Nat.lt_irrefl _ hfirst
    omega

end Indexes

/-- Whatever the history of declarations, the index has what the names last declared. -/
theorem Declares.indexes {target : Target} {names : List String} {p : Program}
    (h : Declares target names p) : p.Indexes names := by
  induction h with
  | fresh =>
    exact ⟨rfl, fun name id => by simp [IsNewest], List.Pairwise.nil⟩
  | declare name key _ ih =>
    by_cases hname : name = ""
    · exact hname ▸ ih.declare_unnamed key
    · exact ih.declare_named hname key
  | define r _ _ ih => exact ih.define r

/-- After any history of declarations every name that is not empty is found as the record that was
declared with it last, and the index has the numbers of these records, each once, in the order in
which their names were first declared. These numbers increase exactly if no name was declared again
after a name that was first declared later, and last declared earlier. -/
theorem Declares.names_follow {target : Target} {names : List String} {p : Program}
    (h : Declares target names p) :
    p.recordCount = names.length ∧
    (∀ name id, p.findRecord? name = some id ↔ name ≠ "" ∧ IsNewest names name id) ∧
    (∀ id, id ∈ p.namedRecords ↔ ∃ name, name ≠ "" ∧ IsNewest names name id) ∧
    (p.namedRecords.Pairwise fun i j =>
      ∃ a b, IsNewest names a i ∧ IsNewest names b j ∧ names.idxOf a < names.idxOf b) ∧
    (p.namedRecords.Pairwise (·.index < ·.index) ↔
      ∀ a b, a ≠ "" → b ≠ "" → ¬Overtakes names a b) :=
  have hindexes := h.indexes
  ⟨hindexes.count, fun _ _ => hindexes.findRecord?_eq_some_iff, fun _ => hindexes.mem_namedRecords,
    hindexes.order_namedRecords, hindexes.increasing_iff⟩

/-- `struct A; struct B; struct A;`: the second `A` stands before `B`. -/
theorem names_follow_declaredAnew : ∃ p, Declares .lp64 ["A", "B", "A"] p ∧
    p.recordCount = 3 ∧ p.namedRecords = [⟨3⟩, ⟨2⟩] ∧ p.findRecord? "A" = some ⟨3⟩ ∧
      ¬p.namedRecords.Pairwise (·.index < ·.index) := by
  have h : Declares .lp64 ["A", "B", "A"] _ :=
    ((Declares.fresh.declare "A" .struct).declare "B" .struct).declare "A" .struct
  obtain ⟨hcount, hfind, _, _, hincreasing⟩ := h.names_follow
  have hnewest : IsNewest ["A", "B", "A"] "A" ⟨3⟩ := ⟨["A", "B"], [], rfl, by decide, rfl⟩
  have hother : IsNewest ["A", "B", "A"] "B" ⟨2⟩ := ⟨["A"], ["A"], rfl, by decide, rfl⟩
  refine ⟨_, h, hcount, by decide, (hfind _ _).mpr ⟨by decide, hnewest⟩, ?_⟩
  rw [hincreasing]
  intro hovertakes
  exact hovertakes "A" "B" (by decide) (by decide)
    ⟨by decide, ⟨3⟩, ⟨2⟩, hnewest, hother, by decide⟩

end Program
end TypeTraits
