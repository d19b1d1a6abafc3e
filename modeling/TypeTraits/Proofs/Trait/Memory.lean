import Mathlib.Data.List.Dedup
import Std.Data.HashMap.Lemmas
import TypeTraits.Trait.Query

/-!
# What is remembered of queries

A memory recalls the queries that it has answered: it holds the solver's own answer to each of them,
once, and nothing else. Asking keeps this up, whether the answer is remembered or new; what is
rejected leaves no trace. So a remembered answer is the one that would be given anew.
-/

namespace TypeTraits
namespace Memo

variable {memo : Memo} {s : Solver} {answered : List Query} {q : Query}

/-- The solver's own answer to a query. -/
abbrev answerOf (s : Solver) (q : Query) : Except TraitError Answer := s.query q.kind q.type q.args

/-- Whether a memory holds the solver's answers to some queries, and nothing else. -/
structure Recalls (memo : Memo) (s : Solver) (answered : List Query) : Prop where
  answer : ∀ q a, memo[q]? = some a ↔ q ∈ answered ∧ answerOf s q = .ok a
  answers : ∀ q ∈ answered, ∃ a, answerOf s q = .ok a
  size : memo.size = answered.dedup.length

theorem recalls_empty (s : Solver) : Recalls ∅ s [] where
  answer := by simp
  answers := by simp
  size := by simp

namespace Recalls

/-- A memory holds an answer to the queries that it recalls. -/
theorem contains_iff (h : memo.Recalls s answered) : memo.contains q = true ↔ q ∈ answered := by
  rw [Std.HashMap.contains_eq_isSome_getElem?, Option.isSome_iff_exists]
  constructor
  · rintro ⟨a, ha⟩
    exact ((h.answer q a).1 ha).1
  · intro hq
    obtain ⟨a, ha⟩ := h.answers q hq
    exact ⟨a, (h.answer q a).2 ⟨hq, ha⟩⟩

/-- A new answer is recalled from now on. -/
theorem insert (h : memo.Recalls s answered) {a : Answer} (ha : answerOf s q = .ok a)
    (hq : q ∉ answered) : Recalls (memo.insert q a) s (q :: answered) where
  answer q' a' := by
    rw [Std.HashMap.getElem?_insert]
    split
    · next heq =>
      obtain rfl := eq_of_beq heq
      simp [ha]
    · next hne =>
      have hne : q' ≠ q := fun heq => hne (beq_iff_eq.2 heq.symm)
      simp [h.answer, hne]
  answers := List.forall_mem_cons.2 ⟨⟨a, ha⟩, h.answers⟩
  size := by
    rw [Std.HashMap.size_insert, List.dedup_cons_of_notMem hq, h.size, if_neg]
    · rfl
    · rw [← Std.HashMap.contains_iff_mem, h.contains_iff]
      exact hq

/-- What is recalled is recalled once, however often it has been answered. -/
theorem again (h : memo.Recalls s answered) (hq : q ∈ answered) :
    memo.Recalls s (q :: answered) where
  answer q' a := by
    have hmem : q' ∈ q :: answered ↔ q' ∈ answered := by
      simp only [List.mem_cons, or_iff_right_iff_imp]
      rintro rfl
      exact hq
    rw [h.answer, hmem]
  answers := List.forall_mem_cons.2 ⟨h.answers q hq, h.answers⟩
  size := by rw [List.dedup_cons_of_mem hq, h.size]

/-- A query that the solver answers is answered so, remembered or not, and is recalled then. -/
theorem ask_ok (h : memo.Recalls s answered) {a : Answer} (ha : answerOf s q = .ok a) :
    (memo.ask s q).1 = .ok a ∧ (memo.ask s q).2.Recalls s (q :: answered) := by
  rw [Memo.ask]
  cases hq : memo[q]? with
  | some a' =>
    obtain ⟨hmem, ha'⟩ := (h.answer q a').1 hq
    cases ha.symm.trans ha'
    exact ⟨rfl, h.again hmem⟩
  | none =>
    have hnew : q ∉ answered := fun hmem => by
      simp [(h.answer q a).2 ⟨hmem, ha⟩] at hq
    simp only [show s.query q.kind q.type q.args = .ok a from ha]
    exact ⟨trivial, h.insert ha hnew⟩

/-- A query that the solver rejects is rejected, and changes nothing. -/
theorem ask_error (h : memo.Recalls s answered) {e : TraitError} (he : answerOf s q = .error e) :
    memo.ask s q = (.error e, memo) := by
  rw [Memo.ask]
  cases hq : memo[q]? with
  | some a =>
    have ha := ((h.answer q a).1 hq).2
    simp [he] at ha
  | none => simp only [show s.query q.kind q.type q.args = .error e from he]

/-- A query gets the answer that a solver without a memory gives. -/
theorem ask_eq (h : memo.Recalls s answered) (q : Query) : (memo.ask s q).1 = answerOf s q := by
  cases ha : answerOf s q with
  | ok a => exact (h.ask_ok ha).1
  | error e => rw [h.ask_error ha]

end Recalls

/-- The events of a traced query. -/
theorem askTraced_eq (memo : Memo) (s : Solver) (q : Query) :
    memo.askTraced s q =
      (((memo.ask s q).1, [.start q.kind, match (memo.ask s q).1 with
        | .ok answer => .finished q.kind answer (memo.contains q)
        | .error e => .rejected q.kind e]), (memo.ask s q).2) := rfl

/-- An only answer keeps its query when types become known. -/
theorem mapTypes_singleton (g : Ty → Ty) (q : Query) (a : Answer) :
    mapTypes g ((∅ : Memo).insert q a) = (∅ : Memo).insert (q.mapTypes g) (a.mapTypes g) := by
  have hlist : ((∅ : Memo).insert q a).toList = [(q, a)] := by
    have hperm := Std.HashMap.toList_insert_perm (m := (∅ : Memo)) (k := q) (v := a)
    simpa using hperm
  rw [mapTypes, Std.HashMap.fold_eq_foldl_toList, hlist]
  rfl

end Memo
end TypeTraits
