/-!
# Logical combinations

A conjunction stops at the first predicate that fails and a disjunction at the first that holds;
the predicates after it are not evaluated.
-/

namespace TypeTraits.Logic

/-- An answer together with how many predicates were evaluated for it. -/
structure Outcome where
  value : Bool
  evaluated : Nat
  deriving DecidableEq, Repr

/-- Evaluates predicates until one answers `stop`. -/
def searchFor (stop : Bool) : List (Unit → Bool) → Outcome
  | [] => ⟨!stop, 0⟩
  | predicate :: rest =>
    if predicate () = stop then ⟨stop, 1⟩
    else
      let outcome := searchFor stop rest
      ⟨outcome.value, outcome.evaluated + 1⟩

def conjunction (predicates : List (Unit → Bool)) : Outcome := searchFor false predicates

def disjunction (predicates : List (Unit → Bool)) : Outcome := searchFor true predicates

def negation (value : Bool) : Bool := !value

theorem conjunction_value (predicates : List (Unit → Bool)) :
    (conjunction predicates).value = predicates.all fun p => p () := by
  induction predicates with
  | nil => rfl
  | cons p rest ih =>
    cases h : p () <;> simp_all [conjunction, searchFor]

theorem disjunction_value (predicates : List (Unit → Bool)) :
    (disjunction predicates).value = predicates.any fun p => p () := by
  induction predicates with
  | nil => rfl
  | cons p rest ih =>
    cases h : p () <;> simp_all [disjunction, searchFor]

end TypeTraits.Logic
