import TypeTraits.Limits

/-!
# Recursion guards

A guard watches one recursive walk. Entering a key is denied when the walk has taken too many
steps, when it is too deep, or when the key is already being visited; these are looked at in
this order, and a denied entry still counts as a step. The number that is compared with the limit
stops at the greatest one of 32 bits, so that a limit of that number denies nothing.
-/

namespace TypeTraits

/-- How deep a walk may go and how many entries it may try. -/
structure WalkLimits where
  depth : Nat
  iterations : Nat
  deriving DecidableEq, Repr, Inhabited

namespace WalkLimits

/-- Nested initializations, conversions and overload resolutions. -/
def initialization : WalkLimits := ⟨Limits.initializationDepth, Limits.guardIterations⟩

/-- Walks over base classes. -/
def hierarchy : WalkLimits := ⟨Limits.hierarchyDepth, Limits.guardIterations⟩

end WalkLimits

/-- Why an entry is denied. -/
inductive Denial where
  | cycle
  | depthExceeded
  | iterationExceeded
  deriving DecidableEq, Repr

/-- The state of one guarded walk over keys of type `κ`. -/
structure Guard (κ : Type) where
  limits : WalkLimits
  visiting : List κ := []
  depth : Nat := 0
  iterations : Nat := 0
  deriving DecidableEq, Repr

namespace Guard

variable {κ : Type} [DecidableEq κ]

/-- A guard that has seen nothing yet. -/
def fresh (limits : WalkLimits) : Guard κ := { limits }

/-- Tries to enter `key`; `none` is success. -/
def enter (g : Guard κ) (key : κ) : Option Denial × Guard κ :=
  let g := { g with iterations := g.iterations + 1 }
  if min g.iterations Limits.countedSteps > g.limits.iterations then (some .iterationExceeded, g)
  else if g.depth ≥ g.limits.depth then (some .depthExceeded, g)
  else if key ∈ g.visiting then (some .cycle, g)
  else (none, { g with visiting := key :: g.visiting, depth := g.depth + 1 })

/-- The guard after a key was entered. -/
def entered (g : Guard κ) (key : κ) : Guard κ :=
  { g with iterations := g.iterations + 1, visiting := key :: g.visiting, depth := g.depth + 1 }

theorem enter_of_room {g : Guard κ} {key : κ} (hiterations : g.iterations < g.limits.iterations)
    (hdepth : g.depth < g.limits.depth) (hkey : key ∉ g.visiting) :
    g.enter key = (none, g.entered key) := by
  have hcount : ¬min (g.iterations + 1) Limits.countedSteps > g.limits.iterations := by omega
  unfold enter entered
  simp [hcount, Nat.not_le.mpr hdepth, hkey]

theorem enter_eq_none {g g' : Guard κ} {key : κ} (h : g.enter key = (none, g')) :
    g' = g.entered key ∧ g.depth < g.limits.depth := by
  unfold enter at h
  dsimp only at h
  split at h
  · cases h
  · split at h
    · cases h
    · rename_i hdepth
      split at h
      · cases h
      · cases h
        exact ⟨rfl, Nat.lt_of_not_le hdepth⟩

/-- Leaves a key that was entered. -/
def leave (g : Guard κ) (key : κ) : Guard κ :=
  { g with visiting := g.visiting.erase key, depth := g.depth - 1 }

/-- Runs `body` between entering and leaving `key`, or tells why it did not run. -/
def scope {α : Type} (key : κ) (body : StateM (Guard κ) α) :
    StateM (Guard κ) (Except Denial α) := fun g =>
  match g.enter key with
  | (some denial, g) => (.error denial, g)
  | (none, g) =>
    let (result, g) := body g
    (.ok result, g.leave key)

theorem scope_of_room {α : Type} {key : κ} {body : StateM (Guard κ) α} {g : Guard κ}
    (hiterations : g.iterations < g.limits.iterations) (hdepth : g.depth < g.limits.depth)
    (hkey : key ∉ g.visiting) :
    scope key body g = (.ok (body (g.entered key)).1, (body (g.entered key)).2.leave key) := by
  rw [scope, enter_of_room hiterations hdepth hkey]
  rfl

/-- Runs `body` in a scope; a denied scope gives `otherwise`. -/
def scopeD {α : Type} (otherwise : α) (key : κ) (body : StateM (Guard κ) α) :
    StateM (Guard κ) α := do
  match ← scope key body with
  | .ok result => return result
  | .error _ => return otherwise

end Guard

/-- Properly nested scopes: each is a key with the scopes tried inside it. -/
inductive ScopeTree (κ : Type) where
  | node (key : κ) (inner : List (ScopeTree κ))

/-- What became of a scope: denied, or run at some depth with what became of the scopes
inside. -/
inductive ScopeOutcome where
  | denied (reason : Denial)
  | ran (depth : Nat) (inner : List ScopeOutcome)

namespace ScopeTree

variable {κ : Type} [DecidableEq κ]

mutual

/-- Runs a scope and the scopes inside it. -/
def run : ScopeTree κ → StateM (Guard κ) ScopeOutcome
  | node key inner => fun g =>
    match Guard.scope key (fun g => let (r, g') := runAll inner g; ((g.depth, r), g')) g with
    | (.ok (depth, outcomes), g) => (.ran depth outcomes, g)
    | (.error denial, g) => (.denied denial, g)

/-- Runs scopes one after the other. -/
def runAll : List (ScopeTree κ) → StateM (Guard κ) (List ScopeOutcome)
  | [] => fun g => ([], g)
  | t :: ts => fun g =>
    let (r, g) := t.run g
    let (rs, g) := runAll ts g
    (r :: rs, g)

end

end ScopeTree

end TypeTraits
