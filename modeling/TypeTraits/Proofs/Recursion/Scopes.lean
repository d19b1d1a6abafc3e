import TypeTraits.Proofs.Expr.Execution

/-!
# Scopes of a guard

The calls of a walk on its guard are properly nested if whoever leaves a scope leaves the innermost
one that is open. At each moment of such a walk the guard is visiting the open scopes and nothing
else, and this decides what a scope finds and leaves behind. Trees of scopes make properly nested
calls, and each run of a check is the run of such trees. Of the limits, the one of the depth always
holds; the one of the entries holds below the number at which the count of the steps stops.
-/

namespace TypeTraits

/-- A call that a walk makes on its guard. -/
inductive GuardCall (κ : Type) where
  | enter (key : κ)
  | leave (key : κ)
  deriving DecidableEq, Repr

/-- A guard in use: the scopes that are open, the innermost one first, and the number of entries
that have succeeded so far. -/
structure GuardedWalk (κ : Type) where
  guard : Guard κ
  opened : List κ := []
  entries : Nat := 0
  deriving DecidableEq, Repr

variable {κ : Type}

namespace GuardedWalk

variable {w : GuardedWalk κ} {limits : WalkLimits} {key : κ} {calls more : List (GuardCall κ)}

/-- A walk that has not entered anything yet. -/
def start (limits : WalkLimits) : GuardedWalk κ := { guard := .fresh limits }

/-- The guard is visiting the open scopes, each of them once, and its limits hold. -/
structure IsKept (limits : WalkLimits) (w : GuardedWalk κ) : Prop where
  limits_eq : w.guard.limits = limits
  visiting_eq : w.guard.visiting = w.opened
  nodup : w.opened.Nodup
  depth_eq : w.guard.depth = w.opened.length
  depth_le : w.guard.depth ≤ limits.depth
  entries_le : w.entries ≤ w.guard.iterations
  entries_le_limit : limits.iterations < Limits.countedSteps → w.entries ≤ limits.iterations

theorem IsKept.start (limits : WalkLimits) : (start (κ := κ) limits).IsKept limits where
  limits_eq := rfl
  visiting_eq := rfl
  nodup := .nil
  depth_eq := rfl
  depth_le := Nat.zero_le _
  entries_le := Nat.zero_le _
  entries_le_limit _ := Nat.zero_le _

theorem IsKept.denied (h : w.IsKept limits) : IsKept limits { w with guard := w.guard.counted } :=
  { h with entries_le := Nat.le_succ_of_le h.entries_le }

theorem IsKept.entered (h : w.IsKept limits)
    (hcount : min (w.guard.iterations + 1) Limits.countedSteps ≤ w.guard.limits.iterations)
    (hdepth : w.guard.depth < w.guard.limits.depth) (hkey : key ∉ w.guard.visiting) :
    IsKept limits ⟨w.guard.entered key, key :: w.opened, w.entries + 1⟩ where
  limits_eq := h.limits_eq
  visiting_eq := congrArg (key :: ·) h.visiting_eq
  nodup := List.nodup_cons.mpr ⟨h.visiting_eq ▸ hkey, h.nodup⟩
  depth_eq := congrArg (· + 1) h.depth_eq
  depth_le := h.limits_eq ▸ hdepth
  entries_le := Nat.succ_le_succ h.entries_le
  entries_le_limit hlimit := by
    -- Below the number at which the count stops, what is compared is the number of steps itself.
    have hentries := h.entries_le
    rw [h.limits_eq] at hcount
    dsimp only
    omega

variable [DecidableEq κ]

/-- The walk after a call. -/
def perform (w : GuardedWalk κ) : GuardCall κ → GuardedWalk κ
  | .enter key =>
    match w.guard.enter key with
    | (some _, g) => { w with guard := g }
    | (none, g) => { guard := g, opened := key :: w.opened, entries := w.entries + 1 }
  | .leave key => { w with guard := w.guard.leave key, opened := w.opened.tail }

/-- The walk after several calls, made in order. -/
def performAll (w : GuardedWalk κ) (calls : List (GuardCall κ)) : GuardedWalk κ :=
  calls.foldl perform w

/-- The calls are properly nested: what they leave is the innermost scope that is open. -/
def Nests : GuardedWalk κ → List (GuardCall κ) → Prop
  | _, [] => True
  | w, .enter key :: calls => (w.perform (.enter key)).Nests calls
  | w, .leave key :: calls => w.opened.head? = some key ∧ (w.perform (.leave key)).Nests calls

instance decidableNests :
    (w : GuardedWalk κ) → (calls : List (GuardCall κ)) → Decidable (w.Nests calls)
  | _, [] => .isTrue trivial
  | w, .enter key :: calls => decidableNests (w.perform (.enter key)) calls
  | w, .leave key :: calls =>
    have := decidableNests (w.perform (.leave key)) calls
    inferInstanceAs (Decidable (_ ∧ _))

theorem performAll_append :
    w.performAll (calls ++ more) = (w.performAll calls).performAll more := List.foldl_append

/-- Calls are properly nested if the first ones are and the others go on properly nested. -/
theorem nests_append :
    w.Nests (calls ++ more) ↔ w.Nests calls ∧ (w.performAll calls).Nests more := by
  induction calls generalizing w with
  | nil => exact (true_and _).to_iff.symm
  | cons call calls ih =>
    cases call with
    | enter key => exact ih
    | leave key =>
      rw [List.cons_append, Nests, ih, Nests, and_assoc]
      rfl

theorem perform_enter_of_denied {denial : Denial} {g : Guard κ}
    (h : w.guard.enter key = (some denial, g)) : w.perform (.enter key) = { w with guard := g } := by
  simp only [perform, h]

theorem perform_enter_of_entered {g : Guard κ} (h : w.guard.enter key = (none, g)) :
    w.perform (.enter key) = ⟨g, key :: w.opened, w.entries + 1⟩ := by
  simp only [perform, h]

namespace IsKept

theorem enter (h : w.IsKept limits) (key : κ) : (w.perform (.enter key)).IsKept limits := by
  obtain ⟨_, henter⟩ | ⟨_, henter⟩ | ⟨_, henter⟩ | ⟨hcount, hdepth, hkey, henter⟩ :=
    w.guard.enter_cases key
  · exact perform_enter_of_denied henter ▸ h.denied
  · exact perform_enter_of_denied henter ▸ h.denied
  · exact perform_enter_of_denied henter ▸ h.denied
  · exact perform_enter_of_entered henter ▸ h.entered hcount hdepth hkey

theorem leave (h : w.IsKept limits) (hkey : w.opened.head? = some key) :
    (w.perform (.leave key)).IsKept limits := by
  obtain ⟨outer, hopened⟩ := List.head?_eq_some_iff.mp hkey
  obtain ⟨hlimits, hvisiting, hnodup, hdepth, hle, hentries, hlimit⟩ := h
  rw [hopened] at hvisiting hnodup hdepth
  simp only [perform, Guard.leave, hopened, List.tail_cons]
  exact {
    limits_eq := hlimits
    visiting_eq := by simp [hvisiting]
    nodup := hnodup.of_cons
    depth_eq := by simp [hdepth]
    depth_le := Nat.le_trans (Nat.sub_le _ _) hle
    entries_le := hentries
    entries_le_limit := hlimit }

/-- Properly nested calls keep it that way. -/
theorem performAll (h : w.IsKept limits) (hnests : w.Nests calls) :
    (w.performAll calls).IsKept limits := by
  induction calls generalizing w with
  | nil => exact h
  | cons call calls ih =>
    cases call with
    | enter key => exact ih (h.enter key) hnests
    | leave key => exact ih (h.leave hnests.1) hnests.2

end IsKept
end GuardedWalk

variable [DecidableEq κ]

mutual

/-- The scopes that were entered, this one included. -/
def ScopeOutcome.entries : ScopeOutcome → Nat
  | .denied _ => 0
  | .ran _ inner => entriesAll inner + 1

/-- The scopes that were entered. -/
def ScopeOutcome.entriesAll : List ScopeOutcome → Nat
  | [] => 0
  | outcome :: outcomes => outcome.entries + entriesAll outcomes

end

namespace ScopeTree

mutual

/-- The calls that running a scope makes on the guard. -/
def calls : ScopeTree κ → Guard κ → List (GuardCall κ)
  | node key inner, g =>
    match g.enter key with
    | (some _, _) => [.enter key]
    | (none, g) => .enter key :: (callsAll inner g ++ [.leave key])

/-- The calls that running scopes one after the other makes on the guard. -/
def callsAll : List (ScopeTree κ) → Guard κ → List (GuardCall κ)
  | [], _ => []
  | t :: ts, g => t.calls g ++ callsAll ts (t.run g).2

end

section Run

variable {key : κ} {inner : List (ScopeTree κ)} {g g' : Guard κ}

theorem run_of_denied {denial : Denial} (h : g.enter key = (some denial, g')) :
    (node key inner).run g = (.denied denial, g') := by
  simp only [run, Guard.scope, h]

theorem run_of_entered (h : g.enter key = (none, g')) :
    (node key inner).run g =
      (.ran g'.depth (runAll inner g').1, (runAll inner g').2.leave key) := by
  simp only [run, Guard.scope, h]
  rfl

theorem runAll_cons (t : ScopeTree κ) (ts : List (ScopeTree κ)) (g : Guard κ) :
    runAll (t :: ts) g =
      ((t.run g).1 :: (runAll ts (t.run g).2).1, (runAll ts (t.run g).2).2) := by
  rw [runAll]
  rfl

theorem calls_of_denied {denial : Denial} (h : g.enter key = (some denial, g')) :
    (node key inner).calls g = [.enter key] := by
  simp only [calls, h]

theorem calls_of_entered (h : g.enter key = (none, g')) :
    (node key inner).calls g = .enter key :: (callsAll inner g' ++ [.leave key]) := by
  simp only [calls, h]

end Run

mutual

/-- A scope makes properly nested calls, which come to what running it does and leave the open
scopes as they were. -/
theorem performAll_calls : (t : ScopeTree κ) → (w : GuardedWalk κ) →
    w.Nests (t.calls w.guard) ∧
      w.performAll (t.calls w.guard) =
        ⟨(t.run w.guard).2, w.opened, w.entries + (t.run w.guard).1.entries⟩
  | node key inner, w => by
    rcases henter : w.guard.enter key with ⟨_ | denial, g⟩
    · have hperform := w.perform_enter_of_entered henter
      obtain ⟨hnests, hinner⟩ := performAll_callsAll inner ⟨g, key :: w.opened, w.entries + 1⟩
      rw [calls_of_entered henter, run_of_entered henter, GuardedWalk.Nests, hperform,
        GuardedWalk.nests_append, hinner, GuardedWalk.performAll, List.foldl_cons, hperform,
        ← GuardedWalk.performAll, GuardedWalk.performAll_append, hinner]
      refine ⟨⟨hnests, rfl, trivial⟩, ?_⟩
      rw [ScopeOutcome.entries, ← Nat.add_assoc, Nat.add_right_comm]
      rfl
    · rw [calls_of_denied henter, run_of_denied henter]
      exact ⟨trivial, w.perform_enter_of_denied henter⟩

/-- Scopes run one after the other make properly nested calls, which come to what running them does
and leave the open scopes as they were. -/
theorem performAll_callsAll : (ts : List (ScopeTree κ)) → (w : GuardedWalk κ) →
    w.Nests (callsAll ts w.guard) ∧
      w.performAll (callsAll ts w.guard) =
        ⟨(runAll ts w.guard).2, w.opened,
          w.entries + ScopeOutcome.entriesAll (runAll ts w.guard).1⟩
  | [], w => ⟨trivial, rfl⟩
  | t :: ts, w => by
    obtain ⟨hfirst, hrun⟩ := t.performAll_calls w
    obtain ⟨hrest, hruns⟩ := performAll_callsAll ts (w.performAll (t.calls w.guard))
    rw [hrun] at hrest hruns
    rw [callsAll, GuardedWalk.nests_append, GuardedWalk.performAll_append, hrun, runAll_cons,
      ScopeOutcome.entriesAll, ← Nat.add_assoc]
    exact ⟨⟨hfirst, hrest⟩, hruns⟩

end

theorem runAll_append (ts us : List (ScopeTree κ)) (g : Guard κ) :
    runAll (ts ++ us) g = ((runAll ts g).1 ++ (runAll us (runAll ts g).2).1,
      (runAll us (runAll ts g).2).2) := by
  induction ts generalizing g with
  | nil => rfl
  | cons t ts ih => rw [List.cons_append, runAll_cons, ih, runAll_cons, List.cons_append]

end ScopeTree

theorem ScopeOutcome.entriesAll_append (os ps : List ScopeOutcome) :
    entriesAll (os ++ ps) = entriesAll os + entriesAll ps := by
  induction os with
  | nil => exact (Nat.zero_add _).symm
  | cons o os ih => rw [List.cons_append, entriesAll, entriesAll, ih, Nat.add_assoc]

/-- To the guard, a run of a check is a run of scopes, of which it enters one for each body that it
executes. -/
theorem Check.Runs.exists_scopes {α : Type} {c : Check α} {g g' : Guard CheckKey} {m i : Nat}
    {r : Formed α} (h : c.Runs g m i r g') :
    ∃ (trees : List (ScopeTree CheckKey)) (outcomes : List ScopeOutcome),
      ScopeTree.runAll trees g = (outcomes, g') ∧ ScopeOutcome.entriesAll outcomes = m := by
  induction h with
  | ofFormed r g => exact ⟨[], [], rfl, rfl⟩
  | bind _ _ ihc ihf =>
    obtain ⟨first, os, hfirst, hentries⟩ := ihc
    obtain ⟨rest, ps, hrest, hentries'⟩ := ihf
    refine ⟨first ++ rest, os ++ ps, ?_, ?_⟩
    · rw [ScopeTree.runAll_append, hfirst, hrest]
    · rw [ScopeOutcome.entriesAll_append, hentries, hentries']
  | bindError f _ ih => exact ih
  | attempt _ ih => exact ih
  | @denied _ key _ _ _ denial henter =>
    refine ⟨[.node key []], [.denied denial], ?_, rfl⟩
    rw [ScopeTree.runAll_cons, ScopeTree.run_of_denied henter]
    rfl
  | @guarded _ key _ _ entered _ _ _ _ henter _ ih =>
    obtain ⟨inner, outcomes, hinner, hentries⟩ := ih
    refine ⟨[.node key inner], [.ran entered.depth outcomes], ?_, congrArg (· + 1) hentries⟩
    rw [ScopeTree.runAll_cons, ScopeTree.run_of_entered henter, hinner]
    rfl

namespace GuardedWalk

/-- What holds at each moment of a walk whose calls are properly nested. The guard is visiting as
many keys as it is deep, and no more than it may. Below the number at which the count of the steps
stops, no more entries have succeeded than the limit says. A denied entry counts as a step, changes
nothing else and runs no body; it is denied as a cycle only inside a scope of its key, and for the
number of steps only if the limit is below that number. The scope that is left next is being
visited. Whatever is entered and left again in between, and so every tree of scopes, leaves the
guard visiting what it was visiting, as deep as it was. -/
theorem nested_calls_kept (limits : WalkLimits) {calls : List (GuardCall κ)}
    (hnests : (start limits).Nests calls) :
    let w := (start limits).performAll calls
    (w.guard.visiting.Nodup ∧ w.guard.depth = w.guard.visiting.length ∧
      w.guard.depth ≤ limits.depth) ∧
    (limits.iterations < Limits.countedSteps → w.entries ≤ limits.iterations) ∧
    (∀ key denial g, w.guard.enter key = (some denial, g) →
      g = { w.guard with iterations := w.guard.iterations + 1 } ∧
      (∀ {α : Type} (body : StateM (Guard κ) α),
        Guard.scope key body w.guard = (.error denial, g)) ∧
      (denial = .cycle → key ∈ w.opened) ∧
      (denial = .iterationExceeded → limits.iterations < Limits.countedSteps)) ∧
    (∀ key, w.opened.head? = some key → key ∈ w.guard.visiting ∧ 0 < w.guard.depth) ∧
    (∀ inner, w.Nests inner → (w.performAll inner).opened = w.opened →
      (w.performAll inner).guard.visiting = w.guard.visiting ∧
      (w.performAll inner).guard.depth = w.guard.depth) ∧
    ∀ trees outcomes g, ScopeTree.runAll trees w.guard = (outcomes, g) →
      g.visiting = w.guard.visiting ∧ g.depth = w.guard.depth ∧
      w.Nests (ScopeTree.callsAll trees w.guard) ∧
      w.performAll (ScopeTree.callsAll trees w.guard) =
        ⟨g, w.opened, w.entries + ScopeOutcome.entriesAll outcomes⟩ := by
  intro w
  have hkept : w.IsKept limits := (IsKept.start limits).performAll hnests
  have hrestored : ∀ inner, w.Nests inner → (w.performAll inner).opened = w.opened →
      (w.performAll inner).guard.visiting = w.guard.visiting ∧
      (w.performAll inner).guard.depth = w.guard.depth := by
    intro inner hinner hopened
    have hafter := hkept.performAll hinner
    rw [hafter.visiting_eq, hafter.depth_eq, hopened]
    exact ⟨hkept.visiting_eq.symm, hkept.depth_eq.symm⟩
  refine ⟨⟨hkept.visiting_eq ▸ hkept.nodup, ?_, hkept.depth_le⟩, hkept.entries_le_limit,
    ?denied, ?left, hrestored, ?trees⟩
  · rw [hkept.depth_eq, hkept.visiting_eq]
  case denied =>
    intro key denial g henter
    refine ⟨Guard.enter_eq_some henter, fun body => by simp only [Guard.scope, henter], ?_⟩
    obtain ⟨hcount, hcase⟩ | ⟨_, hcase⟩ | ⟨hkey, hcase⟩ | ⟨_, _, _, hcase⟩ :=
      w.guard.enter_cases key
    all_goals cases hcase.symm.trans henter
    · rw [hkept.limits_eq] at hcount
      exact ⟨fun h => absurd h (by decide), fun _ => by omega⟩
    · exact ⟨fun h => absurd h (by decide), fun h => absurd h (by decide)⟩
    · exact ⟨fun _ => hkept.visiting_eq ▸ hkey, fun h => absurd h (by decide)⟩
  case left =>
    intro key hkey
    obtain ⟨outer, hopened⟩ := List.head?_eq_some_iff.mp hkey
    rw [hkept.visiting_eq, hkept.depth_eq, hopened]
    exact ⟨List.mem_cons_self, Nat.succ_pos _⟩
  case trees =>
    intro trees outcomes g hrun
    obtain ⟨hnested, hperform⟩ := ScopeTree.performAll_callsAll trees w
    rw [hrun] at hperform
    obtain ⟨hvisiting, hdepth⟩ := hrestored _ hnested (by rw [hperform])
    rw [hperform] at hvisiting hdepth
    exact ⟨hvisiting, hdepth, hnested, hperform⟩

/-- At most two deep and with five steps: `3` is denied inside of `1` and `2`, and `1` inside of
itself; then `3` is entered there, and `2` is beyond the limit. -/
theorem nested_calls_kept_deniedThrice :
    let calls := [.enter 1, .enter 2, .enter 3, .leave 2, .enter 1, .enter 3]
    let w := (start ⟨2, 5⟩ : GuardedWalk Nat).performAll calls
    (start ⟨2, 5⟩ : GuardedWalk Nat).Nests calls ∧ w.opened = [3, 1] ∧ w.guard.depth = 2 ∧
      w.entries = 3 ∧ w.entries ≤ 5 ∧ (w.guard.enter 2).1 = some .iterationExceeded ∧
      (w.performAll [.enter 2, .leave 3, .leave 1]).guard.visiting = [] := by
  intro calls w
  have hnests : (start ⟨2, 5⟩ : GuardedWalk Nat).Nests calls := by decide
  obtain ⟨⟨_, hdepth, _⟩, hentries, _⟩ := nested_calls_kept ⟨2, 5⟩ hnests
  exact ⟨hnests, by decide, hdepth.trans (by decide), by decide, hentries (by decide), by decide,
    by decide⟩

end GuardedWalk

namespace ScopeTree

/-- Under a limit at which the count of the steps has stopped, scopes run one after the other are
all entered. -/
theorem runAll_replicate {g : Guard κ} {key : κ}
    (hlimit : Limits.countedSteps ≤ g.limits.iterations) (hdepth : g.depth < g.limits.depth)
    (hkey : key ∉ g.visiting) (n : Nat) :
    (runAll (List.replicate n (node key [])) g).1 = List.replicate n (.ran (g.depth + 1) []) := by
  induction n generalizing g with
  | zero => rfl
  | succ n ih =>
    have henter : g.enter key = (none, g.entered key) := by
      obtain ⟨hcount, _⟩ | ⟨hdeep, _⟩ | ⟨hmem, _⟩ | ⟨_, _, _, henter⟩ := g.enter_cases key
      · omega
      · omega
      · exact absurd hmem hkey
      · exact henter
    have hleft : (runAll [] (g.entered key)).2.leave key = g.counted := Guard.leave_entered
    have hrest := ih (g := g.counted) hlimit hdepth hkey
    rw [List.replicate_succ, runAll_cons, run_of_entered henter, hleft, List.replicate_succ]
    exact congrArg (_ :: ·) hrest

end ScopeTree

theorem ScopeOutcome.entriesAll_replicate (depth n : Nat) :
    entriesAll (List.replicate n (.ran depth [])) = n := by
  induction n with
  | zero => rfl
  | succ n ih =>
    rw [List.replicate_succ, entriesAll, ih, entries, entriesAll, Nat.add_comm]

/-- The greatest limit of 32 bits does not bound the number of scopes that are entered. -/
theorem ScopeTree.entries_exceed_greatestLimit :
    let limits : WalkLimits := ⟨1, 0xFFFFFFFF⟩
    let scopes : List (ScopeTree Nat) := List.replicate 0x100000000 (node 0 [])
    ¬ScopeOutcome.entriesAll (runAll scopes (.fresh limits)).1 ≤ limits.iterations := by
  intro limits scopes
  have hall : (runAll scopes (.fresh limits)).1 = List.replicate 0x100000000 (.ran 1 []) :=
    runAll_replicate (Nat.le_refl _) Nat.one_pos List.not_mem_nil _
  rw [hall, ScopeOutcome.entriesAll_replicate]
  exact Nat.not_le_of_lt (Nat.lt_succ_self _)

end TypeTraits
