import TypeTraits.Pool.TypeTable
import TypeTraits.Record.Completion
import TypeTraits.Trait.Query
import TypeTraits.Ty.Resolution

/-!
# Sessions

A session is what a sequence of operations on one program shares: the declarations, the drafts
and types that have names, the solver's settings with the answers it remembers, and the types
formed so far. A function type may be named by the number of a signature that has not been
formed; it is that function type from the moment the signature is, in everything the session
holds.
-/

namespace TypeTraits

/-- The state that a sequence of operations shares. -/
structure Session where
  program : Program
  capabilities : Capabilities := .all
  provider : Provider := .declarations
  memo : Memo := ∅
  names : Std.HashMap String Ty := ∅
  drafts : Std.HashMap String Draft := ∅
  table : TypeTable := .fresh
  /-- Numbers by which function types were named before their signatures were formed. -/
  pending : List Nat := []

namespace Session

variable (s : Session)

/-- The solver of the session. -/
def solver : Solver :=
  { program := s.program, capabilities := s.capabilities, provider := s.provider }

/-- The session once a type has been formed. -/
def form (t : Ty) : Session := { s with table := (s.table.add .byHash t).2 }

/-- The session once several types have been formed. -/
def formAll (ts : List Ty) : Session := { s with table := (s.table.addAll .byHash ts).2 }

/-- The function type that a number names. -/
def functionNamed (number : Nat) : Ty × Session :=
  if number < s.table.signatureCount then (s.table.functionType number, s)
  else (.functionNamed number, { s with pending := number :: s.pending })

/-- Completes the record of a draft. -/
def finish (draft : Draft) : Except TraitError Ty × Session :=
  match s.program.finishRecord draft with
  | .ok (program, t) => (.ok t, { s.formAll (s.program.completionTypes draft) with program })
  | .error e => (.error e, s)

/-- The answer to a query, remembered or not. -/
def ask (q : Query) : Except TraitError Answer × Session :=
  let (answer, memo) := s.memo.ask s.solver q
  (answer, { s with memo })

/-- The answer to a query, with the events it reports. -/
def askTraced (q : Query) : (Except TraitError Answer × List QueryEvent) × Session :=
  let (answer, memo) := s.memo.askTraced s.solver q
  (answer, { s with memo })

/-- The session with the types that `table` holds, and with every signature known that the table
has. -/
def settle (table : TypeTable) : Session :=
  let known := Ty.resolve table.functionType
  { s with
    table
    program := s.program.mapTypes known
    memo := s.memo.mapTypes known
    names := s.names.map fun _ => known
    drafts := s.drafts.map fun _ d => d.mapTypes known
    pending := s.pending.filter (table.signatureCount ≤ ·) }

/-- Performs an operation. One that forms a signature named before is performed anew with that
signature known from the start, so that it makes no difference which of its types it forms
first. -/
def perform {α : Type} (operation : Session → α × Session) : α × Session :=
  let (result, after) := operation s
  if after.pending.any (· < after.table.signatureCount) then
    operation ({ s with pending := after.pending }.settle after.table)
  else (result, after)

end Session

end TypeTraits
