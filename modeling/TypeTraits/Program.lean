import TypeTraits.Decl.Record
import TypeTraits.Decl.Enumeration

/-!
# Programs

A program is a target, the records and enumerations declared so far, each numbered from 1, and
an index of record names. Declaring adds at the end; defining replaces a declaration in place.
-/

namespace TypeTraits

/-- The declarations of a program for one target. -/
structure Program where
  target : Target
  records : Array Record := #[]
  enums : Array Enumeration := #[]
  /-- Each declared name once, in order of its first declaration, with the newest record of
  that name. -/
  names : List (String × RecordId) := []
  deriving Repr, Inhabited

namespace Program

/-- The declaration with a given number. -/
def record? (p : Program) (id : RecordId) : Option Record :=
  if id.index = 0 then none else p.records[id.index - 1]?

def enum? (p : Program) (id : EnumId) : Option Enumeration :=
  if id.index = 0 then none else p.enums[id.index - 1]?

/-- The name index after `name` was declared as `id`; a known name keeps its place. -/
def indexName (name : String) (id : RecordId) : List (String × RecordId) → List (String × RecordId)
  | [] => [(name, id)]
  | (n, i) :: rest => if n = name then (n, id) :: rest else (n, i) :: indexName name id rest

/-- Declares an incomplete record. A record without a name is not in the index. -/
def declareRecord (p : Program) (name : String) (key : ClassKey) : Program × RecordId :=
  let id : RecordId := ⟨p.records.size + 1⟩
  ({ p with
      records := p.records.push { id, name, key }
      names := if name.isEmpty then p.names else indexName name id p.names }, id)

/-- Replaces the declaration of a declared record. -/
def defineRecord (p : Program) (r : Record) : Program :=
  if r.id.index = 0 then p
  else { p with records := p.records.setIfInBounds (r.id.index - 1) r }

/-- Declares an enumeration; the number in `e` is replaced by the next free one. -/
def declareEnum (p : Program) (e : Enumeration) : Program × EnumId :=
  let id : EnumId := ⟨p.enums.size + 1⟩
  ({ p with enums := p.enums.push { e with id } }, id)

/-- The newest record declared with a name. -/
def findRecord? (p : Program) (name : String) : Option RecordId :=
  p.names.lookup name

/-- The records the name index holds, in the order of their names. -/
def namedRecords (p : Program) : List RecordId := p.names.map (·.2)

def recordCount (p : Program) : Nat := p.records.size

/-- The program with `g` applied to the types its declarations mention. -/
def mapTypes (g : Ty → Ty) (p : Program) : Program :=
  { p with
    records := p.records.map (Record.mapTypes g)
    enums := p.enums.map fun e => { e with fixedUnderlying := e.fixedUnderlying.map g } }

/-- The declaration behind a possibly qualified record type. -/
def recordOf? (p : Program) (t : Ty) : Option Record :=
  t.recordId?.bind p.record?

/-- The declaration behind a type, if it is complete. -/
def completeRecord? (p : Program) (t : Ty) : Option Record :=
  (p.recordOf? t).filter (·.complete)

/-- The complete declaration behind a type, if it is no union. -/
def class? (p : Program) (t : Ty) : Option Record :=
  (p.completeRecord? t).filter (!·.isUnion)

/-- The enumeration behind a possibly qualified type. -/
def enumOf? (p : Program) (t : Ty) : Option Enumeration :=
  t.enumId?.bind p.enum?

/-- Whether the record with this number is complete. -/
def isCompleteRecord (p : Program) (id : RecordId) : Bool :=
  (p.record? id).any (·.complete)

/-- Object types of known size: no `void`, function, reference, array of unknown bound or
incomplete record. A top-level qualifier does not matter. -/
def isCompleteObject (p : Program) : Ty → Bool
  | .void | .function .. | .functionNamed _ | .unknown _ | .lvalueRef _ | .rvalueRef _ => false
  | .array t b => b.isSome && p.isCompleteObject t
  | .record id => p.isCompleteRecord id
  | .qualified t _ =>
    match t with
    | .qualified .. => true
    | t => p.isCompleteObject t
  | _ => true

end Program

end TypeTraits
