import TypeTraits.Record.Facts
import TypeTraits.Error
import TypeTraits.Ty.Spelling

/-!
# Completing a record

At the closing brace the bases and data members are checked, the special members that were not
declared are added, the facts and the layout are computed, and the declaration is stored.
-/

namespace TypeTraits

namespace Program

variable (p : Program)

/-- Checks one base of a record and gives its unqualified type. -/
def checkBase (r : Record) (base : BaseClass) : Except TraitError BaseClass :=
  let t := base.type.unqualified
  match t.recordId? with
  | none => .error (.invalidBase r.name (p.spell t))
  | some id =>
    if id = r.id then .error (.selfBase r.name)
    else
      match p.completeRecord? t with
      | none => .error (.incompleteBase r.name (p.spell t))
      | some b =>
        if b.isUnion then .error (.invalidBase r.name (p.spell t))
        else .ok { base with type := t }

/-- Checks the bases of a record. -/
def checkBases (r : Record) : Except TraitError (List BaseClass) :=
  if r.isUnion && !r.bases.isEmpty then .error (.unionBase r.name)
  else r.bases.mapM (p.checkBase r)

/-- Checks that each data member is a reference or a complete object. -/
def checkMembers (r : Record) : Except TraitError Unit :=
  r.members.forM fun m =>
    if m.type.isReference || p.isCompleteObject m.type then .ok ()
    else .error (.invalidMember r.name m.name (p.spell m.type))

/-- The base subobjects that special members are defined from: the direct bases, a virtual one
only once, and after each of them its virtual bases that did not come yet. -/
def baseObjects (r : Record) : List Ty :=
  (r.bases.foldl (fun (seen, out) base =>
    let (seen, out) :=
      if !base.isVirtual then (seen, base.type :: out)
      else if base.type ∈ seen then (seen, out)
      else (base.type :: seen, base.type :: out)
    (p.allBases base.type).foldl (fun (seen, out) t =>
      if p.isVirtualBaseOf t base.type && t ∉ seen then (t :: seen, t :: out) else (seen, out))
      (seen, out))
    (([], []) : List Ty × List Ty)).2.reverse

/-- A data member as a special member sees it. -/
def memberObject (m : DataMember) : MemberObject where
  type := if m.type.isReference then m.type else m.type.element
  isBase := false
  reference := m.type.referent?.map (·.2)
  hasInitializer := m.hasInitializer

/-- The subobjects that special members are defined from: bases, then data members. -/
def memberObjects (r : Record) : List MemberObject :=
  ((p.baseObjects r).map fun type => { type, isBase := true }) ++ r.members.map memberObject

end Program

namespace Synthesis

variable (s : Synthesis)

/-- Defines a constructor that was declared `= default`. -/
def defineConstructor (r : Record) (f : FunctionDecl) : Check FunctionDecl := do
  if f.origin ≠ .defaulted then return f
  match r.specialConstructor? f with
  | some .defaultConstructor =>
    let f := (← s.defaultConstructor).apply f
    return { f with constexpr := f.constexpr || s.constexprDefault }
  | some .copyConstructor => return (← s.copyConstructor f.takesConst).apply f
  | some .moveConstructor =>
    let outcome ← s.moveConstructor
    return { outcome.apply f with hidden := outcome.deleted }
  | _ => return f

/-- Defines an assignment operator that was declared `= default`. -/
def defineAssignment (r : Record) (f : FunctionDecl) : Check FunctionDecl := do
  if f.origin ≠ .defaulted then return f
  match r.specialAssignment? f with
  | some .copyAssignment => return (← s.copyAssignment f.takesConst).apply f
  | some .moveAssignment =>
    let outcome ← s.moveAssignment
    return { outcome.apply f with hidden := outcome.deleted }
  | _ => return f

/-- Which special members the user declares. -/
structure Declared where
  anyConstructor : Bool
  copyConstructor : Bool
  moveConstructor : Bool
  copyAssignment : Bool
  moveAssignment : Bool
  destructor : Bool
  deriving DecidableEq, Repr

namespace Declared

/-- The special members among the declared functions of a record. -/
def ofRecord (r : Record) : Declared :=
  let constructor (k : Special) : Bool :=
    r.constructors.any fun f => r.specialConstructor? f == some k
  let assignment (k : Special) : Bool :=
    r.assignments.any fun f => r.specialAssignment? f == some k
  { anyConstructor := !r.constructors.isEmpty
    copyConstructor := constructor .copyConstructor
    moveConstructor := constructor .moveConstructor
    copyAssignment := assignment .copyAssignment
    moveAssignment := assignment .moveAssignment
    destructor := r.destructor.isSome }

/-- A declared move operation deletes the implicit copy operations. -/
def moves (d : Declared) : Bool := d.moveConstructor || d.moveAssignment

/-- Move operations are declared implicitly only next to no copy, move or destructor. -/
def allowsMoves (d : Declared) : Bool :=
  !d.copyConstructor && !d.moveConstructor && !d.copyAssignment && !d.moveAssignment &&
    !d.destructor

end Declared

/-- The implicit default constructor, if the class declares no constructor. -/
def implicitDefault (d : Declared) : Check (List FunctionDecl) := do
  if d.anyConstructor then return []
  let f := (← s.defaultConstructor).implicitly []
  return [{ f with constexpr := !f.deleted && s.constexprDefault }]

/-- The implicit copy constructor, deleted next to a declared move operation. -/
def implicitCopyConstructor (draft : Draft) (d : Declared) : Check (List FunctionDecl) := do
  if d.copyConstructor then return []
  let constParam := s.copiesConst
  let outcome ← if d.moves then pure .impossible else s.copyConstructor constParam
  return [outcome.implicitly [if constParam then draft.constRef else draft.lvalueRef]]

/-- The implicit move constructor, which is not declared where it would be deleted. -/
def implicitMoveConstructor (draft : Draft) (d : Declared) : Check (List FunctionDecl) := do
  if !d.allowsMoves then return []
  let outcome ← s.moveConstructor
  return if outcome.deleted then [] else [outcome.implicitly [draft.rvalueRef]]

/-- The implicit copy assignment, deleted next to a declared move operation. -/
def implicitCopyAssignment (draft : Draft) (d : Declared) : Check (List FunctionDecl) := do
  if d.copyAssignment then return []
  let constParam := s.assignsConst
  let outcome ← if d.moves then pure .impossible else s.copyAssignment constParam
  return [outcome.implicitly [if constParam then draft.constRef else draft.lvalueRef]
    draft.lvalueRef]

/-- The implicit move assignment, which is not declared where it would be deleted. -/
def implicitMoveAssignment (draft : Draft) (d : Declared) : Check (List FunctionDecl) := do
  if !d.allowsMoves then return []
  let outcome ← s.moveAssignment
  return if outcome.deleted then [] else [outcome.implicitly [draft.rvalueRef] draft.lvalueRef]

/-- The destructor: implicit, or as declared with the exception specification and triviality it
turns out to have. -/
def completeDestructor (draft : Draft) (inheritsVirtual : Bool) : Check FunctionDecl := do
  let outcome ← s.destructor
  let f :=
    match draft.record.destructor with
    | none => outcome.implicitly []
    | some f =>
      match f.origin with
      | .defaulted => outcome.apply f
      | .userProvided =>
        { f with
          trivial := false
          noexcept := !draft.throwing && (f.noexcept || outcome.noexcept) }
      | .deleted | .implicit => f
  let f := if inheritsVirtual then { f with isVirtual := true } else f
  return if f.isVirtual then { f with trivial := false } else f

/-- The declared record with the special members the compiler defines and adds. -/
def complete (draft : Draft) (inheritsVirtual : Bool) : Check Record := do
  let r := draft.record
  let declared := Declared.ofRecord r
  let constructors ← r.constructors.mapM (s.defineConstructor r)
  let assignments ← r.assignments.mapM (s.defineAssignment r)
  let default ← s.implicitDefault declared
  let copyConstructor ← s.implicitCopyConstructor draft declared
  let moveConstructor ← s.implicitMoveConstructor draft declared
  let copyAssignment ← s.implicitCopyAssignment draft declared
  let moveAssignment ← s.implicitMoveAssignment draft declared
  let destructor ← s.completeDestructor draft inheritsVirtual
  return { r with
    constructors := constructors ++ default ++ copyConstructor ++ moveConstructor
    assignments := assignments ++ copyAssignment ++ moveAssignment
    destructor := some destructor }

/-- Whether the compiler defines a copy operation that takes its argument as `const`. -/
def copiesFromConst (r : Record) : Bool :=
  let declared := Declared.ofRecord r
  let defaulted (kind : Special) (special? : FunctionDecl → Option Special)
      (fs : List FunctionDecl) : Bool :=
    fs.any fun f => f.origin == .defaulted && special? f == some kind && f.takesConst
  (!declared.moves &&
    ((!declared.copyConstructor && s.copiesConst) ||
      (!declared.copyAssignment && s.assignsConst))) ||
    defaulted .copyConstructor r.specialConstructor? r.constructors ||
    defaulted .copyAssignment r.specialAssignment? r.assignments

end Synthesis

namespace Program

variable (p : Program)

/-- Completes the record of a draft whose bases and members have been checked, or gives nothing
when it is too large. -/
def completeRecord (draft : Draft) : Option Record :=
  let r := draft.record
  let bases := p.baseRecords r
  let hasVirtualBases := r.bases.any (·.isVirtual) || bases.any (·.facts.hasVirtualBases)
  let polymorphic := !r.virtualFunctions.isEmpty || r.destructor.any (·.isVirtual) ||
    bases.any (·.facts.polymorphic)
  let dynamic := polymorphic || hasVirtualBases
  let synthesis : Synthesis :=
    { program := p, objects := p.memberObjects r, isUnion := r.isUnion, dynamic }
  match (synthesis.complete draft (bases.any (·.facts.virtualDestructor))).result with
  | .error _ => none
  | .ok r =>
    let facts := p.facts r polymorphic hasVirtualBases
    (p.layOut
      { isUnion := r.isUnion, dynamic, bases := r.bases, members := r.members.map (·.type) }).map
      fun layout =>
        { r with
          complete := true
          layout
          facts := { facts with
            uniqueRepresentation :=
              p.isUniquelyRepresented r facts.triviallyCopyable layout.size } }

/-- The types that completing a record forms: the references to the record, and the `const`
subobjects that its copy operations copy from. -/
def completionTypes (draft : Draft) : List Ty :=
  let r := { draft.record with
    bases := draft.record.bases.map fun b => { b with type := b.type.unqualified } }
  let objects := p.memberObjects r
  let synthesis : Synthesis := { program := p, objects, isUnion := r.isUnion, dynamic := false }
  let copied := objects.filter (·.reference.isNone)
  [draft.constRef, draft.lvalueRef, draft.rvalueRef] ++
    if synthesis.copiesFromConst r then copied.map (·.type.qualify .const) else []

/-- Completes a record: the program with the complete declaration, and its type. -/
def finishRecord (draft : Draft) : Except TraitError (Program × Ty) := do
  let bases ← p.checkBases draft.record
  p.checkMembers draft.record
  let draft := { draft with record := { draft.record with bases } }
  match p.completeRecord draft with
  | none => .error (.recordTooLarge draft.record.name)
  | some r => .ok (p.defineRecord r, r.type)

end Program

end TypeTraits
