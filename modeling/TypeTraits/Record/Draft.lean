import TypeTraits.Program

/-!
# Declaring a record step by step

A draft collects what is written between the braces of a class. The record itself is declared,
and incomplete, from the start, so that its members may mention it.
-/

namespace TypeTraits

/-- One thing written in a class. -/
inductive RecordStep where
  /-- A base with the default access of the class-key. -/
  | base (type : Ty)
  | baseWith (type : Ty) (access : Access) (isVirtual : Bool)
  | virtualBase (type : Ty)
  /-- A data member with the default access of the class-key. -/
  | member (name : String) (type : Ty)
  | memberWith (name : String) (type : Ty) (access : Access)
  /-- A data member with a default initializer. -/
  | initializedMember (name : String) (type : Ty)
  | mutableMember (name : String) (type : Ty)
  | constructor (function : FunctionDecl)
  /-- An assignment operator; a result type of `void` stands for a reference to the class. -/
  | assignment (function : FunctionDecl)
  | destructor (function : FunctionDecl)
  /-- A destructor that may throw. -/
  | throwingDestructor
  | virtualDestructor
  | conversion (function : FunctionDecl)
  | callOperator (function : FunctionDecl)
  | indirection (function : FunctionDecl)
  | swap (function : FunctionDecl)
  | virtualFunction (name : String)
  | pureVirtual (name : String)
  /-- The record wraps a reference to a type and converts to it. -/
  | wraps (type : Ty)
  | final
  deriving Repr

/-- A record that is being declared. -/
structure Draft where
  record : Record
  /-- Some destructor was declared to throw. -/
  throwing : Bool := false
  deriving DecidableEq, Repr, Inhabited

namespace Draft

variable (d : Draft)

def type : Ty := d.record.type

/-- The draft with `g` applied to the types it mentions. -/
def mapTypes (g : Ty → Ty) : Draft := { d with record := d.record.mapTypes g }

/-- `const C&` -/
def constRef : Ty := (d.type.qualify .const).lvalueRefTo

/-- `C&` -/
def lvalueRef : Ty := d.type.lvalueRefTo

/-- `C&&` -/
def rvalueRef : Ty := d.type.rvalueRefTo

/-- Adds a base. -/
def addBase (type : Ty) (access : Access) (isVirtual : Bool) : Draft :=
  { d with record := { d.record with bases := d.record.bases ++ [⟨type, access, isVirtual⟩] } }

/-- Adds a data member. -/
def addMember (m : DataMember) : Draft :=
  { d with record := { d.record with members := d.record.members ++ [m] } }

/-- Declares the destructor, in place of any declared before. -/
def setDestructor (f : FunctionDecl) : Draft :=
  { d with record := { d.record with destructor := some f } }

/-- Adds a conversion function. -/
def addConversion (f : FunctionDecl) : Draft :=
  { d with record := { d.record with conversions := d.record.conversions ++ [f] } }

/-- Adds a virtual member function. -/
def addVirtual (name : String) (pure : Bool) : Draft :=
  { d with
    record := { d.record with
      virtualFunctions := d.record.virtualFunctions ++ [⟨name, pure⟩] } }

/-- The draft after one more step. -/
def apply : RecordStep → Draft
  | .base t => d.addBase t d.record.key.defaultAccess false
  | .baseWith t access isVirtual => d.addBase t access isVirtual
  | .virtualBase t => d.addBase t d.record.key.defaultAccess true
  | .member name t => d.addMember ⟨name, t, d.record.key.defaultAccess, false, false⟩
  | .memberWith name t access => d.addMember ⟨name, t, access, false, false⟩
  | .initializedMember name t =>
    d.addMember ⟨name, t, d.record.key.defaultAccess, true, false⟩
  | .mutableMember name t => d.addMember ⟨name, t, d.record.key.defaultAccess, false, true⟩
  | .constructor f =>
    { d with record := { d.record with constructors := d.record.constructors ++ [f] } }
  | .assignment f =>
    let f := if f.result = .void then { f with result := d.lvalueRef } else f
    { d with record := { d.record with assignments := d.record.assignments ++ [f] } }
  | .destructor f => d.setDestructor f
  | .throwingDestructor => { d.setDestructor { params := [] } with throwing := true }
  | .virtualDestructor => d.setDestructor { params := [], isVirtual := true }
  | .conversion f => d.addConversion f
  | .callOperator f =>
    { d with record := { d.record with callOperators := d.record.callOperators ++ [f] } }
  | .indirection f => { d with record := { d.record with indirection := some f } }
  | .swap f => { d with record := { d.record with swaps := d.record.swaps ++ [f] } }
  | .virtualFunction name => d.addVirtual name false
  | .pureVirtual name => d.addVirtual name true
  | .wraps t =>
    { d with record := { d.record with wraps := some t } }.addConversion
      { params := [], result := t.lvalueRefTo, cv := .const, noexcept := true }
  | .final => { d with record := { d.record with isFinal := true } }

/-- The draft after a list of steps. -/
def applyAll (steps : List RecordStep) : Draft := steps.foldl apply d

end Draft

namespace Program

/-- Declares a record and starts its draft. -/
def startRecord (p : Program) (name : String) (key : ClassKey) : Program × Draft :=
  let (p, id) := p.declareRecord name key
  (p, { record := { id, name, key } })

end Program

end TypeTraits
