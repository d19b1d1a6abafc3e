import TypeTraits.Decl.Function

/-!
# Classes, structs and unions

A record is declared incomplete and completed once. A complete record carries, besides what
was declared, the members the compiler added, the facts derived from them and its layout.
-/

namespace TypeTraits

/-- The keyword that declares a record. -/
inductive ClassKey where
  | cls
  | struct
  | union
  deriving DecidableEq, Repr, Inhabited

/-- The class-key that a keyword is. -/
def ClassKey.ofKeyword? : String → Option ClassKey
  | "class" => some cls
  | "struct" => some struct
  | "union" => some union
  | _ => none

/-- Access of bases and members that name none. -/
def ClassKey.defaultAccess : ClassKey → Access
  | .cls => .priv
  | .struct | .union => .pub

/-- A direct base class. -/
structure BaseClass where
  type : Ty
  access : Access
  isVirtual : Bool
  deriving DecidableEq, Repr, Inhabited

/-- A non-static data member. -/
structure DataMember where
  name : String
  type : Ty
  access : Access
  hasInitializer : Bool := false
  isMutable : Bool := false
  deriving DecidableEq, Repr, Inhabited

/-- A virtual member function other than the destructor. -/
structure VirtualFunction where
  name : String
  pure : Bool
  deriving DecidableEq, Repr, Inhabited

/-- What follows from a declaration once it is complete. -/
structure Facts where
  polymorphic : Bool := false
  abstract : Bool := false
  hasVirtualBases : Bool := false
  virtualDestructor : Bool := false
  empty : Bool := false
  standardLayout : Bool := false
  triviallyCopyable : Bool := false
  trivialDefaultConstructor : Bool := false
  trivial : Bool := false
  aggregate : Bool := false
  literal : Bool := false
  uniqueRepresentation : Bool := false
  /-- Names of the pure virtual functions without a final overrider. -/
  unresolvedPure : List String := []
  deriving DecidableEq, Repr, Inhabited

/-- Virtual functions or virtual bases: an object holds a table pointer. -/
def Facts.dynamic (f : Facts) : Bool := f.polymorphic || f.hasVirtualBases

/-- A class, struct or union. -/
structure Record where
  id : RecordId
  name : String
  key : ClassKey
  complete : Bool := false
  bases : List BaseClass := []
  members : List DataMember := []
  constructors : List FunctionDecl := []
  assignments : List FunctionDecl := []
  destructor : Option FunctionDecl := none
  conversions : List FunctionDecl := []
  callOperators : List FunctionDecl := []
  indirection : Option FunctionDecl := none
  /-- Free `swap` overloads that argument-dependent lookup finds. -/
  swaps : List FunctionDecl := []
  virtualFunctions : List VirtualFunction := []
  /-- The wrapped type of a reference wrapper. -/
  wraps : Option Ty := none
  isFinal : Bool := false
  facts : Facts := {}
  layout : Layout := ⟨0, 0⟩
  deriving DecidableEq, Repr, Inhabited

namespace Record

def isUnion (r : Record) : Bool := r.key == .union

/-- The record's type. -/
def type (r : Record) : Ty := .record r.id

/-- The member functions and `swap` overloads of the record. -/
def allFunctions (r : Record) : List FunctionDecl :=
  r.constructors ++ r.assignments ++ r.destructor.toList ++ r.conversions ++ r.callOperators ++
    r.indirection.toList ++ r.swaps

/-- The types the record mentions. -/
def types (r : Record) : List Ty :=
  r.bases.map (·.type) ++ r.members.map (·.type) ++
    r.allFunctions.flatMap (fun f => f.params ++ [f.result]) ++ r.wraps.toList

/-- The record with `g` applied to the types it mentions. -/
def mapTypes (g : Ty → Ty) (r : Record) : Record :=
  let functions := List.map (FunctionDecl.mapTypes g)
  { r with
    bases := r.bases.map fun b => { b with type := g b.type }
    members := r.members.map fun m => { m with type := g m.type }
    constructors := functions r.constructors
    assignments := functions r.assignments
    destructor := r.destructor.map (FunctionDecl.mapTypes g)
    conversions := functions r.conversions
    callOperators := functions r.callOperators
    indirection := r.indirection.map (FunctionDecl.mapTypes g)
    swaps := functions r.swaps
    wraps := r.wraps.map g }

end Record

end TypeTraits
