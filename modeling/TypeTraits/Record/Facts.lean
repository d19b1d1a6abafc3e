import TypeTraits.Record.Special
import TypeTraits.Layout.Record

/-!
# Facts about a complete record

What follows from a declaration once the compiler's members have been added: whether the class
is polymorphic, abstract, empty, an aggregate, a literal type, of standard layout, and so on.
-/

namespace TypeTraits

namespace Record

/-- The special member a constructor of the record is. -/
def specialConstructor? (r : Record) (f : FunctionDecl) : Option Special :=
  Special.ofConstructor? r.type f

/-- The special member an assignment operator of the record is. -/
def specialAssignment? (r : Record) (f : FunctionDecl) : Option Special :=
  Special.ofAssignment? r.type f

/-- Whether a constructor copies or moves. -/
def isCopyOrMove (r : Record) (f : FunctionDecl) : Bool :=
  (r.specialConstructor? f).any (·.isCopyOrMove)

/-- The copy and move operations that overload resolution may select. -/
def eligibleCopies (r : Record) : List FunctionDecl :=
  (r.constructors.filter r.isCopyOrMove ++
    r.assignments.filter fun f => (r.specialAssignment? f).isSome).filter fun f =>
      !f.deleted && !f.hidden

/-- Whether the destructor is trivial and not deleted. -/
def hasTrivialDestructor (r : Record) : Bool :=
  r.destructor.any fun d => !d.deleted && d.trivial

def isTriviallyCopyable (r : Record) : Bool :=
  !r.eligibleCopies.isEmpty && r.eligibleCopies.all (·.trivial) && r.hasTrivialDestructor

/-- Whether every default constructor that is not deleted is trivial, and there is one. -/
def isTriviallyDefaultConstructible (r : Record) : Bool :=
  let defaults := r.constructors.filter fun f => f.takes 0 && !f.deleted
  !defaults.isEmpty && defaults.all (·.trivial)

def isAggregate (r : Record) (polymorphic : Bool) : Bool :=
  !(r.constructors.any fun f => f.isUserProvided || (f.isUserDeclared && f.explicit)) &&
    r.members.all (·.access == .pub) && !polymorphic &&
    r.bases.all fun base => base.access == .pub && !base.isVirtual

/-- Whether a constructor that neither copies nor moves is `constexpr`. -/
def hasConstexprConstructor (r : Record) : Bool :=
  r.constructors.any fun f => f.constexpr && !f.deleted && !r.isCopyOrMove f

end Record

namespace Program

variable (p : Program)

/-- The complete declarations of the direct bases. -/
def baseRecords (r : Record) : List Record :=
  r.bases.filterMap fun base => p.completeRecord? base.type

/-- The pure virtual functions that are left without an overrider: those of the bases that the
record does not declare, and its own. -/
def unresolvedPure (r : Record) : List String :=
  let inherited := (p.baseRecords r).flatMap fun base =>
    base.facts.unresolvedPure.filter fun name => !r.virtualFunctions.any (·.name == name)
  let own := (r.virtualFunctions.filter (·.pure)).map (·.name)
  (inherited ++ own).foldl (fun names name =>
    if name ∈ names then names else names ++ [name]) []

/-- Whether a data member of this type leaves a class literal. -/
def isLiteralMember (t : Ty) : Bool :=
  t.isReference ||
    (!t.element.cv.isVolatile && (p.completeRecord? t.element).all (·.facts.literal))

/-- Whether the members and bases leave a class literal; of a union one member is enough. -/
def membersLiteral (r : Record) : Bool :=
  if r.isUnion then r.members.isEmpty || r.members.any fun m => p.isLiteralMember m.type
  else
    (r.members.all fun m => p.isLiteralMember m.type) &&
      (p.baseRecords r).all (·.facts.literal)

/-- Every base subobject below a class, once per path, for paths of at most `fuel` bases. -/
def baseSubobjects : Nat → Ty → List Ty
  | 0, _ => []
  | fuel + 1, t =>
    match p.completeRecord? t with
    | none => []
    | some r => r.bases.flatMap fun base => base.type :: baseSubobjects fuel base.type

/-- The base subobjects of a record, its direct bases included. -/
def allBaseSubobjects (r : Record) : List Ty :=
  r.bases.flatMap fun base =>
    base.type :: p.baseSubobjects (Limits.hierarchyDepth + 1) base.type

/-- Whether a data member of this type keeps standard layout. -/
def isStandardLayoutMember (t : Ty) : Bool :=
  !t.isReference && (p.completeRecord? t.element).all (·.facts.standardLayout)

/-- Whether the bases keep standard layout: no base class occurs twice, only one class of the
hierarchy, the record included, has data members, and the first member has the type of none. -/
def hasStandardBases (r : Record) : Bool :=
  let bases := p.allBaseSubobjects r
  let withMembers := bases.countP fun t =>
    (p.completeRecord? t).any fun base => !base.members.isEmpty
  bases.eraseDups.length == bases.length &&
    withMembers + (if r.members.isEmpty then 0 else 1) ≤ 1 &&
    r.members.head?.all fun m => !bases.contains m.type.element.unqualified

/-- Whether a record without table pointer has standard layout: bases and members of standard
layout, one access level, data members in one class of the hierarchy, no base class twice, and
a first member that shares its type with no base. -/
def isStandardLayout (r : Record) : Bool :=
  (p.baseRecords r).all (·.facts.standardLayout) &&
    (r.members.all fun m => r.members.head?.any (·.access == m.access)) &&
    (r.members.all fun m => p.isStandardLayoutMember m.type) &&
    p.hasStandardBases r

/-- The facts that follow from a declaration with all its special members. Whether equal
values have equal bytes is left open until the record is laid out. -/
def facts (r : Record) (polymorphic hasVirtualBases : Bool) : Facts :=
  let unresolved := p.unresolvedPure r
  let dynamic := polymorphic || hasVirtualBases
  let aggregate := r.isAggregate polymorphic
  { polymorphic
    abstract := !unresolved.isEmpty
    hasVirtualBases
    virtualDestructor := r.destructor.any (·.isVirtual)
    empty := !r.isUnion && r.members.isEmpty && !dynamic && (p.baseRecords r).all (·.facts.empty)
    standardLayout := !dynamic && p.isStandardLayout r
    triviallyCopyable := r.isTriviallyCopyable
    trivialDefaultConstructor := r.isTriviallyDefaultConstructible
    trivial := r.isTriviallyCopyable && r.isTriviallyDefaultConstructible
    aggregate
    literal := r.hasTrivialDestructor && (aggregate || r.hasConstexprConstructor) &&
      p.membersLiteral r
    unresolvedPure := unresolved }

/-- Whether a data member's bytes follow from its value. -/
def isUniqueMember (t : Ty) : Bool := !t.isReference && p.hasUniqueRepresentation t

/-- Whether a record of the given size has no padding: every subobject's bytes follow from its
value and their sizes add up. In a union each member fills it. -/
def isUniquelyRepresented (r : Record) (triviallyCopyable : Bool) (size : Nat) : Bool :=
  if !triviallyCopyable then false
  else if r.isUnion then
    r.members.all fun m => p.isUniqueMember m.type && p.sizeOf m.type == some size
  else
    let bases := r.bases.map fun base => p.completeRecord? base.type
    let basesOk := bases.all fun base =>
      base.any fun b => b.facts.empty || b.facts.uniqueRepresentation
    let baseSizes := bases.map fun base =>
      match base with
      | some b => if b.facts.empty then 0 else b.layout.size
      | none => 0
    let memberSizes := r.members.map fun m => (p.sizeOf m.type).getD 0
    basesOk && (r.members.all fun m => p.isUniqueMember m.type) &&
      (baseSizes ++ memberSizes).foldl (· + ·) 0 == size

end Program

end TypeTraits
