import TypeTraits.Expr.Operators
import TypeTraits.Record.Draft

/-!
# Special members

How a defaulted constructor, assignment operator or destructor comes out: deleted when some
subobject makes it so, and otherwise as trivial and as non-throwing as the operations it
performs on the subobjects.
-/

namespace TypeTraits

/-- The special members other than the destructor. -/
inductive Special where
  | defaultConstructor
  | copyConstructor
  | moveConstructor
  | copyAssignment
  | moveAssignment
  deriving DecidableEq, Repr

namespace Special

/-- Copy and move operations. -/
def isCopyOrMove (s : Special) : Bool := s != .defaultConstructor

/-- Which special member of the class `cls` a constructor is. -/
def ofConstructor? (cls : Ty) (f : FunctionDecl) : Option Special :=
  match f.params, f.variadic with
  | [], false => some .defaultConstructor
  | [param], false =>
    match param.referent? with
    | some (t, isRvalue) =>
      if t.unqualified = cls then some (if isRvalue then .moveConstructor else .copyConstructor)
      else none
    | none => none
  | _, _ => none

/-- Which special member of the class `cls` an assignment operator is; one that takes the class
by value copies. -/
def ofAssignment? (cls : Ty) (f : FunctionDecl) : Option Special :=
  match f.params, f.variadic with
  | [param], false =>
    match param.referent? with
    | some (t, isRvalue) =>
      if t.unqualified = cls then some (if isRvalue then .moveAssignment else .copyAssignment)
      else none
    | none => if param.unqualified = cls then some .copyAssignment else none
  | _, _ => none

end Special

/-- Whether the parameter of a copy operation accepts `const` objects. -/
def FunctionDecl.takesConst (f : FunctionDecl) : Bool :=
  match f.params with
  | [] => true
  | param :: _ =>
    match param.referent? with
    | some (t, _) => t.cv.isConst
    | none => true

/-- A base or data member as a special member sees it. -/
structure MemberObject where
  /-- The type; for an array its element type. -/
  type : Ty
  isBase : Bool
  /-- For a reference, whether it is an rvalue reference. -/
  reference : Option Bool := none
  hasInitializer : Bool := false
  deriving DecidableEq, Repr, Inhabited

/-- How a special member that the compiler defines comes out. -/
structure Outcome where
  deleted : Bool := false
  trivial : Bool
  noexcept : Bool := true
  deriving DecidableEq, Repr, Inhabited

namespace Outcome

/-- The outcome of a member that some subobject makes impossible. -/
def impossible : Outcome := { deleted := true, trivial := false }

/-- The outcome after one more operation with the given effects. -/
def absorb (o : Outcome) (e : Effects) : Outcome :=
  { o with trivial := o.trivial && e.trivial, noexcept := o.noexcept && e.nothrow }

/-- The declared function with this outcome. -/
def apply (o : Outcome) (f : FunctionDecl) : FunctionDecl :=
  { f with deleted := o.deleted, trivial := o.trivial && !o.deleted, noexcept := o.noexcept }

/-- The implicitly declared function with this outcome. -/
def implicitly (o : Outcome) (params : List Ty) (result : Ty := .void) : FunctionDecl :=
  o.apply { params, result, origin := .implicit }

/-- Goes through subobjects; a step that gives nothing makes the member impossible. -/
def through (step : Outcome → MemberObject → Check (Option Outcome)) :
    Outcome → List MemberObject → Check Outcome
  | o, [] => return o
  | o, s :: rest => do
    match ← step o s with
    | none => return impossible
    | some o => through step o rest

end Outcome

/-- What the special members of one record are defined from. -/
structure Synthesis where
  program : Program
  objects : List MemberObject
  isUnion : Bool
  /-- Virtual functions or virtual bases. -/
  dynamic : Bool

namespace Synthesis

variable (s : Synthesis)

/-- Whether an object of the type can be destroyed. -/
def isDestructible (t : Ty) : Bool := (s.program.destroy t).isOk

/-- Whether a class has a default constructor of its own, which initializes `const` objects. -/
def hasUserDefaultConstructor (t : Ty) : Bool :=
  (s.program.completeRecord? t).any fun r =>
    r.constructors.any fun f => f.takes 0 && f.isUserProvided

/-- The default constructor of a union. With an initialized member the others only cost
triviality. -/
def unionDefaultConstructor : Check Outcome := do
  let initialized := s.objects.any (·.hasInitializer)
  Outcome.through (fun o m => do
    if m.reference.isSome then return none
    let effects ← Check.attempt (s.program.directInit m.type [])
    if effects.any (·.trivial) then return some o
    if initialized then return some { o with trivial := false }
    return none) { trivial := !initialized } s.objects

/-- The default constructor at one subobject. -/
def defaultStep (o : Outcome) (m : MemberObject) : Check (Option Outcome) := do
  if m.hasInitializer then return some { o with trivial := false }
  if m.reference.isSome then return none
  if !m.isBase && m.type.cv.isConst && !s.hasUserDefaultConstructor m.type then return none
  match ← Check.attempt (s.program.directInit m.type []) with
  | none => return none
  | some effects =>
    return if s.isDestructible m.type then some (o.absorb effects) else none

/-- The default constructor. -/
def defaultConstructor : Check Outcome :=
  if s.isUnion then s.unionDefaultConstructor
  else Outcome.through s.defaultStep { trivial := !s.dynamic } s.objects

/-- A copy or move constructor at one subobject, which it initializes from `arg` of its type. -/
def constructStep (copies : Bool) (arg : Ty → Expr) (o : Outcome) (m : MemberObject) :
    Check (Option Outcome) := do
  match m.reference with
  | some isRvalue => return if copies && isRvalue then none else some o
  | none =>
    match ← Check.attempt (s.program.directInit m.type [arg m.type]) with
    | none => return none
    | some effects =>
      if s.isUnion then return if effects.trivial then some o else none
      return if s.isDestructible m.type then some (o.absorb effects) else none

/-- A copy or move constructor that initializes each subobject from `arg` of its type. -/
def constructFrom (copies : Bool) (arg : Ty → Expr) : Check Outcome :=
  Outcome.through (s.constructStep copies arg) { trivial := !s.dynamic } s.objects

/-- The argument of a copy operation that takes its argument as `const` or not. -/
def copyArgument (constParam : Bool) (t : Ty) : Expr :=
  .lvalue (if constParam then t.qualify .const else t)

def copyConstructor (constParam : Bool) : Check Outcome :=
  s.constructFrom true (copyArgument constParam)

def moveConstructor : Check Outcome := s.constructFrom false Expr.xvalue

/-- A copy or move assignment at one subobject, which it assigns `arg` of its type to. -/
def assignStep (arg : Ty → Expr) (o : Outcome) (m : MemberObject) : Check (Option Outcome) := do
  if m.reference.isSome then return none
  if !m.isBase && !m.type.isRecord && m.type.cv.isConst then return none
  match ← Check.attempt (s.program.assign (.lvalue m.type) (arg m.type)) with
  | none => return none
  | some effects =>
    if s.isUnion then return if effects.trivial then some o else none
    return some (o.absorb effects)

/-- A copy or move assignment that assigns each subobject from `arg` of its type. -/
def assignFrom (arg : Ty → Expr) : Check Outcome :=
  Outcome.through (s.assignStep arg) { trivial := !s.dynamic } s.objects

def copyAssignment (constParam : Bool) : Check Outcome := s.assignFrom (copyArgument constParam)

def moveAssignment : Check Outcome := s.assignFrom Expr.xvalue

/-- The destructor at one subobject. -/
def destroyStep (o : Outcome) (m : MemberObject) : Check (Option Outcome) := do
  if m.reference.isSome then return some o
  match s.program.destroy m.type with
  | .error _ => return none
  | .ok effects =>
    return if s.isUnion && !effects.trivial then none else some (o.absorb effects)

/-- The destructor. -/
def destructor : Check Outcome := Outcome.through s.destroyStep { trivial := true } s.objects

/-- Whether a copy operation accepts a `const` lvalue of the class `cls`. -/
def acceptsConst (cls : Ty) (byValue : Bool) (f : FunctionDecl) : Bool :=
  match f.params, f.variadic with
  | [param], false =>
    match param.referent? with
    | some (t, isRvalue) => !isRvalue && t.unqualified == cls && t.cv.isConst
    | none => byValue && param.unqualified == cls
  | _, _ => false

/-- Whether the implicit copy constructor takes `const C&`: that of each class subobject must
accept a `const` lvalue. -/
def copiesConst : Bool :=
  s.objects.all fun m => m.reference.isSome ||
    match s.program.completeRecord? m.type with
    | none => true
    | some r => r.constructors.any (acceptsConst m.type.unqualified false)

/-- Whether the implicit copy assignment takes `const C&`. -/
def assignsConst : Bool :=
  s.objects.all fun m => m.reference.isSome ||
    match s.program.completeRecord? m.type with
    | none => true
    | some r => r.assignments.any (acceptsConst m.type.unqualified true)

/-- Whether the implicit default constructor is `constexpr`. -/
def constexprDefault : Bool :=
  if s.isUnion then s.objects.isEmpty || s.objects.any (·.hasInitializer)
  else
    s.objects.all fun m => m.hasInitializer ||
      (s.program.completeRecord? m.type).any fun r =>
        r.constructors.any fun f => f.takes 0 && f.constexpr && !f.deleted

end Synthesis

end TypeTraits
