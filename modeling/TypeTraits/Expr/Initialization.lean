import TypeTraits.Expr.Checker

/-!
# Initialization and casts

The forms in which an object or reference is initialized: `T t(args)`, `T t = e`, `T()`,
`::new T(args)`, `T(args)` and `static_cast<T>(e)`.
-/

namespace TypeTraits.Program

variable (p : Program)

/-- The conversion sequence from an expression to a type. -/
def convert (source : Expr) (target : Ty) (mode : InitMode) (allowUser : Bool := true) :
    Check Conversion :=
  p.checker.convert source target mode allowUser

/-- Effects of the initialization `T t(args);`. -/
def directInit (target : Ty) (args : List Expr) : Check Effects :=
  p.checker.construct target args

/-- Effects of the initialization `T t = e;`. -/
def copyInit (target : Ty) (source : Expr) : Check Effects := do
  return (← p.convert source target .copy).effects

/-- `T()`: zero for scalars, the default constructor for classes. -/
def valueInit (target : Ty) : Check Effects :=
  if target.isReference then throw .notAnObject
  else if target.isVoid then return .none
  else p.directInit target []

/-- `::new T(args)`, where allocation always succeeds. -/
def newExpression (target : Ty) (args : List Expr) : Check Effects :=
  if target.isReference || target.isVoid || target.isFunction then throw .notAnObject
  else p.directInit target args

/-- Whether a base-class glvalue may be cast down to a derived class. -/
def isDowncast (base derived : Ty) : Bool :=
  base != derived && p.isBaseOf base derived && (p.baseConversion derived base).isReachable &&
    !p.isVirtualBaseOf base derived

/-- `static_cast<T&>(e)` and `static_cast<T&&>(e)`: besides ordinary binding, a downcast of a
glvalue, and a cast of a glvalue to an rvalue reference of its own or a base type. -/
def staticCastReference (target : Ty) (source : Expr) : Check Effects :=
  match target.referent? with
  | none => throw .noConversion
  | some (referent, isRvalueRef) => do
    let (t, targetCv) := referent.splitCv
    let (s, sourceCv) := source.type.splitCv
    let covered := targetCv.covers sourceCv
    let fromGlvalue := isRvalueRef && source.isGlvalue
    if covered && (source.isLvalue || fromGlvalue) && p.isDowncast s t then return .none
    if fromGlvalue && covered && (t == s || (p.baseConversion s t).isReachable) then return .none
    return (← p.checker.bindReference source target .direct true).effects

/-- Whether `static_cast` may undo a standard conversion: a number or enumeration to an
enumeration, `void*` to an object pointer, a base pointer to a derived one, and a member of a
derived class to a member of a base. -/
def undoesConversion (source target : Ty) : Bool :=
  let source := source.unqualified
  let target := target.unqualified
  if (p.enumOf? target).isSome then (p.enumOf? source).isSome || source.builtin?.isSome
  else
    match source.pointee?, target.pointee? with
    | some a, some b =>
      let (s, sourceCv) := a.splitCv
      let (t, targetCv) := b.splitCv
      targetCv.covers sourceCv && (if s.isVoid then !t.isFunction else p.isDowncast s t)
    | _, _ =>
      match source.memberPointerParts?, target.memberPointerParts? with
      | some (c, a), some (d, b) => a == b && c != d && (p.baseConversion c d).isReachable
      | _, _ => false

/-- `static_cast<T>(e)`. -/
def staticCast (target : Ty) (source : Expr) : Check Effects :=
  if target.isReference then p.staticCastReference target source
  else if target.isVoid then return .none
  else do
    if let some effects ← Check.attempt (p.directInit target [source]) then return effects
    if p.undoesConversion source.type target then return .none
    throw .noConversion

/-- `T(args)`; with one argument it is a cast. -/
def functionalCast (target : Ty) (args : List Expr) : Check Effects :=
  match args with
  | [] => p.valueInit target
  | [arg] => p.staticCast target arg
  | args => p.directInit target args

end TypeTraits.Program
