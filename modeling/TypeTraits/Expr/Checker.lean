import TypeTraits.Expr.Reference

/-!
# The expression checker

Converting, binding a reference and constructing an object need one another. Each runs as a
guarded step; a checker bundles the three at one depth, and the checker of the next depth is
built from it. At the depth the guard allows no further step, so nothing is lost there.
-/

namespace TypeTraits

/-- The three guarded checks at one depth. -/
structure Checker where
  /-- The conversion sequence that initializes an object or reference from an expression. -/
  convert : Expr → Ty → InitMode → Bool → Check Conversion
  /-- The sequence that binds a reference. -/
  bindReference : Expr → Ty → InitMode → Bool → Check Conversion
  /-- Direct initialization from arguments. -/
  construct : Ty → List Expr → Check Effects

namespace Checker

/-- The checker that allows no step. -/
def closed : Checker where
  convert _ _ _ _ := throw .recursionLimit
  bindReference _ _ _ _ := throw .recursionLimit
  construct _ _ := throw .recursionLimit

end Checker

namespace Program

variable (p : Program)

/-- Implicit conversion, with nested checks left to `deeper`. -/
def convertStep (deeper : Checker) (source : Expr) (target : Ty) (mode : InitMode)
    (allowUser : Bool) : Check Conversion :=
  if target.isReference then deeper.bindReference source target mode allowUser
  else if source.type.isVoid then throw .voidExpression
  else if target.isRecord then
    p.classConversion deeper.convert source target mode allowUser
  else if source.type.isRecord then
    if allowUser then p.conversionFromClass deeper.convert source target mode
    else throw .noConversion
  else Check.ofFormed (p.standardConversion source target mode)

/-- Construction of a class object: a prvalue of the class needs no constructor. -/
def constructClass (deeper : Checker) (target : Ty) (args : List Expr) : Check Effects := do
  let cls := target.unqualified
  match p.completeRecord? cls with
  | none => throw .incompleteType
  | some r =>
    if r.facts.abstract then throw .abstractClass
    if let [arg] := args then
      if arg.category = .prvalue ∧ arg.type.unqualified = cls then return .none
    let selection ←
      p.resolve deeper.convert (r.candidates .constructor .direct none) none args true
    return selection.effects

/-- Direct initialization, with nested checks left to `deeper`. Arrays are initialized from no
arguments, element by element. -/
def constructStep (deeper : Checker) (target : Ty) (args : List Expr) : Check Effects := do
  if target.isReference then
    match args with
    | [arg] => return (← deeper.bindReference arg target .direct true).effects
    | _ => throw .wrongArity
  else if target.isVoid || target.isFunction then throw .notAnObject
  else
    match target with
    | .array t (some _) => if args.isEmpty then deeper.construct t [] else throw .notAnObject
    | .array _ none => throw .notAnObject
    | _ =>
      if target.isRecord then p.constructClass deeper target args
      else
        match args with
        | [] => return .none
        | [arg] => return (← deeper.convert arg target .direct true).effects
        | _ => throw .wrongArity

/-- The checker whose nested checks are left to `deeper`. -/
def checkerStep (deeper : Checker) : Checker where
  convert source target mode allowUser :=
    .guarded (.of .convert target source) (p.convertStep deeper source target mode allowUser)
  bindReference source target mode allowUser :=
    match target.referent? with
    | none => throw .noConversion
    | some (referent, isRvalueRef) =>
      .guarded (.of .bindReference target source) <|
        if referent.isFunction then Check.ofFormed (p.bindFunction source referent)
        else p.bindObject deeper.convert source referent isRvalueRef mode allowUser
  construct target args :=
    .guarded (.of .construct target args.head?) (p.constructStep deeper target args)

/-- The checker that nests checks up to `depth` times. -/
def checkerOfDepth : Nat → Checker
  | 0 => p.checkerStep .closed
  | depth + 1 => p.checkerStep (checkerOfDepth depth)

/-- The checker for whole expressions. -/
def checker : Checker := p.checkerOfDepth Limits.initializationDepth

end Program

end TypeTraits
