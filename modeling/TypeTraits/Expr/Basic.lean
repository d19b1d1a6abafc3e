import TypeTraits.Ty.View
import TypeTraits.Recursion.Guard

/-!
# Expressions

An expression is known by its type and value category. Forming a larger expression from it
either fails for a reason or succeeds with effects: whether evaluation can throw and whether
it runs only trivial functions. Nested checks run under one recursion guard.
-/

namespace TypeTraits

/-- An expression; its type is never meant to be a reference. -/
structure Expr where
  type : Ty
  category : ValueCategory
  deriving DecidableEq, Repr, Inhabited

namespace Expr

def lvalue (t : Ty) : Expr := ⟨t, .lvalue⟩

def xvalue (t : Ty) : Expr := ⟨t, .xvalue⟩

def prvalue (t : Ty) : Expr := ⟨t, .prvalue⟩

def isLvalue (e : Expr) : Bool := e.category == .lvalue

def isRvalue (e : Expr) : Bool := e.category.isRvalue

def isGlvalue (e : Expr) : Bool := e.category.isGlvalue

end Expr

/-- What evaluating a well-formed expression may do. -/
structure Effects where
  /-- Evaluation cannot throw. -/
  nothrow : Bool
  /-- Every selected function is trivial. -/
  trivial : Bool
  deriving DecidableEq, Repr, Inhabited

namespace Effects

/-- The effects of builtin operations on scalars. -/
def none : Effects := ⟨true, true⟩

/-- The effects of two evaluations together. -/
def and (a b : Effects) : Effects := ⟨a.nothrow && b.nothrow, a.trivial && b.trivial⟩

end Effects

/-- Why an expression is ill-formed. -/
inductive Inapplicable where
  | noConversion
  | noViableFunction
  | ambiguous
  | deleted
  | inaccessible
  | incompleteType
  | abstractClass
  | voidExpression
  | notAnObject
  | notModifiable
  | nonConstLvalueReference
  | rvalueReferenceToLvalue
  | dropsQualifiers
  | ambiguousBase
  | notCallable
  | wrongArity
  | invalidReceiver
  | recursionLimit
  deriving DecidableEq, Repr

/-- How the target of an initialization is initialized. -/
inductive InitMode where
  /-- `T t = e;`, argument passing and `return`, for which explicit functions do not count. -/
  | copy
  /-- `T t(e);` and casts. -/
  | direct
  deriving DecidableEq, Repr, Inhabited

/-- The result of forming an expression. -/
abbrev Formed := Except Inapplicable

namespace Expr

/-- The expression `std::declval` gives: an lvalue for `T&` and for functions, an xvalue for
`T&&` and for objects, and a prvalue for `void`. -/
def declval : Ty → Formed Expr
  | .lvalueRef t => .ok (lvalue t)
  | .rvalueRef t => .ok (if t.isFunction then lvalue t else xvalue t)
  | .function r ps q =>
    if Signature.isAbominable ⟨r, ps, q⟩ then .error .notAnObject
    else .ok (lvalue (.function r ps q))
  | .functionNamed _ => .error .notAnObject
  | .unknown _ => .error .incompleteType
  | t => .ok (if t.isVoid then prvalue .void else xvalue t)

/-- A prvalue; only class and array prvalues keep their qualification. -/
def prvalueOf (t : Ty) : Expr :=
  prvalue (if t.isRecord || t.isArray then t else t.unqualified)

/-- What calling a function with this result type gives. -/
def callResult : Ty → Expr
  | .lvalueRef t => lvalue t
  | .rvalueRef t => if t.isFunction then lvalue t else xvalue t
  | t => prvalueOf t

/-- The type `decltype` gives for the parenthesized expression. -/
def declaredType (e : Expr) : Ty :=
  match e.category with
  | .lvalue => e.type.lvalueRefTo
  | .xvalue => e.type.rvalueRefTo
  | .prvalue => e.type

end Expr

/-- The checks that are guarded against running in circles. -/
inductive Operation where
  | convert
  | bindReference
  | construct
  deriving DecidableEq, Repr

/-- A guarded check: what is done to which target, from which expression. -/
structure CheckKey where
  operation : Operation
  target : Ty
  source : Ty
  category : ValueCategory
  deriving DecidableEq, Repr

namespace CheckKey

/-- The key of a check of `target` from an optional expression; without one, a `void` prvalue
stands in. -/
def of (operation : Operation) (target : Ty) (source : Option Expr) : CheckKey :=
  let e := source.getD (.prvalue .void)
  ⟨operation, target, e.type, e.category⟩

end CheckKey

/-- A check that may fail and that takes its steps under a guard. The guard is kept when the
check fails. -/
abbrev Check := ExceptT Inapplicable (StateM (Guard CheckKey))

namespace Check

variable {α : Type}

/-- Runs a check as one question of its own. -/
def result (c : Check α) : Formed α :=
  (c.run (.fresh .initialization)).1

/-- A check that is already decided. -/
def ofFormed (r : Formed α) : Check α := ExceptT.mk (pure r)

/-- Runs a check and goes on whether it succeeds or not. -/
def attempt (c : Check α) : Check (Option α) :=
  ExceptT.mk do
    match ← c.run with
    | .ok a => return .ok (some a)
    | .error _ => return .ok none

/-- Runs `body` as the guarded step `key`. -/
def guarded (key : CheckKey) (body : Check α) : Check α :=
  ExceptT.mk do
    match ← Guard.scope key body.run with
    | .ok r => return r
    | .error _ => return .error .recursionLimit

end Check

end TypeTraits
