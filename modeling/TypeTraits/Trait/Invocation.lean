import TypeTraits.Trait.Conversion

/-!
# Invocation

What `INVOKE(f, t1, ..., tN)` means. The decayed callable and the decayed first argument choose
the rule; from then on a failure makes the invocation ill-formed and no other rule is tried.

* A pointer to member function calls `(t1.*f)(t2, ..., tN)` when `t1` is an object of the class
  or of a class derived from it, `(t1.get().*f)(...)` when it is a reference wrapper, and
  `((*t1).*f)(...)` otherwise.
* A pointer to data member accesses `t1.*f` alike, and takes no further argument.
* Anything else is called: `f(t1, ..., tN)`.
-/

namespace TypeTraits

/-- The rule by which a callable is invoked. -/
inductive InvokeRule where
  | memberFunctionOnObject
  | memberFunctionOnWrapper
  | memberFunctionOnPointer
  | memberDataOnObject
  | memberDataOnWrapper
  | memberDataOnPointer
  | call
  deriving DecidableEq, Repr

/-- A well-formed invocation. -/
structure Invocation where
  rule : InvokeRule
  /-- The declared type of the whole expression. -/
  result : Ty
  effects : Effects
  deriving DecidableEq, Repr

/-- How the first argument leads to the object of a member access. -/
inductive Receiver where
  | object
  | wrapper
  | pointer
  deriving DecidableEq, Repr

/-- The rule for a receiver and a member. -/
def Receiver.rule (r : Receiver) (isFunction : Bool) : InvokeRule :=
  match r, isFunction with
  | object, true => .memberFunctionOnObject
  | wrapper, true => .memberFunctionOnWrapper
  | pointer, true => .memberFunctionOnPointer
  | object, false => .memberDataOnObject
  | wrapper, false => .memberDataOnWrapper
  | pointer, false => .memberDataOnPointer

namespace Solver

variable (s : Solver)

/-- The object that the first argument designates for a member of `cls`. -/
def receiver (cls arg : Ty) : Check (Receiver × Expr × Effects) := do
  let object ← Check.ofFormed (Expr.declval arg)
  let decayed := s.program.decay arg
  if decayed.unqualified = cls ∨ s.program.isBaseOf cls decayed then
    return (.object, object, .none)
  match (s.program.recordOf? decayed).bind (·.wraps) with
  | some wrapped => return (.wrapper, .lvalue wrapped, .none)
  | none =>
    let (target, effects) ← s.program.indirection object
    return (.pointer, target, effects)

/-- Rejects a member whose invocation cannot have `rest` as further arguments. -/
def checkMember (member : Ty) (rest : List Ty) : Formed Unit :=
  if member.isFunction then
    if !s.knowsRefQualifiers && member.signature?.any (·.quals.ref != .none) then
      .error .notCallable
    else .ok ()
  else if rest.isEmpty then .ok ()
  else .error .wrongArity

/-- Invokes a pointer to a member. -/
def invokeMember (pointer cls member : Ty) (args : List Ty) : Check Invocation :=
  match args with
  | [] => throw .wrongArity
  | first :: rest => do
    Check.ofFormed (s.checkMember member rest)
    let (receiver, object, reached) ← s.receiver cls first
    let (result, effects) ←
      if member.isFunction then do
        let exprs ← Check.ofFormed (Expr.declvals rest)
        s.program.memberCall object pointer exprs
      else do
        let accessed ← Check.ofFormed (s.program.memberAccess object pointer)
        pure (accessed, Effects.none)
    return ⟨receiver.rule member.isFunction, result.declaredType, reached.and effects⟩

/-- Calls anything else. -/
def invokeCall (callable : Ty) (args : List Ty) : Check Invocation := do
  let f ← Check.ofFormed (Expr.declval callable)
  let exprs ← Check.ofFormed (Expr.declvals args)
  let (result, effects) ← s.program.call f exprs
  return ⟨.call, result.declaredType, effects⟩

/-- `INVOKE(declval<F>(), declval<Args>()...)`. -/
def invoke (callable : Ty) (args : List Ty) : Formed Invocation :=
  let decayed := s.program.decay callable
  Check.result <|
    match decayed.memberPointerParts? with
    | some (cls, member) => s.invokeMember decayed.unqualified cls member args
    | none => s.invokeCall callable args

def isInvocable (callable : Ty) (args : List Ty) : Bool := (s.invoke callable args).isOk

/-- The type of an invocation. -/
def invokeResult (callable : Ty) (args : List Ty) : Option Ty :=
  (s.invoke callable args).toOption.map (·.result)

/-- The type of the invocation that a function type spells: its result type is the callable and
its parameters are the arguments. -/
def resultOf (t : Ty) : Option Ty :=
  t.signature?.bind fun signature => s.invokeResult signature.result signature.params

/-- Invocable with a result that converts to `result`; `void` accepts every result. -/
def isInvocableR (result callable : Ty) (args : List Ty) : Bool :=
  (s.invoke callable args).toOption.any fun i =>
    result.isVoid || s.isConvertible i.result result

/-- Whether an invocation counts as non-throwing; without `noexcept` queries it has to be
trivial. -/
def isNothrow (i : Invocation) : Bool :=
  if s.knowsNoexcept then i.effects.nothrow else i.effects.trivial

def isNothrowInvocable (callable : Ty) (args : List Ty) : Bool :=
  (s.invoke callable args).toOption.any s.isNothrow

def isNothrowInvocableR (result callable : Ty) (args : List Ty) : Bool :=
  (s.invoke callable args).toOption.any fun i =>
    s.isNothrow i && (result.isVoid || s.isNothrowConvertible i.result result)

end Solver

end TypeTraits
