import TypeTraits.Expr.Standard

/-!
# Overload resolution

A candidate is viable when every argument converts to its parameter. The best viable function
is at least as good as every other one for each argument and better for one, or wins a
tie-breaker: a function beats a template, and of two conversion functions the one whose result
converts better wins. Selecting a function that is deleted or not public is ill-formed.
-/

namespace TypeTraits

/-- A function that takes part in overload resolution. -/
structure Candidate where
  id : FunctionRef
  function : FunctionDecl
  /-- The class whose object the function is called on. -/
  object : Option Ty := none
  isTemplate : Bool := false
  /-- Conversion of the function's result to the target of an initialization. -/
  result : Option Conversion := none
  deriving DecidableEq, Repr, Inhabited

/-- The function overload resolution selected, with the effects of the call, the conversions of
its arguments and that of its result. -/
structure Selection where
  candidate : Candidate
  effects : Effects
  deriving DecidableEq, Repr, Inhabited

namespace Record

/-- The functions of one kind that a record declares. -/
def functions (r : Record) : FunctionSet → List FunctionDecl
  | .constructor => r.constructors
  | .assignment => r.assignments
  | .conversion => r.conversions
  | .call => r.callOperators
  | .swap => r.swaps
  | .indirection => r.indirection.toList
  | .destructor => r.destructor.toList
  | .library => []

/-- The candidates among the functions of one kind: hidden functions never take part, and
explicit ones only in direct initialization. -/
def candidates (r : Record) (set : FunctionSet) (mode : InitMode) (object : Option Ty) :
    List Candidate :=
  (r.functions set).zipIdx.filterMap fun (function, index) =>
    if function.hidden || (mode == .copy && function.explicit) then none
    else some { id := ⟨r.id, set, index⟩, function, object }

end Record

/-- How the implicit conversion of an argument to a parameter is formed; the flag allows a
user-defined conversion. -/
abbrev ConvertArgument := Expr → Ty → InitMode → Bool → Check Conversion

namespace Candidate

/-- Whether overload resolution prefers a viable candidate, given with its conversions, to
another one. Both have one place per argument, after the place of the object. -/
def isBetter (a b : Candidate × List (Option Conversion)) : Bool :=
  let orders := List.zipWith (fun x y =>
    match x, y with
    | some x, some y => x.compare y
    | _, _ => .eq) a.2 b.2
  if orders.contains .gt then false
  else if orders.contains .lt then true
  else if !a.1.isTemplate && b.1.isTemplate then true
  else
    match a.1.result, b.1.result with
    | some x, some y => x.compare y == .lt
    | _, _ => false

/-- The viable candidate that is better than every other one. -/
def best? (viable : List (Candidate × List (Option Conversion))) :
    Option (Candidate × List (Option Conversion)) :=
  (viable.zipIdx.find? fun (a, i) =>
    viable.zipIdx.all fun (b, j) => i == j || isBetter a b).map (·.1)

/-- The selection of a candidate with its conversions, unless it may not be called. -/
def select (c : Candidate) (conversions : List (Option Conversion)) : Formed Selection :=
  if c.function.deleted then .error .deleted
  else if c.function.access != .pub then .error .inaccessible
  else
    let call : Effects := ⟨c.function.noexcept, c.function.trivial⟩
    let arguments := conversions.filterMap fun c => c
    let effects := arguments.foldl (fun e conversion => e.and conversion.effects) call
    let effects :=
      match c.result with
      | some r => effects.and r.effects
      | none => effects
    .ok { candidate := c, effects }

end Candidate

namespace Program

variable (p : Program)

/-- Binding of an object to the object parameter of a member function of `cls`. Without a
ref-qualifier an rvalue may be bound too. -/
def objectConversion (object : Expr) (cls : Ty) (f : FunctionDecl) : Option Conversion :=
  let (objectType, objectCv) := object.type.splitCv
  let refAccepts : Bool :=
    match f.ref with
    | .none => true
    | .lvalue => !(object.isRvalue && f.cv != .const)
    | .rvalue => !object.isLvalue
  if !f.cv.covers objectCv then none
  else
    match (if objectType = cls then some 0 else (p.baseConversion objectType cls).distance?) with
    | none => none
    | some distance =>
      if refAccepts then some (.objectBinding cls f.cv distance f.ref object.isRvalue) else none

/-- The conversions of arguments to parameters, in order. An argument without a parameter is
matched by the ellipsis and may be anything but `void`; the first failure ends the attempt. -/
def argumentConversions (convert : ConvertArgument) (allowUser : Bool) :
    List Expr → List Ty → Check (Option (List (Option Conversion)))
  | [], _ => return some []
  | arg :: args, [] => do
    if arg.type.isVoid then return none
    let rest ← argumentConversions convert allowUser args []
    return rest.map (some .ellipsis :: ·)
  | arg :: args, param :: params => do
    match ← Check.attempt (convert arg param .copy allowUser) with
    | none => return none
    | some c =>
      let rest ← argumentConversions convert allowUser args params
      return rest.map (some c :: ·)

/-- The conversions that make a candidate viable, the object first. The source of a
user-defined conversion is the object of a conversion function and the argument of a
converting constructor, and has the place of an argument in both. -/
def viableConversions (convert : ConvertArgument) (object : Option Expr) (args : List Expr)
    (allowUser : Bool) (c : Candidate) : Check (Option (List (Option Conversion))) := do
  let bound := do p.objectConversion (← object) (← c.object) c.function
  if c.id.set = .conversion then
    return bound.map fun conversion => [none, some conversion]
  let arity := c.function.params.length
  if args.length < arity || (args.length > arity && !c.function.variadic) then return none
  if c.object.isSome && bound.isNone then return none
  let rest ← argumentConversions convert allowUser args c.function.params
  return rest.map (bound :: ·)

/-- Selects the best viable function for a call with an object, for member functions, and
arguments. -/
def resolve (convert : ConvertArgument) (candidates : List Candidate) (object : Option Expr)
    (args : List Expr) (allowUser : Bool) : Check Selection := do
  let viable ← candidates.filterMapM fun c => do
    let conversions ← p.viableConversions convert object args allowUser c
    return conversions.map (c, ·)
  if viable.isEmpty then throw .noViableFunction
  match Candidate.best? viable with
  | none => throw .ambiguous
  | some (c, conversions) => Check.ofFormed (c.select conversions)

end Program

end TypeTraits
