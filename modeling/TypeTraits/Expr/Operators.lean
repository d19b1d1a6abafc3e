import TypeTraits.Expr.Initialization

/-!
# Operators

Assignment, destruction, indirection, calls, access through member pointers, `dynamic_cast` to
`void` pointers and `swap`.
-/

namespace TypeTraits

namespace Signature

/-- A function of the library with this signature. -/
def toFunction (s : Signature) : FunctionDecl where
  params := s.params
  result := s.result
  variadic := s.quals.variadic
  noexcept := s.quals.noexcept

end Signature

namespace Candidate

/-- A candidate that no record declares. -/
def library (function : FunctionDecl) (isTemplate : Bool) : Candidate :=
  { id := ⟨⟨0⟩, .library, 0⟩, function, isTemplate }

end Candidate

namespace Program

variable (p : Program)

/-- Effects of `a = b`. -/
def assign (a b : Expr) : Check Effects := do
  if a.type.isVoid || b.type.isVoid then throw .voidExpression
  if a.type.isRecord then
    let cls := a.type.unqualified
    match p.completeRecord? cls with
    | none => throw .incompleteType
    | some r =>
      let candidates := r.candidates .assignment .copy (some cls)
      let selection ← p.resolve p.checker.convert candidates (some a) [b] true
      return selection.effects
  if !a.isLvalue || a.type.cv.isConst || a.type.isArray || a.type.isFunction then
    throw .notModifiable
  return (← p.convert b a.type.unqualified .copy).effects

/-- Effects of destroying an object of some type: nothing for references and scalars, and each
element for arrays. -/
def destroy : Ty → Formed Effects
  | .lvalueRef _ | .rvalueRef _ => .ok .none
  | .function .. | .functionNamed _ => .error .notAnObject
  | .array t b => if b.isSome then destroy t else .error .notAnObject
  | t =>
    if t.isVoid then .error .notAnObject
    else if !t.isRecord then .ok .none
    else
      match p.completeRecord? t with
      | none => .error .incompleteType
      | some r =>
        match r.destructor with
        | none => .error .deleted
        | some d =>
          if d.deleted then .error .deleted
          else if d.access != .pub then .error .inaccessible
          else .ok ⟨d.noexcept, d.trivial⟩

/-- What `*e` designates: the pointee of a pointer, or what an `operator*` returns. -/
def indirection (e : Expr) : Check (Expr × Effects) :=
  match e.type.pointee? with
  | some t => if t.isVoid then throw .voidExpression else return (.lvalue t, .none)
  | none =>
    match p.class? e.type with
    | none => throw .notCallable
    | some r => do
      let candidates := r.candidates .indirection .copy (some e.type.unqualified)
      let selection ← p.resolve p.checker.convert candidates (some e) [] true
      return (Expr.callResult selection.candidate.function.result, selection.effects)

/-- A call of a function with a known signature. -/
def callSignature (s : Signature) (args : List Expr) : Check (Expr × Effects) := do
  let selection ←
    p.resolve p.checker.convert [Candidate.library s.toFunction false] none args true
  return (Expr.callResult s.result, selection.effects)

/-- The function type that calling an expression of this type calls, if it is one or points to
one. -/
def calledFunction? (t : Ty) : Option Ty :=
  if t.isFunction then some t else t.pointee?.filter (·.isFunction)

/-- `f(args)` for a function, a pointer to one, or an object with call operators. -/
def call (callee : Expr) (args : List Expr) : Check (Expr × Effects) :=
  match calledFunction? callee.type with
  | some f =>
    match f.signature? with
    | some s => if s.isAbominable then throw .notCallable else p.callSignature s args
    | none => throw .notCallable
  | none =>
    match p.class? callee.type with
    | none => throw .notCallable
    | some r => do
      let candidates := r.candidates .call .copy (some callee.type.unqualified)
      if candidates.isEmpty then throw .notCallable
      let selection ← p.resolve p.checker.convert candidates (some callee) args true
      return (Expr.callResult selection.candidate.function.result, selection.effects)

/-- Whether an object has the class of a member pointer or converts to it. -/
def isReceiver (object : Expr) (cls : Ty) : Bool :=
  let objectClass := object.type.unqualified
  objectClass == cls || (p.baseConversion objectClass cls).isReachable

/-- `(object.*member)(args)` for a pointer to member function. -/
def memberCall (object : Expr) (member : Ty) (args : List Expr) : Check (Expr × Effects) :=
  match member.memberPointerParts? with
  | none => throw .notCallable
  | some (cls, target) =>
    match target.signature? with
    | none => throw .notCallable
    | some s => do
      if !p.isReceiver object cls then throw .invalidReceiver
      if !s.quals.cv.covers object.type.cv then throw .dropsQualifiers
      match s.quals.ref with
      | .none => pure ()
      | .lvalue => if object.isRvalue && s.quals.cv != .const then throw .invalidReceiver
      | .rvalue => if object.isLvalue then throw .invalidReceiver
      p.callSignature s args

/-- `object.*member` for a pointer to data member: as qualified as the object, and an lvalue if
the object is one. -/
def memberAccess (object : Expr) (member : Ty) : Formed Expr :=
  match member.memberPointerParts? with
  | none => .error .notAnObject
  | some (cls, target) =>
    if target.isFunction then .error .notAnObject
    else if !p.isReceiver object cls then .error .invalidReceiver
    else
      let t := target.qualify object.type.cv
      .ok (if object.isLvalue then .lvalue t else .xvalue t)

/-- `dynamic_cast<const volatile void*>` of a pointer to `t`, for complete polymorphic
classes. -/
def dynamicCastToVoid (t : Ty) : Formed Effects :=
  match p.class? t with
  | none => .error .incompleteType
  | some r => if r.facts.polymorphic then .ok .none else .error .noConversion

/-- The classes whose `swap` overloads argument-dependent lookup finds for one argument. -/
def swapClasses (t : Ty) : List (Ty × Record) :=
  let cls := t.unqualified
  match p.completeRecord? cls with
  | none => []
  | some r =>
    (cls, r) :: (p.allBases cls).filterMap fun base => (p.completeRecord? base).map (base, ·)

/-- The records searched for `swap` overloads of two arguments, each class once. -/
def swapOwners (a b : Expr) : List Record :=
  ((p.swapClasses a.type ++ p.swapClasses b.type).foldl (fun (seen, out) (t, r) =>
    if t ∈ seen then (seen, out) else (t :: seen, r :: out))
    (([], []) : List Ty × List Record)).2.reverse

/-- The `std::swap` that swaps two lvalues of type `t`, when swapping has these effects. -/
def librarySwap (t : Ty) (effects : Effects) : FunctionDecl :=
  let reference := t.lvalueRefTo
  { params := [reference, reference], noexcept := effects.nothrow }

/-- Selects a `swap` for two arguments; `library` is the `std::swap` that applies, if any. -/
def swapWith (library : Check (Option FunctionDecl)) (a b : Expr) : Check Effects := do
  let declared := (p.swapOwners a b).flatMap fun r => r.candidates .swap .copy none
  let library ← library
  let candidates := declared ++ (library.map (Candidate.library · true)).toList
  if candidates.isEmpty then throw .noViableFunction
  let selection ← p.resolve p.checker.convert candidates none [a, b] true
  return selection.effects

/-- The `std::swap` for two lvalues of one type: element by element for arrays, and otherwise by
a move construction, a destruction and a move assignment. -/
def stdSwap (t : Ty) : Check (Option FunctionDecl) :=
  let moves : Check Effects := do
    let constructed ← p.directInit t [.xvalue t]
    let destroyed ← Check.ofFormed (p.destroy t)
    let assigned ← p.assign (.lvalue t) (.xvalue t)
    return (constructed.and destroyed).and assigned
  let swapped : Check (Option Effects) :=
    match t with
    | .array u (some _) => Check.attempt (p.swapWith (stdSwap u) (.lvalue u) (.lvalue u))
    | .array _ none | .function .. | .functionNamed _ => return none
    | _ => Check.attempt moves
  return (← swapped).map (librarySwap t)

/-- Effects of `using std::swap; swap(a, b);`. -/
def swap (a b : Expr) : Check Effects :=
  p.swapWith (if a.isLvalue && b.isLvalue && a.type == b.type then p.stdSwap a.type else return none)
    a b

end Program

end TypeTraits
