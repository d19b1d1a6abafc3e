import TypeTraits.Expr.Initialization

/-!
# The conditional operator

The type and category of `b ? e1 : e2`. Operands of one type and category stay what they are.
When a class takes part, each operand is tried as a conversion to the other and exactly one
direction may work. What remains is a value: of the common type, of the type the arithmetic
conversions give, or of the composite pointer type.
-/

namespace TypeTraits

namespace Builtin

/-- The unsigned type of the same rank, for signed types that have been promoted. -/
def unsignedCounterpart : Builtin → Builtin
  | int => unsignedInt
  | long => unsignedLong
  | longLong => unsignedLongLong
  | int128 => unsignedInt128
  | k => k

/-- The order of the floating-point types; other types come before them. -/
def floatingRank : Builtin → Nat
  | float => 1
  | double => 2
  | longDouble => 3
  | _ => 0

/-- The common type of two promoted arithmetic types. -/
def common (target : Target) (a b : Builtin) : Builtin :=
  if a.isFloating || b.isFloating then
    if a.floatingRank ≥ b.floatingRank then a else b
  else if a = b then a
  else if a.isSigned target = b.isSigned target then
    if a.rank target ≥ b.rank target then a else b
  else
    let (signed, unsigned) := if a.isSigned target then (a, b) else (b, a)
    if unsigned.rank target ≥ signed.rank target then unsigned
    else if unsigned.fitsIn target signed then signed
    else signed.unsignedCounterpart

end Builtin

namespace Ty

/-- The type that two types differing in qualification only combine to: the qualifiers of both
at every level of a pointer, and `const` at every level above one that changed. The flag tells
whether the result differs from one of the two. -/
def combineCv (a b : Ty) : Option (Ty × Bool) :=
  let (s, aCv) := a.splitCv
  let (t, bCv) := b.splitCv
  let inner : Option (Ty × Bool) :=
    if s = t then some (s, false)
    else
      match a with
      | .pointer x | .qualified (.pointer x) _ | .qualified (.qualified (.pointer x) _) _ =>
        match t.pointee? with
        | some y => (x.combineCv y).map fun (u, changed) => (.pointer u, changed)
        | none => none
      | .memberPointer c x | .qualified (.memberPointer c x) _
      | .qualified (.qualified (.memberPointer c x) _) _ =>
        match t.memberPointerParts? with
        | some (d, y) =>
          if c = d then (x.combineCv y).map fun (u, changed) => (.memberPointer c u, changed)
          else none
        | none => none
      | _ => none
  inner.map fun (u, changed) =>
    let cv := aCv ∪ bCv ∪ (if changed then Cv.const else ∅)
    (u.qualify cv, changed || cv != aCv || cv != bCv)

/-- Of a `noexcept` function type and the same type without `noexcept`, the latter. -/
def commonFunction? (a b : Ty) : Option Ty :=
  match a.signature?, b.signature? with
  | some x, some y =>
    let plain (s : Signature) : Signature := { s with quals := { s.quals with noexcept := false } }
    if plain x = plain y then some (if x.quals.noexcept then b else a) else none
  | _, _ => none

/-- The type of an operand whose value is taken; a class keeps its qualification. -/
def asOperand (t : Ty) : Ty :=
  if t.isArray || t.isFunction then t.asValue
  else if t.isRecord then t
  else t.unqualified

end Ty

namespace Program

variable (p : Program)

/-- Arithmetic types and unscoped enumerations. -/
def isArithmeticOperand (t : Ty) : Bool :=
  t.builtin?.isSome || (p.enumOf? t).any (!·.isScoped)

/-- The type that the arithmetic conversions give two operands. -/
def arithmeticType? (a b : Ty) : Option Ty := do
  if !p.isArithmeticOperand a || !p.isArithmeticOperand b then none
  let x ← (p.promotedType a).builtin?
  let y ← (p.promotedType b).builtin?
  return .builtin (x.common p.target y)

/-- The composite of pointers to `a` and `b`. -/
def compositePointer? (a b : Ty) : Option Ty :=
  let (s, aCv) := a.splitCv
  let (t, bCv) := b.splitCv
  let cv := aCv ∪ bCv
  if s.isVoid && !t.isFunction || t.isVoid && !s.isFunction then
    some (.pointer (Ty.void.qualify cv))
  else if s != t && s.isRecord && t.isRecord then
    if p.isBaseOf s t then some (.pointer (s.qualify cv))
    else if p.isBaseOf t s then some (.pointer (t.qualify cv))
    else none
  else
    match s.commonFunction? t with
    | some f => some (.pointer f)
    | none => (a.combineCv b).map fun (u, _) => .pointer u

/-- The more derived of two classes, of which one must be a base of the other. -/
def moreDerived? (c d : Ty) : Option Ty :=
  if c == d || p.isBaseOf d c then some c
  else if p.isBaseOf c d then some d
  else none

/-- The composite of two pointer, member pointer or null pointer operands. A composite member
pointer names a member of the more derived class. -/
def compositeType? (a b : Ty) : Option Ty :=
  match a, b with
  | .nullptr, .pointer _ | .nullptr, .memberPointer .. => some b
  | .pointer _, .nullptr | .memberPointer .., .nullptr => some a
  | _, _ =>
    match a.pointee?, b.pointee? with
    | some x, some y => p.compositePointer? x y
    | _, _ =>
      match a.memberPointerParts?, b.memberPointerParts? with
      | some (c, x), some (d, y) =>
        (p.moreDerived? c d).bind fun cls =>
          match x.commonFunction? y with
          | some f => some (.memberPointer cls f)
          | none => (x.combineCv y).map fun (u, _) => .memberPointer cls u
      | _, _ => none

/-- The value of a conditional whose operands do not agree as glvalues. -/
def conditionalValue (a b : Expr) : Formed Expr :=
  let s := a.type.asOperand
  let t := b.type.asOperand
  if s = t then .ok (.prvalue s)
  else if s.isRecord || t.isRecord then .error .noConversion
  else
    match (p.arithmeticType? s t).or (p.compositeType? s t) with
    | some u => .ok (.prvalue u)
    | none => .error .noConversion

/-- Whether two classes are the same or one is a base of the other. -/
def areRelatedClasses (c d : Ty) : Bool :=
  c.isRecord && d.isRecord && (c == d || p.isBaseOf c d || p.isBaseOf d c)

/-- The operand `source` converted to match `target`: bound directly to its lvalue or xvalue,
or else converted to its value. -/
def matchOperand (source target : Expr) (classInvolved : Bool) : Check (Option Expr) := do
  if target.category = .lvalue then
    let conversion ← Check.attempt (p.convert source target.type.lvalueRefTo .copy)
    if let some c := conversion then
      if c.binding.any (!·.temporary) && (source.isLvalue || c.kind == .userDefined) then
        return some (.lvalue target.type)
  if target.category = .xvalue then
    let conversion ← Check.attempt (p.convert source target.type.rvalueRefTo .copy)
    if let some c := conversion then
      if c.binding.any (!·.temporary) then return some (.xvalue target.type)
  if target.category ≠ .prvalue ∧ !classInvolved then return none
  let (s, sourceCv) := source.type.splitCv
  let (t, targetCv) := target.type.splitCv
  if p.areRelatedClasses s t then
    if !(s == t || p.isBaseOf t s) || !targetCv.covers sourceCv then return none
    let conversion ← Check.attempt (p.convert source target.type .copy)
    return conversion.map fun _ => .prvalue target.type
  else
    let value := target.type.asOperand
    let conversion ← Check.attempt (p.convert source value .copy)
    return conversion.map fun _ => .prvalueOf value

/-- Whether two expressions are glvalues of one type and category. -/
def sameGlvalue (a b : Expr) : Bool :=
  a == b && a.isGlvalue

/-- The type and category of `true ? a : b`. -/
def conditional (a b : Expr) : Check Expr := do
  if a.type.isVoid || b.type.isVoid then
    if a.type.isVoid && b.type.isVoid then return .prvalue .void
    throw .voidExpression
  if sameGlvalue a b then return a
  let classInvolved := a.type.isRecord || b.type.isRecord
  let cvOnly := a.category == b.category && a.isGlvalue &&
    a.type.unqualified == b.type.unqualified
  if (a.type != b.type && classInvolved) || cvOnly then
    let x ← p.matchOperand a b classInvolved
    let y ← p.matchOperand b a classInvolved
    match x, y with
    | some _, some _ => throw .ambiguous
    | some x, none => if sameGlvalue x b then return x else Check.ofFormed (p.conditionalValue x b)
    | none, some y => if sameGlvalue a y then return a else Check.ofFormed (p.conditionalValue a y)
    | none, none => Check.ofFormed (p.conditionalValue a b)
  else Check.ofFormed (p.conditionalValue a b)

end Program

end TypeTraits
