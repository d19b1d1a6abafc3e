import TypeTraits.Expr.Sequence
import TypeTraits.Hierarchy

/-!
# Standard conversions

Conversions that run no function of the user: promotions and arithmetic conversions, pointer
and member pointer conversions, and qualification conversions at any depth of a pointer.
-/

namespace TypeTraits

/-- Integral promotion of a builtin kind, if it has one. -/
def Builtin.promotion? (target : Target) (k : Builtin) : Option Builtin :=
  match k with
  | .bool | .char | .signedChar | .unsignedChar | .short | .unsignedShort =>
    some (if k.fitsIn target .int then .int else .unsignedInt)
  | .wchar | .char16 | .char32 =>
    [Builtin.int, .unsignedInt, .long, .unsignedLong, .longLong, .unsignedLongLong].find?
      (k.fitsIn target)
  | _ => none

namespace Ty

/-- Whether a pointer to `source` converts to a pointer to `target` by adding qualifiers only.
Adding one at some level needs `const` at every level above, which `constAbove` tells for the
levels outside. -/
def qualificationConvertible (source target : Ty) (constAbove : Bool := true) : Bool :=
  let (s, sourceCv) := source.splitCv
  let (t, targetCv) := target.splitCv
  let constHere := constAbove && targetCv.isConst
  targetCv.covers sourceCv && (targetCv == sourceCv || constAbove) &&
    (s == t ||
      match source with
      | .pointer a | .qualified (.pointer a) _ | .qualified (.qualified (.pointer a) _) _ =>
        match t.pointee? with
        | some b => a.qualificationConvertible b constHere
        | none => false
      | .memberPointer c a | .qualified (.memberPointer c a) _
      | .qualified (.qualified (.memberPointer c a) _) _ =>
        match t.memberPointerParts? with
        | some (d, b) => c == d && a.qualificationConvertible b constHere
        | none => false
      | _ => false)

/-- Whether two function types differ only in that `source` is `noexcept`. -/
def dropsNoexcept (source target : Ty) : Bool :=
  match source.signature?, target.signature? with
  | some a, some b =>
    a.quals.noexcept && !b.quals.noexcept &&
      { a with quals := { a.quals with noexcept := false } } == b
  | _, _ => false

/-- The type an expression of this type has as a value: arrays and functions turn into
pointers, other types lose their qualification. -/
def asValue : Ty → Ty
  | array t _ => pointer t
  | function r ps q => pointer (function r ps q)
  | functionNamed n => pointer (functionNamed n)
  | t => t.unqualified

end Ty

namespace BaseConversion

/-- The conversion sequence of a conversion to a base. -/
def sequence? : BaseConversion → Formed Conversion
  | reachable distance => .ok (.derivedToBase distance)
  | ambiguous => .error .ambiguousBase
  | inaccessible => .error .inaccessible
  | notBase => .error .noConversion

end BaseConversion

namespace Program

variable (p : Program)

/-- The type an arithmetic or unscoped enumeration operand has after promotion; other types
only lose their qualification. -/
def promotedType (t : Ty) : Ty :=
  let t := t.unqualified
  match p.enumOf? t with
  | some e =>
    if e.isScoped then t
    else
      let underlying := e.underlying p.target
      match underlying.builtin?.bind (·.promotion? p.target) with
      | some k => .builtin k
      | none => underlying
  | none =>
    match t.builtin?.bind (·.promotion? p.target) with
    | some k => .builtin k
    | none => t

/-- Conversion of a pointer to `source` to a pointer to `target`. -/
def pointerConversion (source target : Ty) : Formed Conversion :=
  if source.qualificationConvertible target || source.dropsNoexcept target then .ok .identity
  else
    let (s, sourceCv) := source.splitCv
    let (t, targetCv) := target.splitCv
    if !targetCv.covers sourceCv then .error .dropsQualifiers
    else if t.isVoid then
      if s.isFunction then .error .noConversion else .ok (.standard .conversion)
    else if s.isRecord && t.isRecord then (p.baseConversion s t).sequence?
    else .error .noConversion

/-- Conversion between member pointers: a member of a base is a member of a derived class,
never the other way. -/
def memberPointerConversion (sourceClass source targetClass target : Ty) : Formed Conversion :=
  if sourceClass = targetClass then
    if source.qualificationConvertible target || source.dropsNoexcept target then .ok .identity
    else .error .noConversion
  else if source ≠ target then .error .noConversion
  else (p.baseConversion targetClass sourceClass).sequence?

/-- Rank of a conversion between builtin types that differ. -/
def builtinRank (source target : Builtin) : ConversionRank :=
  if target = .bool then .conversion
  else if source.promotion? p.target = some target ∨ (source = .float ∧ target = .double) then
    .promotion
  else .conversion

/-- Conversion of an enumeration to the builtin type `kind`, written as `target`. -/
def enumConversion (source target : Ty) (kind : Builtin) : Formed Conversion :=
  match p.enumOf? source with
  | none => .error .incompleteType
  | some e =>
    if e.isScoped then .error .noConversion
    else
      let promotes := target = p.promotedType source ∨
        (e.fixedUnderlying.isSome ∧ target = e.underlying p.target)
      .ok (.standard (if kind ≠ .bool ∧ promotes then .promotion else .conversion))

/-- The standard conversion sequence from an expression to a type that is neither a class nor
a reference. -/
def standardConversion (e : Expr) (target : Ty) (mode : InitMode) : Formed Conversion :=
  let source := e.type.asValue
  let target := target.unqualified
  if source = target then .ok .identity
  else
    match source.core, target.core with
    | .builtin s, .builtin t => .ok (.standard (p.builtinRank s t))
    | .enum _, .builtin t => p.enumConversion source target t
    | .nullptr, .pointer _ | .nullptr, .memberPointer .. => .ok (.standard .conversion)
    | .nullptr, .builtin .bool =>
      match mode with
      | .direct => .ok (.standard .conversion)
      | .copy => .error .noConversion
    | .pointer _, .builtin .bool | .memberPointer .., .builtin .bool =>
      .ok { rank := .conversion, pointerToBool := true }
    | .pointer s, .pointer t => p.pointerConversion s t
    | .memberPointer c s, .memberPointer d t => p.memberPointerConversion c s d t
    | _, _ => .error .noConversion

end Program

end TypeTraits
