import TypeTraits.Expr.UserDefined

/-!
# Reference binding

A reference binds directly to an object of its own type or of a derived class, if it is at
least as qualified and the value categories agree, or to what a conversion function returns.
An lvalue reference to anything but plain `const` binds to nothing else. What is left binds to
a temporary, unless the source is an object the reference should have bound to.
-/

namespace TypeTraits.Program

variable (p : Program)

/-- The conversion from `source` to `target` when the latter is the same type or a base of it. -/
def referenceRelation (target source : Ty) : Option BaseConversion :=
  if target = source then some (.reachable 0)
  else if target.isRecord && p.isBaseOf target source then some (p.baseConversion source target)
  else none

/-- Binding to the result of a conversion function of the source, which must be an lvalue or
must not be one, as `wantLvalue` tells. -/
def bindThroughFunction (convert : ConvertArgument) (source : Expr) (referent : Ty) (cv : Cv)
    (wantLvalue isRvalueRef : Bool) (mode : InitMode) : Check Conversion := do
  let candidates ← conversionCandidates (p.conversionOwners source.type) mode fun f => do
    let result := Expr.callResult f.result
    let (resultType, resultCv) := result.type.splitCv
    if result.isLvalue != wantLvalue || !cv.covers resultCv then return none
    return ((p.referenceRelation referent resultType).bind (·.distance?)).map fun distance =>
      { Conversion.derivedToBase distance with
        binding := some
          { rvalueToRvalue := isRvalueRef, referent, cv, implicitObject := false,
            temporary := false } }
  p.userDefinedConversion convert candidates source

/-- Binding of a reference to a function: only a function does. -/
def bindFunction (source : Expr) (referent : Ty) : Formed Conversion :=
  if source.type.isFunction then
    p.standardConversion (.prvalue (.pointer source.type)) (.pointer referent) .copy
  else .error .noConversion

/-- Binding of a reference to an object of type `target`. -/
def bindObject (convert : ConvertArgument) (source : Expr) (target : Ty) (isRvalueRef : Bool)
    (mode : InitMode) (allowUser : Bool) : Check Conversion := do
  let (referent, cv) := target.splitCv
  let (sourceType, sourceCv) := source.type.splitCv
  let relation := p.referenceRelation referent sourceType
  let covered := cv.covers sourceCv
  let tryFunctions := sourceType.isRecord && relation.isNone && allowUser
  let binding (rvalueToRvalue temporary : Bool) : Option ReferenceBinding :=
    some { rvalueToRvalue, referent, cv, implicitObject := false, temporary }
  let bindDirectly (relation : BaseConversion) (rvalueToRvalue : Bool) : Check Conversion := do
    let sequence ← Check.ofFormed relation.sequence?
    return { sequence with binding := binding rvalueToRvalue false }
  if !isRvalueRef then
    if source.isLvalue && covered then
      if let some relation := relation then return ← bindDirectly relation false
    if tryFunctions then
      if let some conversion ←
          Check.attempt (p.bindThroughFunction convert source referent cv true false mode) then
        return conversion
    if cv ≠ .const then throw .nonConstLvalueReference
  if source.isRvalue && covered then
    if let some relation := relation then return ← bindDirectly relation isRvalueRef
  if tryFunctions then
    if let some conversion ←
        Check.attempt (p.bindThroughFunction convert source referent cv false isRvalueRef mode)
        then
      return conversion
  if relation.isSome then
    if isRvalueRef && source.isLvalue then throw .rvalueReferenceToLvalue
    throw .dropsQualifiers
  let conversion ← convert source (referent.qualify cv) .copy allowUser
  return { conversion with binding := binding isRvalueRef true }

end TypeTraits.Program
