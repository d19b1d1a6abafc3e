import TypeTraits.Expr.Overload

/-!
# User-defined conversions

One converting constructor of the target or one conversion function of the source, the latter
found in the source's class and its bases. A conversion function is hidden by one of the same
signature in a class met earlier.
-/

namespace TypeTraits.Program

variable (p : Program)

/-- The classes whose conversion functions apply to an object: its class and the bases, each
with its declaration. -/
def conversionOwners (source : Ty) : List (Ty × Record) :=
  match p.completeRecord? source with
  | none => []
  | some r =>
    let cls := source.unqualified
    (cls, r) :: (p.allBases cls).filterMap fun base => (p.completeRecord? base).map (base, ·)

/-- A conversion function's signature, by which it hides others. -/
abbrev ConversionSignature := Ty × Cv × RefQualifier

/-- The conversion functions of the owners that are not hidden by earlier ones, in order. -/
def visibleConversions (mode : InitMode) (owners : List (Ty × Record)) : List Candidate :=
  let all := owners.flatMap fun (cls, r) => r.candidates .conversion mode (some cls)
  (all.foldl (fun (seen, out) c =>
    let signature : ConversionSignature := (c.function.result, c.function.cv, c.function.ref)
    if signature ∈ seen then (seen, out) else (signature :: seen, c :: out))
    (([], []) : List ConversionSignature × List Candidate)).2.reverse

/-- The visible conversion functions whose result `accept` converts to the target. -/
def conversionCandidates (owners : List (Ty × Record)) (mode : InitMode)
    (accept : FunctionDecl → Check (Option Conversion)) : Check (List Candidate) :=
  (visibleConversions mode owners).filterMapM fun c => do
    let result ← accept c.function
    return result.map fun result => { c with result := some result }

/-- The user-defined conversion through the best candidate. -/
def userDefinedConversion (convert : ConvertArgument) (candidates : List Candidate)
    (source : Expr) : Check Conversion := do
  let selection ← p.resolve convert candidates (some source) [source] false
  let second := selection.candidate.result.getD .identity
  return .userDefined selection.candidate.id second selection.effects

/-- Conversion of an expression to a class from its own objects or those of a derived class;
`unrelated` is tried for any other source. -/
def relatedConversion (convert : ConvertArgument)
    (unrelated : Record → Check Conversion) (source : Expr) (target : Ty) (mode : InitMode) :
    Check Conversion := do
  let target := target.unqualified
  match p.completeRecord? target with
  | none => throw .incompleteType
  | some r =>
    if r.facts.abstract then throw .abstractClass
    let cls := source.type.unqualified
    if cls = target || p.isBaseOf target cls then
      match p.baseConversion cls target with
      | .reachable distance =>
        if distance = 0 ∧ source.category = .prvalue then return .identity
        let candidates := r.candidates .constructor mode none
        let selection ← p.resolve convert candidates none [source] false
        return { Conversion.derivedToBase distance with effects := selection.effects }
      | failed => Check.ofFormed failed.sequence?
    else unrelated r

/-- Conversion to a class without user-defined conversions. -/
def directClassConversion (convert : ConvertArgument) (source : Expr) (target : Ty)
    (mode : InitMode) : Check Conversion :=
  p.relatedConversion convert (fun _ => throw .noConversion) source target mode

/-- Conversion to a class that is unrelated to the source: its converting constructors compete
with conversion functions of the source. -/
def unrelatedConversion (convert : ConvertArgument) (source : Expr) (target : Ty)
    (mode : InitMode) (r : Record) : Check Conversion := do
  let target := target.unqualified
  let constructors := (r.candidates .constructor mode none).filter fun c =>
    c.function.params.length == 1 || (c.function.params.isEmpty && c.function.variadic)
  let functions ← conversionCandidates (p.conversionOwners source.type) mode fun f => do
    let result := Expr.callResult f.result
    let cls := result.type.unqualified
    if cls ≠ target ∧ !p.isBaseOf target cls then return none
    Check.attempt (p.directClassConversion convert result target .copy)
  p.userDefinedConversion convert (constructors ++ functions) source

/-- Conversion of an expression to a class. -/
def classConversion (convert : ConvertArgument) (source : Expr) (target : Ty) (mode : InitMode)
    (allowUser : Bool) : Check Conversion :=
  if allowUser then
    p.relatedConversion convert (p.unrelatedConversion convert source target mode) source target
      mode
  else p.directClassConversion convert source target mode

/-- Conversion of a class object to a type that is no class, through a conversion function. -/
def conversionFromClass (convert : ConvertArgument) (source : Expr) (target : Ty)
    (mode : InitMode) : Check Conversion := do
  let candidates ← conversionCandidates (p.conversionOwners source.type) mode fun f =>
    return (p.standardConversion (Expr.callResult f.result) target mode).toOption
  p.userDefinedConversion convert candidates source

end TypeTraits.Program
