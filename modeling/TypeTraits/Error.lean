import TypeTraits.Limits

/-!
# Errors

An ill-formed expression is no error: it has a reason of its own. An error is a request that
no trait answers, such as too many operands, an impossible alignment or a malformed record.
-/

namespace TypeTraits

/-- Why a request is rejected. Types are carried as they are spelled. -/
inductive TraitError where
  | arityExceeded (trait_ : String) (given max : Nat)
  | arityMismatch (trait_ : String) (expected : String) (given : Nat)
  | invalidAlignment (align max : Nat)
  | zeroLength
  | sizeOverflow (length align : Nat)
  | recordTooLarge (record : String)
  | unknownRecord (number : Nat)
  | unknownEnum (number : Nat)
  | selfBase (record : String)
  | incompleteBase (record base : String)
  | invalidBase (record base : String)
  | unionBase (record : String)
  | invalidMember (record member type : String)
  | notIntegral (trait_ type : String)
  | noMatchingInteger (trait_ : String) (size : Nat)
  | notEnum (type : String)
  | unsized (type : String)
  deriving DecidableEq, Repr

/-- The text of an error. -/
def TraitError.message : TraitError → String
  | arityExceeded name given max =>
    s!"{name} accepts at most {max} argument types, got {given}"
  | arityMismatch name expected given =>
    s!"{name} expects {expected} argument types, got {given}"
  | invalidAlignment align max => s!"alignment {align} is not a power of two no greater than {max}"
  | zeroLength => "storage length must be nonzero"
  | sizeOverflow length align =>
    s!"{length} bytes rounded up to alignment {align} does not fit in 64 bits"
  | recordTooLarge record => "record `" ++ record ++ "` is too large to lay out"
  | unknownRecord number => s!"unknown record id {number}"
  | unknownEnum number => s!"unknown enum id {number}"
  | selfBase record => "record `" ++ record ++ "` cannot derive from itself"
  | incompleteBase record base =>
    "record `" ++ record ++ "` derives from incomplete type `" ++ base ++ "`"
  | invalidBase record base =>
    "record `" ++ record ++ "` derives from non-class type `" ++ base ++ "`"
  | unionBase record => "union `" ++ record ++ "` cannot have base classes"
  | invalidMember record member type =>
    "member `" ++ member ++ "` of `" ++ record ++ "` has incomplete or non-object type `" ++ type
      ++ "`"
  | notIntegral name type =>
    name ++ " requires an integral or enumeration type other than bool, got `" ++ type ++ "`"
  | noMatchingInteger name size => s!"no integer type of {size} bytes is available for {name}"
  | notEnum type => "underlying_type requires an enumeration type, got `" ++ type ++ "`"
  | unsized type => "`" ++ type ++ "` has no size"

end TypeTraits
