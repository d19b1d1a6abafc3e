import TypeTraits.Config.FlagSet
import TypeTraits.Config.TargetText

/-!
# Configurations

A configuration chooses a target and capabilities. Either may be left out; the default is a
64-bit Unix-like target with every capability. The target of a configuration is taken as it is
described, without asking whether it is usable.
-/

namespace TypeTraits

namespace Config

open Text

/-- The capabilities that a value describes. -/
def readCapabilities (value : Json) : Option Capabilities := do
  let [builtins, features] ← allFieldsOf? ["builtins", "features"] value | none
  return {
    intrinsics := ← readFlags intrinsicFlags (← builtins.text?)
    features := ← readFlags featureFlags (← features.text?) }

def capabilitiesJson (c : Capabilities) : Json :=
  .ofMembers
    [("builtins", .ofString (writeFlags intrinsicFlags c.intrinsics)),
      ("features", .ofString (writeFlags featureFlags c.features))]

end Config

/-- The capabilities that a text describes. -/
def Capabilities.ofText? (text : String) : Option Capabilities :=
  (Text.Json.ofText? text).bind Config.readCapabilities

/-- The target and the capabilities of a solver. -/
structure Configuration where
  target : Target := .lp64
  capabilities : Capabilities := .all
  deriving DecidableEq, Repr, Inhabited

namespace Configuration

/-- A value read by `read`, or the default where there is none. -/
def readOr {α : Type} (default : α) (read : Text.Json → Option α) : Option Text.Json → Option α
  | none => some default
  | some value => read value

/-- The configuration that a value describes. -/
def ofJson? (value : Text.Json) : Option Configuration := do
  let [target, capabilities] ← Config.fieldsOf? ["target", "capabilities"] value | none
  return {
    target := ← readOr .lp64 Config.readTarget target
    capabilities := ← readOr .all Config.readCapabilities capabilities }

/-- The configuration that a text describes. -/
def ofText? (text : String) : Option Configuration :=
  (Text.Json.ofText? text).bind ofJson?

/-- The description of a configuration. -/
def toJson (c : Configuration) : Text.Json :=
  .ofMembers
    [("target", Config.targetJson c.target),
      ("capabilities", Config.capabilitiesJson c.capabilities)]

end Configuration

end TypeTraits
