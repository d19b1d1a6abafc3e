/-!
# JSON values

A value as its text gives it: an object keeps its members in order and repeated keys apart, and
a number keeps its digits, so that reading loses nothing a later rule may ask about.
-/

namespace TypeTraits.Text

/-- A JSON value. -/
inductive Json where
  | null
  | bool (value : Bool)
  /-- A number as it is written. -/
  | number (literal : String)
  /-- A string; `none` when its escapes leave half of a surrogate pair alone. -/
  | string (text : Option String)
  | array (items : List Json)
  | object (members : List (Option String × Json))
  deriving Repr, Inhabited

namespace Json

/-- A string value. -/
def ofString (text : String) : Json := .string (some text)

def ofNat (n : Nat) : Json := .number (toString n)

/-- An object whose keys are all texts. -/
def ofMembers (members : List (String × Json)) : Json :=
  .object (members.map fun (key, value) => (some key, value))

def text? : Json → Option String
  | .string text => text
  | _ => none

def bool? : Json → Option Bool
  | .bool b => some b
  | _ => none

/-- A number written as digits alone and small enough for 64 bits. -/
def word? : Json → Option Nat
  | .number literal =>
    let digits := literal.toList
    if digits.all Char.isDigit then
      let value := digits.foldl (fun n c => 10 * n + (c.toNat - '0'.toNat)) 0
      if value < 1 <<< 64 then some value else none
    else none
  | _ => none

/-- The value of the last member with a key, or `null`. -/
def member (key : String) : Json → Json
  | .object members =>
    (members.foldl (fun found (k, value) => if k = some key then some value else found) none).getD
      .null
  | _ => .null

/-- The items of an array; any other value has none. -/
def items : Json → List Json
  | .array items => items
  | _ => []

end Json

end TypeTraits.Text
