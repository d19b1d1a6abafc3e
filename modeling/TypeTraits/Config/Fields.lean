import TypeTraits.Text.Json.Basic

/-!
# Fields of a described structure

A structure is described by an object with its fields as members, or by an array of its fields
in order. Members that name no field are ignored; a field must not be named twice.
-/

namespace TypeTraits.Config

open Text

/-- The members of an object that describe one field. -/
def occurrences (members : List (Option String × Json)) (field : String) : List Json :=
  members.filterMap fun (key, value) => if key = some field then some value else none

/-- The descriptions of the given fields, in order; a missing field has none. -/
def fieldsOf? (fields : List String) : Json → Option (List (Option Json))
  | .object members =>
    if members.any fun (key, _) => key.isNone then none
    else
      fields.mapM fun field =>
        match occurrences members field with
        | [] => some none
        | [value] => some (some value)
        | _ => none
  | .array items =>
    if items.length ≤ fields.length then
      some (items.map some ++ List.replicate (fields.length - items.length) none)
    else none
  | _ => none

/-- The descriptions of the given fields, none of which may be missing. -/
def allFieldsOf? (fields : List String) (value : Json) : Option (List Json) := do
  (← fieldsOf? fields value).mapM id

end TypeTraits.Config
