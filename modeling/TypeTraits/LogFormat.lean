import TypeTraits.Text.Blank

/-!
# Log formats

How a log of queries is written. Names are read without regard to case and to blanks around
them, and any other name means plain text. Only ASCII letters need lowering: no other character
has a lower case in these names.
-/

namespace TypeTraits

/-- The format of a log. -/
inductive LogFormat where
  | text
  | tree
  | json
  deriving DecidableEq, Repr

/-- The format a name stands for. -/
def LogFormat.ofName (name : String) : LogFormat :=
  match String.ofList ((Text.trim name.toList).map Char.toLower) with
  | "tree" => .tree
  | "json" => .json
  | _ => .text

end TypeTraits
