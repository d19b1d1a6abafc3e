import TypeTraits.Config.Fields
import TypeTraits.Target
import TypeTraits.Text.Json.Reading
import TypeTraits.Text.Json.Writing

/-!
# Targets as text

A target is described by a JSON structure with a field for its name, for the two signs and for
each scalar layout. A description is usable when no size is zero and every alignment is a power
of two.
-/

namespace TypeTraits

/-- Why a text describes no usable target. -/
inductive TargetError where
  /-- The text is not the description of a target. -/
  | unreadable
  /-- The first field, in order, whose size or alignment no type can have. -/
  | invalidLayout (field : String)
  deriving DecidableEq, Repr

/-- The text of an error about a field. -/
def TargetError.message : TargetError → String
  | unreadable => "invalid target description"
  | invalidLayout field => "invalid layout for `" ++ field ++ "` in target description"

namespace Config

open Text

/-- The scalar layouts of a target with the names of their fields, in order. -/
def namedLayouts (t : Target) : List (String × Layout) :=
  [("bool_layout", t.bool), ("char_layout", t.char), ("wchar_layout", t.wchar),
    ("char16_layout", t.char16), ("char32_layout", t.char32), ("short_layout", t.short),
    ("int_layout", t.int), ("long_layout", t.long), ("long_long_layout", t.longLong),
    ("int128_layout", t.int128), ("float_layout", t.float), ("double_layout", t.double),
    ("long_double_layout", t.longDouble), ("pointer_layout", t.pointer),
    ("member_data_pointer_layout", t.memberDataPointer),
    ("member_function_pointer_layout", t.memberFunctionPointer)]

/-- The fields of a target, in order. -/
def targetFields : List String :=
  ["name", "char_is_signed", "wchar_is_signed"] ++ (namedLayouts .lp64).map (·.1) ++
    ["max_fundamental_align"]

/-- The layout that a value describes. -/
def readLayout (value : Json) : Option Layout := do
  let [size, align] ← allFieldsOf? ["size", "align"] value | none
  return ⟨← size.word?, ← align.word?⟩

/-- The target that a value describes, whether or not it is usable. -/
def readTarget (value : Json) : Option Target := do
  let name :: char :: wchar :: rest ← allFieldsOf? targetFields value | none
  let layouts ← (rest.take 16).mapM readLayout
  let [bool, char1, wchar1, char16, char32, short, int, long, longLong, int128, float, double,
    longDouble, pointer, memberDataPointer, memberFunctionPointer] := layouts | none
  let [maxAlign] := rest.drop 16 | none
  return {
    name := ← name.text?
    charIsSigned := ← char.bool?
    wcharIsSigned := ← wchar.bool?
    bool, char := char1, wchar := wchar1, char16, char32, short, int, long, longLong, int128,
    float, double, longDouble, pointer, memberDataPointer, memberFunctionPointer
    maxFundamentalAlign := ← maxAlign.word? }

def layoutJson (l : Layout) : Json :=
  .ofMembers [("size", .ofNat l.size), ("align", .ofNat l.align)]

/-- The description of a target. -/
def targetJson (t : Target) : Json :=
  .ofMembers <|
    [("name", .ofString t.name), ("char_is_signed", .bool t.charIsSigned),
      ("wchar_is_signed", .bool t.wcharIsSigned)] ++
    (namedLayouts t).map (fun (field, layout) => (field, layoutJson layout)) ++
    [("max_fundamental_align", .ofNat t.maxFundamentalAlign)]

/-- Whether types can have a layout. -/
def isUsableLayout (l : Layout) : Bool := l.size != 0 && Layout.isPowerOfTwo l.align

/-- The first field that makes a target unusable. -/
def unusableField? (t : Target) : Option String :=
  match (namedLayouts t).find? fun (_, layout) => !isUsableLayout layout with
  | some (field, _) => some field
  | none =>
    if Layout.isPowerOfTwo t.maxFundamentalAlign then none else some "max_fundamental_align"

end Config

namespace Target

/-- The usable target that a JSON value describes. -/
def ofJson (value : Text.Json) : Except TargetError Target :=
  match Config.readTarget value with
  | none => .error .unreadable
  | some t =>
    match Config.unusableField? t with
    | some field => .error (.invalidLayout field)
    | none => .ok t

/-- The usable target that a text describes. -/
def ofText (text : String) : Except TargetError Target :=
  match Text.Json.ofText? text with
  | none => .error .unreadable
  | some value => ofJson value

/-- The description of a target, over several lines. -/
def toText (t : Target) : String := (Config.targetJson t).pretty

end Target

end TypeTraits
