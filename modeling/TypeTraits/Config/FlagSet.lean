import TypeTraits.Text.Blank
import TypeTraits.Text.Hex
import TypeTraits.Trait.Capability

/-!
# Flag sets as text

A set of flags is written as the names of its flags, lowest bit first, and one hexadecimal
number for the bits that no flag has, joined by bars. Reading takes names and numbers in any
order, with blanks around them; a blank text is the empty set.
-/

namespace TypeTraits.Config

/-- The flags of a set: their names and bits, lowest bit first. -/
abbrev FlagTable := List (String × Nat)

def intrinsicFlags : FlagTable := Intrinsic.all.map fun i => (i.flagName, i.index)

def featureFlags : FlagTable := Feature.all.map fun f => (f.flagName, f.index)

/-- The word that has one bit set. -/
def bit (index : Nat) : BitVec 32 := 1#32 <<< index

/-- A hexadecimal number of at most 32 bits, possibly after a plus sign. -/
def hexBits? (cs : List Char) : Option (BitVec 32) := do
  let digits :=
    match cs with
    | '+' :: rest => rest
    | cs => cs
  if digits.isEmpty then none
  let value ← digits.foldlM (fun n c => (Text.hexDigit? c).map (16 * n + ·)) 0
  if value < 1 <<< 32 then some (BitVec.ofNat 32 value) else none

/-- The bits that one part of the text stands for. -/
def itemBits? (table : FlagTable) (cs : List Char) : Option (BitVec 32) :=
  match Text.trim cs with
  | [] => none
  | '0' :: 'x' :: digits => hexBits? digits
  | name => (table.lookup (String.ofList name)).map bit

/-- The parts of a text between bars; there is always one more part than there are bars. -/
def splitAtBars : List Char → List (List Char)
  | [] => [[]]
  | c :: rest =>
    match c, splitAtBars rest with
    | '|', parts => [] :: parts
    | c, part :: parts => (c :: part) :: parts
    | c, [] => [[c]]

/-- The set that a text writes. -/
def readFlags (table : FlagTable) (text : String) : Option (BitVec 32) :=
  let cs := text.toList
  if (Text.trim cs).isEmpty then some 0
  else do
    let bits ← (splitAtBars cs).mapM (itemBits? table)
    return bits.foldl (· ||| ·) 0

/-- A nonempty word in hexadecimal. -/
def hexText (bits : BitVec 32) : String :=
  "0x" ++ String.ofList (Nat.toDigits 16 bits.toNat)

/-- The text of a set. -/
def writeFlags (table : FlagTable) (bits : BitVec 32) : String :=
  let present := table.filter fun (_, index) => bits.getLsbD index
  let unnamed := bits &&& ~~~(table.foldl (fun known (_, index) => known ||| bit index) 0)
  let parts := present.map (·.1) ++ if unnamed = 0 then [] else [hexText unnamed]
  " | ".intercalate parts

end TypeTraits.Config
