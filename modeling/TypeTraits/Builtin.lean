import TypeTraits.Target

/-!
# Builtin arithmetic types

The twenty builtin kinds with what a target says about them: layout, signedness, number of
value bits, conversion rank and range of values.
-/

namespace TypeTraits

/-- A builtin arithmetic type. -/
inductive Builtin where
  | bool
  | char
  | signedChar
  | unsignedChar
  | wchar
  | char16
  | char32
  | short
  | unsignedShort
  | int
  | unsignedInt
  | long
  | unsignedLong
  | longLong
  | unsignedLongLong
  | int128
  | unsignedInt128
  | float
  | double
  | longDouble
  deriving DecidableEq, Repr, Inhabited, Hashable

namespace Builtin

/-- Every kind, in declaration order. -/
def all : List Builtin :=
  [bool, char, signedChar, unsignedChar, wchar, char16, char32, short, unsignedShort, int,
    unsignedInt, long, unsignedLong, longLong, unsignedLongLong, int128, unsignedInt128, float,
    double, longDouble]

theorem mem_all (k : Builtin) : k ∈ all := by
  cases k <;> decide

/-- The kind's name in source text. -/
def name : Builtin → String
  | bool => "bool"
  | char => "char"
  | signedChar => "signed char"
  | unsignedChar => "unsigned char"
  | wchar => "wchar_t"
  | char16 => "char16_t"
  | char32 => "char32_t"
  | short => "short"
  | unsignedShort => "unsigned short"
  | int => "int"
  | unsignedInt => "unsigned int"
  | long => "long"
  | unsignedLong => "unsigned long"
  | longLong => "long long"
  | unsignedLongLong => "unsigned long long"
  | int128 => "__int128"
  | unsignedInt128 => "unsigned __int128"
  | float => "float"
  | double => "double"
  | longDouble => "long double"

/-- The kind with a given name. -/
def ofName? (text : String) : Option Builtin :=
  all.find? fun k => k.name == text

def isFloating : Builtin → Bool
  | float | double | longDouble => true
  | _ => false

def isIntegral (k : Builtin) : Bool := !k.isFloating

/-- The character types that promote by range. -/
def isWideCharacter : Builtin → Bool
  | wchar | char16 | char32 => true
  | _ => false

/-- Signedness on a target; floating-point types are signed. -/
def isSigned (target : Target) : Builtin → Bool
  | bool | unsignedChar | char16 | char32 | unsignedShort | unsignedInt | unsignedLong
  | unsignedLongLong | unsignedInt128 => false
  | char => target.charIsSigned
  | wchar => target.wcharIsSigned
  | _ => true

def layout (target : Target) : Builtin → Layout
  | bool => target.bool
  | char | signedChar | unsignedChar => target.char
  | wchar => target.wchar
  | char16 => target.char16
  | char32 => target.char32
  | short | unsignedShort => target.short
  | int | unsignedInt => target.int
  | long | unsignedLong => target.long
  | longLong | unsignedLongLong => target.longLong
  | int128 | unsignedInt128 => target.int128
  | float => target.float
  | double => target.double
  | longDouble => target.longDouble

/-- Integer conversion rank. A wide character type has the rank of the first of `char`,
`short` and `int` that is at least as large, and otherwise the rank of `long`. -/
def rank (target : Target) (k : Builtin) : Nat :=
  match k with
  | bool => 0
  | char | signedChar | unsignedChar => 1
  | short | unsignedShort => 2
  | int | unsignedInt => 3
  | long | unsignedLong => 4
  | longLong | unsignedLongLong => 5
  | int128 | unsignedInt128 => 6
  | wchar | char16 | char32 =>
    let size := (k.layout target).size
    if size ≤ target.char.size then 1
    else if size ≤ target.short.size then 2
    else if size ≤ target.int.size then 3
    else 4
  | float | double | longDouble => 0

/-- Number of value bits, the sign bit included, as a 32-bit word. -/
def valueBits (target : Target) (k : Builtin) : Nat :=
  match k with
  | bool => 1
  | _ => (k.layout target).size * 8 % (1 <<< 32)

/-- Whether every value of `k` is a value of `other`; meant for integral kinds. -/
def fitsIn (target : Target) (k other : Builtin) : Bool :=
  match k.isSigned target, other.isSigned target with
  | false, false | true, true => k.valueBits target ≤ other.valueBits target
  | false, true => k.valueBits target < other.valueBits target
  | true, false => false

/-- A power of two as a signed 128-bit word: the exponent counts modulo 128 and the result
wraps. -/
def powerWord (exponent : Nat) : Int :=
  Int.bmod (1 <<< (exponent % 128) : Nat) (1 <<< 128)

/-- Least and greatest value of an integral kind, as signed 128-bit words. A width of zero
bits counts as one past a full turn of the exponent. -/
def range (target : Target) (k : Builtin) : Int × Int :=
  let bits := k.valueBits target
  if k.isSigned target then
    let half := powerWord (bits + 127)
    (Int.bmod (-half) (1 <<< 128), Int.bmod (half - 1) (1 <<< 128))
  else
    (0, Int.bmod (powerWord bits - 1) (1 <<< 128))

end Builtin

end TypeTraits
