import TypeTraits.Category
import TypeTraits.Ladder
import TypeTraits.Error
import TypeTraits.Ty.Spelling

/-!
# Transformations

Functions from types to types: adding and removing qualifiers, references, pointers and array
bounds, decay, and the signed and unsigned counterparts of an integer type.
-/

namespace TypeTraits

namespace Ty

/-- The type without the qualifiers in `drop`. -/
def removeQualifiers (t : Ty) (drop : Cv) : Ty :=
  if t.cv.meets drop then t.unqualified.qualify (t.cv \ drop) else t

def removeConst (t : Ty) : Ty := t.removeQualifiers .const

def removeVolatile (t : Ty) : Ty := t.removeQualifiers .volatile

def removeCv (t : Ty) : Ty := t.unqualified

def removeCvref (t : Ty) : Ty := t.withoutReference.removeCv

def removePointer (t : Ty) : Ty := t.pointee?.getD t

def removeExtent : Ty → Ty
  | array t _ => t
  | t => t

end Ty

namespace Program

variable (p : Program)

/-- `T&` when such a reference can be formed, and otherwise `T`. -/
def addLvalueReference (t : Ty) : Ty :=
  if p.isReferenceable t then t.lvalueRefTo else t

/-- `T&&` when such a reference can be formed, and otherwise `T`. -/
def addRvalueReference (t : Ty) : Ty :=
  if p.isReferenceable t then t.rvalueRefTo else t

/-- Pointer to what `t` refers to; a type that nothing can point to stays as it is. -/
def addPointer (t : Ty) : Ty :=
  let target := t.withoutReference
  if p.isReferenceable target || target.isVoid then .pointer target else t

/-- The type of a parameter passed by value, taken from a type that is no reference. -/
def decayObject (t : Ty) : Ty :=
  match t with
  | .array u _ => .pointer u
  | .function .. | .functionNamed _ => p.addPointer t
  | t => t.removeCv

/-- The type a parameter passed by value would have: without reference, with arrays and
functions turned into pointers, and without top-level qualifiers. -/
def decay (t : Ty) : Ty := p.decayObject t.withoutReference

end Program

/-- The type that is left when decay no longer changes it. For a type in normal form one
decay is enough. -/
def Program.settle (p : Program) : Ty → Ty
  | .lvalueRef t => p.settle t
  | .rvalueRef t => p.settle t
  | .qualified t _ => p.settle t
  | .array t _ => .pointer t
  | .function r ps q => p.decayObject (.function r ps q)
  | t => t

/-- Signed or unsigned. -/
inductive Signedness where
  | signed
  | unsigned
  deriving DecidableEq, Repr, Inhabited

namespace Signedness

/-- The trait that forms the counterpart. -/
def traitName : Signedness → String
  | signed => "make_signed"
  | unsigned => "make_unsigned"

def ladder : Signedness → Bool → List Builtin
  | signed => Builtin.signedLadder
  | unsigned => Builtin.unsignedLadder

/-- The standard integer type of the same rank; character types and `bool` have none. -/
def counterpart? (s : Signedness) (k : Builtin) : Option Builtin :=
  let choose (signed unsigned : Builtin) : Option Builtin :=
    match s with
    | .signed => some signed
    | .unsigned => some unsigned
  match k with
  | .signedChar | .unsignedChar => choose .signedChar .unsignedChar
  | .short | .unsignedShort => choose .short .unsignedShort
  | .int | .unsignedInt => choose .int .unsignedInt
  | .long | .unsignedLong => choose .long .unsignedLong
  | .longLong | .unsignedLongLong => choose .longLong .unsignedLongLong
  | .int128 | .unsignedInt128 => choose .int128 .unsignedInt128
  | _ => none

end Signedness

namespace Program

variable (p : Program)

/-- The first integer of the ladder that is at least `size` bytes wide, qualified as `cv`. -/
def integerOfSize (s : Signedness) (wide : Bool) (size : Nat) (cv : Cv) :
    Except TraitError Ty :=
  match Builtin.firstOfSize p.target (s.ladder wide) size with
  | some k => .ok ((Ty.builtin k).qualify cv)
  | none => .error (.noMatchingInteger s.traitName size)

/-- The signed or unsigned counterpart of an integral or enumeration type, qualified alike.
A standard integer type keeps its rank; a character type or an enumeration gets the first
integer that is at least as wide. -/
def makeSignedness (s : Signedness) (wide : Bool) (t : Ty) : Except TraitError Ty :=
  let rejected : Except TraitError Ty := .error (.notIntegral s.traitName (p.spell t))
  let (base, cv) := t.splitCv
  match base.builtin? with
  | some k =>
    if !k.isIntegral || k == .bool then rejected
    else
      match s.counterpart? k with
      | some c => .ok ((Ty.builtin c).qualify cv)
      | none => p.integerOfSize s wide (k.layout p.target).size cv
  | none =>
    match p.enumOf? base with
    | some e =>
      match (e.underlying p.target).builtin? with
      | some k => p.integerOfSize s wide (k.layout p.target).size cv
      | none => rejected
    | none => rejected

def makeSigned (wide : Bool) (t : Ty) : Except TraitError Ty := p.makeSignedness .signed wide t

def makeUnsigned (wide : Bool) (t : Ty) : Except TraitError Ty :=
  p.makeSignedness .unsigned wide t

end Program

end TypeTraits
