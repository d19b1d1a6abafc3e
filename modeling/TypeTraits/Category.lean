import TypeTraits.Program

/-!
# Type categories

Every type has exactly one primary category, found under its top-level qualification; the
composite categories are unions of primary ones.
-/

namespace TypeTraits

/-- A primary type category. -/
inductive Category where
  | void
  | nullPointer
  | integral
  | floatingPoint
  | array
  | pointer
  | lvalueRef
  | rvalueRef
  | memberObjectPointer
  | memberFunctionPointer
  | enum
  | union
  | cls
  | function
  deriving DecidableEq, Repr, Inhabited

namespace Category

def isArithmetic : Category → Bool
  | integral | floatingPoint => true
  | _ => false

def isFundamental (c : Category) : Bool :=
  c == void || c == nullPointer || c.isArithmetic

def isMemberPointer : Category → Bool
  | memberObjectPointer | memberFunctionPointer => true
  | _ => false

def isScalar (c : Category) : Bool :=
  c.isArithmetic || c.isMemberPointer || c == pointer || c == nullPointer || c == enum

def isObject (c : Category) : Bool :=
  c.isScalar || c == array || c == union || c == cls

def isCompound (c : Category) : Bool := !c.isFundamental

def isReference : Category → Bool
  | lvalueRef | rvalueRef => true
  | _ => false

end Category

namespace Program

/-- The primary category of a type. A type of which nothing is known counts as a class. -/
def category (p : Program) : Ty → Category
  | .void => .void
  | .nullptr => .nullPointer
  | .builtin k => if k.isFloating then .floatingPoint else .integral
  | .qualified t _ => p.category t
  | .pointer _ => .pointer
  | .lvalueRef _ => .lvalueRef
  | .rvalueRef _ => .rvalueRef
  | .array .. => .array
  | .function .. | .functionNamed _ => .function
  | .memberPointer _ t => if t.isFunction then .memberFunctionPointer else .memberObjectPointer
  | .record id => if (p.record? id).any (·.isUnion) then .union else .cls
  | .enum _ => .enum
  | .unknown _ => .cls

/-- Whether a reference to the type can be formed. -/
def isReferenceable (p : Program) (t : Ty) : Bool :=
  match p.category t with
  | .void => false
  | .function => t.signature?.any (!·.isAbominable)
  | _ => true

/-- Arithmetic types with negative values. -/
def isSigned (p : Program) (t : Ty) : Bool :=
  t.builtin?.any (·.isSigned p.target)

/-- Arithmetic types without negative values, `bool` included. -/
def isUnsigned (p : Program) (t : Ty) : Bool :=
  t.builtin?.any fun k => k.isIntegral && !k.isSigned p.target

end Program

end TypeTraits
