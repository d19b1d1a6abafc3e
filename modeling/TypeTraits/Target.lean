import TypeTraits.Layout.Basic

/-!
# Target data model

Sizes and alignments of the scalar types, and the signedness of the two character types that
leave it open, depend on the platform. The presets are the three common data models.
-/

namespace TypeTraits

/-- The data model of a compilation target. -/
structure Target where
  name : String
  charIsSigned : Bool
  wcharIsSigned : Bool
  bool : Layout
  char : Layout
  wchar : Layout
  char16 : Layout
  char32 : Layout
  short : Layout
  int : Layout
  long : Layout
  longLong : Layout
  int128 : Layout
  float : Layout
  double : Layout
  longDouble : Layout
  pointer : Layout
  memberDataPointer : Layout
  memberFunctionPointer : Layout
  maxFundamentalAlign : Nat
  deriving DecidableEq, Repr, Inhabited

namespace Target

/-- Unix-like targets with 64-bit pointers. -/
def lp64 : Target where
  name := "lp64"
  charIsSigned := true
  wcharIsSigned := true
  bool := .natural 1
  char := .natural 1
  wchar := .natural 4
  char16 := .natural 2
  char32 := .natural 4
  short := .natural 2
  int := .natural 4
  long := .natural 8
  longLong := .natural 8
  int128 := .natural 16
  float := .natural 4
  double := .natural 8
  longDouble := .natural 16
  pointer := .natural 8
  memberDataPointer := .natural 8
  memberFunctionPointer := ⟨16, 8⟩
  maxFundamentalAlign := 16

/-- Windows with 64-bit pointers. -/
def llp64 : Target :=
  { lp64 with
    name := "llp64"
    wcharIsSigned := false
    wchar := .natural 2
    long := .natural 4
    longDouble := .natural 8 }

/-- The System V model for 32-bit x86. -/
def ilp32 : Target :=
  { lp64 with
    name := "ilp32"
    long := .natural 4
    longLong := ⟨8, 4⟩
    double := ⟨8, 4⟩
    longDouble := ⟨12, 4⟩
    pointer := .natural 4
    memberDataPointer := .natural 4
    memberFunctionPointer := ⟨8, 4⟩ }

end Target

end TypeTraits
