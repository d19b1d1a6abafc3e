import TypeTraits.Trait.Capability
import TypeTraits.Trait.Introspection

/-!
# The trait solver

A solver answers traits about the types of one program. Where a capability and the provider
allow it asks the provider; otherwise it falls back on what expressions of the language tell.
-/

namespace TypeTraits

/-- A program with the capabilities and the provider that its traits are answered with. -/
structure Solver where
  program : Program
  capabilities : Capabilities := .all
  provider : Provider := .declarations

namespace Solver

variable (s : Solver)

/-- The provider's answer to a question it may leave open. -/
@[macro_inline]
def ask {α : Type} (q : Question) (t : Ty) (args : List Ty) (answer : Option α) : Option α :=
  if s.provider.answers q t args then answer else none

/-- The provider's answer where the intrinsic is available; `none` selects the fallback. -/
@[macro_inline]
def intrinsic {α : Type} (i : Intrinsic) (answer : Option α) : Option α :=
  if s.capabilities.has i then answer else none

/-- Whether exception specifications can be queried. -/
def knowsNoexcept : Bool := s.capabilities.supports .noexcept

/-- Whether member functions may have ref-qualifiers. -/
def knowsRefQualifiers : Bool := s.capabilities.supports .refQualifiedFunctions

/-- Whether the integer ladders have 128-bit types. -/
def knowsInt128 : Bool := s.capabilities.supports .int128

end Solver

end TypeTraits
