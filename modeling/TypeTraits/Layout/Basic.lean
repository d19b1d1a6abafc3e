/-!
# Size and alignment

Sizes and alignments are natural numbers of bytes. An object exists only when its size is
below `Layout.limit`, so every step that adds, multiplies or rounds is checked against that
limit; the unchecked arithmetic is what the checked arithmetic agrees with below it.
-/

namespace TypeTraits

/-- Size and alignment of an object, in bytes. -/
structure Layout where
  size : Nat
  align : Nat
  deriving DecidableEq, Repr, Inhabited

namespace Layout

/-- A layout whose alignment equals its size. -/
def natural (bytes : Nat) : Layout := ⟨bytes, bytes⟩

/-- Sizes are 64-bit words: the first number that is no size. -/
def limit : Nat := 1 <<< 64

/-- A number that is a size. -/
def fits? (n : Nat) : Option Nat :=
  if n < limit then some n else none

theorem fits?_eq_some_iff {n m : Nat} : fits? n = some m ↔ n = m ∧ n < limit := by
  unfold fits?
  split <;> simp_all
  omega

/-- The least multiple of `align` that is at least `value`; an alignment of zero counts as one. -/
def roundUp (value align : Nat) : Nat :=
  (value + (max align 1 - 1)) / max align 1 * max align 1

/-- Rounding that fails when the result is no size. -/
def roundUp? (value align : Nat) : Option Nat :=
  fits? (roundUp value align)

/-- The end of an object of `size` bytes that starts at the first multiple of `align` from
`offset` on. -/
def place? (offset align size : Nat) : Option Nat := do
  let start ← roundUp? offset align
  fits? (start + size)

/-- Whether `n` is a power of two. -/
def isPowerOfTwo (n : Nat) : Bool :=
  n != 0 && 1 <<< n.log2 == n

theorem isPowerOfTwo_shiftLeft (k : Nat) : isPowerOfTwo (1 <<< k) = true := by
  simp [isPowerOfTwo, Nat.one_shiftLeft, Nat.log2_two_pow]

end Layout

end TypeTraits
