/-!
# Limits

The bounds that a trait query keeps: on the number of its operands, on alignments of storage,
and on the walks that a recursion guard watches.
-/

namespace TypeTraits.Limits

/-- Most argument types one trait query takes. -/
def traitArity : Nat := 16

/-- Largest alignment of raw storage. -/
def alignment : Nat := 0x4000

/-- Deepest nesting of initializations and conversions in one expression. -/
def initializationDepth : Nat := 64

/-- Deepest walk over base classes. -/
def hierarchyDepth : Nat := 256

/-- Most guarded steps of one walk. -/
def guardIterations : Nat := 100000

/-- Where the count of guarded steps stops: the greatest number of 32 bits. -/
def countedSteps : Nat := 0xFFFFFFFF

end TypeTraits.Limits
