import TypeTraits.Layout.Object
import TypeTraits.Ladder
import TypeTraits.Error
import TypeTraits.Ty.Spelling

/-!
# Raw storage

A buffer for objects that are created later: its size is its length rounded up to its
alignment, and its alignment is borrowed from a candidate type when one has exactly that.
-/

namespace TypeTraits

/-- Where the alignment of raw storage comes from. -/
inductive AlignAnchor where
  | natural (candidate : AlignCandidate)
  /-- No candidate has the alignment; the storage is aligned explicitly. -/
  | overAligned
  deriving DecidableEq, Repr, Inhabited

/-- The candidate's name, or a word for none. -/
def AlignAnchor.name : AlignAnchor → String
  | natural c => c.name
  | overAligned => "over-aligned"

/-- A raw buffer of `size` bytes for at least `length` bytes. -/
structure AlignedStorage where
  length : Nat
  size : Nat
  align : Nat
  anchor : AlignAnchor
  deriving DecidableEq, Repr, Inhabited

/-- Storage of at least `length` bytes, aligned as asked or by default. -/
def alignedStorage (target : Target) (length : Nat) (align? : Option Nat) :
    Except TraitError AlignedStorage :=
  if length = 0 then .error .zeroLength
  else
    let align := align?.getD (AlignCandidate.defaultAlignment target length)
    if !Layout.isPowerOfTwo align || align > Limits.alignment then
      .error (.invalidAlignment align Limits.alignment)
    else
      match Layout.roundUp? length align with
      | none => .error (.sizeOverflow length align)
      | some size =>
        let anchor :=
          match AlignCandidate.withAlignment target align with
          | some c => .natural c
          | none => .overAligned
        .ok { length, size, align, anchor }

/-- Storage for an object of any of `types` that has at least `length` bytes. -/
def Program.alignedUnion (p : Program) (length : Nat) (types : List Ty) :
    Except TraitError AlignedStorage :=
  if types.isEmpty then .error (.arityMismatch "aligned_union" "at least 1" 0)
  else do
    let (length, align) ← types.foldlM (fun (length, align) t =>
      match p.layoutOf t with
      | some layout => .ok (max length layout.size, max align layout.align)
      | none => .error (.unsized (p.spell t))) (length, 1)
    alignedStorage p.target length (some align)

end TypeTraits
