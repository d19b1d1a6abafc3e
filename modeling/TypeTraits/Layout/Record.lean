import TypeTraits.Layout.Object

/-!
# Layout of records

Subobjects are placed in order: a table pointer for a dynamic class that cannot share its
primary base's, then the non-virtual bases, the data members, and the virtual bases once each.
Empty bases share offset zero unless one of the same type is there already. A record has at
least one byte.
-/

namespace TypeTraits

/-- What the layout of a record is computed from. -/
structure RecordParts where
  isUnion : Bool
  /-- Virtual functions or virtual bases. -/
  dynamic : Bool
  bases : List BaseClass
  members : List Ty
  deriving Repr, Inhabited

/-- A record that is being laid out. -/
structure Placement where
  offset : Nat := 0
  align : Nat := 1
  /-- The types of the empty bases at offset zero. -/
  emptyAtZero : List Ty := []
  /-- The virtual bases met so far. -/
  virtualBases : List Ty := []
  deriving DecidableEq, Repr, Inhabited

namespace Placement

/-- Places a subobject after everything placed so far. -/
def place (s : Placement) (layout : Layout) : Option Placement := do
  let offset ← Layout.place? s.offset layout.align layout.size
  return { s with offset, align := max s.align layout.align }

/-- The layout of the finished record. -/
def finish (s : Placement) : Option Layout := do
  let size ← Layout.roundUp? (max s.offset 1) s.align
  return ⟨size, s.align⟩

end Placement

namespace Program

variable (p : Program)

/-- Whether the first non-virtual base has a table pointer to share. -/
def primaryBaseIsDynamic (bases : List BaseClass) : Bool :=
  ((bases.find? (!·.isVirtual)).bind fun base => p.completeRecord? base.type).any
    (·.facts.dynamic)

/-- The placement before any base: room for a table pointer where one is needed. -/
def startPlacement (parts : RecordParts) : Placement :=
  if parts.dynamic && !p.primaryBaseIsDynamic parts.bases then
    { offset := p.target.pointer.size, align := p.target.pointer.align }
  else {}

/-- Places a direct base. A virtual base is only noted, and an incomplete one takes no room. -/
def placeBase (s : Placement) (base : BaseClass) : Option Placement :=
  if base.isVirtual then
    some { s with
      virtualBases :=
        if base.type ∈ s.virtualBases then s.virtualBases else s.virtualBases ++ [base.type] }
  else
    match p.completeRecord? base.type with
    | none => some s
    | some r =>
      if r.facts.empty then
        if s.offset = 0 ∧ base.type ∉ s.emptyAtZero then
          some { s with
            align := max s.align r.layout.align
            emptyAtZero := base.type :: s.emptyAtZero }
        else s.place ⟨1, r.layout.align⟩
      else s.place r.layout

/-- Places a data member. One at offset zero that has the type of an empty base there moves
the end of the record on by its alignment. -/
def placeMember (s : Placement) (t : Ty) : Option Placement := do
  let layout ← p.memberLayout t
  let next ← s.place layout
  if s.offset = 0 ∧ t ∈ s.emptyAtZero then
    let offset ← Layout.fits? (next.offset + layout.align)
    return { next with offset }
  else return next

/-- Places a virtual base; an empty one takes no room. -/
def placeVirtualBase (s : Placement) (t : Ty) : Option Placement :=
  match p.completeRecord? t with
  | none => some s
  | some r =>
    if r.facts.empty then some { s with align := max s.align r.layout.align }
    else s.place r.layout

/-- Layout of a union: large enough for each member, aligned for all. -/
def layOutUnion (members : List Ty) : Option Layout := do
  let whole ← members.foldlM (fun (whole : Layout) t => do
    let layout ← p.memberLayout t
    return ⟨max whole.size layout.size, max whole.align layout.align⟩) ⟨0, 1⟩
  let size ← Layout.roundUp? (max whole.size 1) whole.align
  return ⟨size, whole.align⟩

/-- Layout of a record, or `none` when a member has no layout or the size is out of range. -/
def layOut (parts : RecordParts) : Option Layout :=
  if parts.isUnion then p.layOutUnion parts.members
  else do
    let s ← parts.bases.foldlM p.placeBase (p.startPlacement parts)
    let s ← parts.members.foldlM p.placeMember s
    let s ← s.virtualBases.foldlM p.placeVirtualBase s
    s.finish

/-- Whether deriving from a class adds no storage: a class that holds one `double` is as large
with the base as without. -/
def emptyProbe (t : Ty) : Bool :=
  match p.class? t with
  | none => false
  | some r =>
    let members := [Ty.builtin .double]
    let probe := p.layOut
      { isUnion := false, dynamic := r.facts.dynamic, bases := [⟨t.unqualified, .priv, false⟩],
        members }
    let plain := p.layOut { isUnion := false, dynamic := false, bases := [], members }
    match probe, plain with
    | some probe, some plain => probe.size == plain.size
    | _, _ => false

end Program

end TypeTraits
