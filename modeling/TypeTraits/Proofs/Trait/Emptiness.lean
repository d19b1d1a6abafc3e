import TypeTraits.Proofs.Record.Layout
import TypeTraits.Trait.Property

/-!
# The two ways to ask whether a class is empty

A compiler knows whether a class is empty from its declaration; a program measures whether deriving
from the class adds a byte. An empty base shares the place of the first member, a base that is not
empty pushes that member past its alignment, so where a class can be measured at all the two agree,
and no choice of intrinsics changes the answer.
-/

namespace TypeTraits

namespace Placement

open Layout

variable {s : Placement} {l layout : Layout}

/-- Placing one more object and finishing asks for nothing but the offset and the alignment. -/
theorem finish_place (s s' : Placement) (l : Layout) (hoffset : s.offset = s'.offset)
    (halign : s.align = s'.align) : (s.place l).bind finish = (s'.place l).bind finish := by
  rw [place, place, hoffset, halign]
  cases place? s'.offset l.align l.size <;> rfl

theorem finish_place_eq_some (h : (s.place l).bind finish = some layout) :
    layout.size = roundUp (max (roundUp s.offset l.align + l.size) 1) (max s.align l.align) := by
  obtain ⟨s', hplace, h⟩ := Option.bind_eq_some_iff.1 h
  rw [finish_eq_some h, place_eq_some hplace]

end Placement

namespace Program

open Layout Placement

variable {p : Program}

/-- The parts of a class that holds one `double`, and perhaps derives from others. -/
def holdingDouble (dynamic : Bool) (bases : List BaseClass) : RecordParts :=
  { isUnion := false, dynamic, bases, members := [.builtin .double] }

/-- The base of a class that measures whether another is empty. -/
def probeBase (t : Ty) : BaseClass := ⟨t.unqualified, .priv, false⟩

theorem layOut_holdingDouble {dynamic : Bool} {bases : List BaseClass} {s : Placement}
    (hbases : bases.foldlM p.placeBase (p.startPlacement (holdingDouble dynamic bases)) = some s)
    (hmember : .builtin .double ∉ s.emptyAtZero) (hvirtual : s.virtualBases = []) :
    p.layOut (holdingDouble dynamic bases) = (s.place p.target.double).bind finish := by
  have hplace : p.placeMember s (.builtin .double) = s.place p.target.double := by
    have hl : p.memberLayout (.builtin .double) = some p.target.double := rfl
    simp only [placeMember, hl, Option.bind_eq_bind, Option.bind_some, hmember, and_false, if_false,
      Option.pure_def, Option.bind_fun_some]
  rw [layOut, if_neg (by simp [holdingDouble]), show (holdingDouble dynamic bases).bases = bases from rfl,
    hbases]
  simp only [holdingDouble, List.foldlM_cons, List.foldlM_nil, hplace, Option.bind_eq_bind,
    Option.bind_some, Option.pure_def, Option.bind_fun_some]
  cases hnext : s.place p.target.double with
  | none => rfl
  | some next =>
    have hnone : next.virtualBases = [] := by rw [place_eq_some hnext, hvirtual]
    simp only [Option.bind_some, hnone, List.foldlM_nil, Option.pure_def]

theorem layOut_holdingDouble_nil :
    p.layOut (holdingDouble false []) = (({} : Placement).place p.target.double).bind finish :=
  layOut_holdingDouble rfl (by simp) rfl

section Probe

variable {t : Ty} {r : Record} (hr : p.completeRecord? t.unqualified = some r)

include hr

/-- The probe shares the table pointer of its base. -/
theorem startPlacement_probe :
    p.startPlacement (holdingDouble r.facts.dynamic [probeBase t]) = {} := by
  have hprimary : p.primaryBaseIsDynamic [probeBase t] = r.facts.dynamic := by
    simp [primaryBaseIsDynamic, probeBase, hr]
  rw [startPlacement, holdingDouble, hprimary]
  exact if_neg (by simp)

/-- Deriving from an empty class leaves the layout as it is. -/
theorem layOut_probe_of_empty (hempty : r.facts.empty = true) (halign : r.layout.align = 1) :
    p.layOut (holdingDouble r.facts.dynamic [probeBase t]) = p.layOut (holdingDouble false []) := by
  obtain ⟨id, hid, -⟩ := completeRecord?_eq_some.1 hr
  let s : Placement := { emptyAtZero := [t.unqualified] }
  have hplaced : p.placeBase {} (probeBase t) = some s := by
    rw [placeBase, if_neg (by simp [probeBase]), probeBase]
    simp only [hr, hempty, halign, if_true]
    rfl
  have hmember : .builtin .double ∉ s.emptyAtZero := by
    intro hmem
    rw [← List.mem_singleton.1 hmem] at hid
    cases hid
  rw [layOut_holdingDouble (s := s) ?_ hmember rfl, layOut_holdingDouble_nil]
  · exact finish_place s {} _ rfl rfl
  · rw [startPlacement_probe hr, List.foldlM_cons, hplaced]
    rfl

/-- Deriving from a class that is not empty adds to the size: the member that follows starts at its
alignment at the earliest, and less than the alignment is filled up at the end. -/
theorem size_probe_of_not_empty (htarget : p.target.IsDescribed) (hempty : r.facts.empty = false)
    (hsize : 0 < r.layout.size) {probe plain : Layout}
    (hprobe : p.layOut (holdingDouble r.facts.dynamic [probeBase t]) = some probe)
    (hplain : p.layOut (holdingDouble false []) = some plain) : plain.size < probe.size := by
  obtain ⟨hpos, haligned⟩ := htarget.builtin .double
  have halign := Nat.pos_of_isPowerOfTwo haligned
  change 0 < p.target.double.size at hpos
  change 0 < p.target.double.align at halign
  have hplaced : p.placeBase {} (probeBase t) = ({} : Placement).place r.layout := by
    rw [placeBase, if_neg (by simp [probeBase]), probeBase]
    simp only [hr, hempty, Bool.false_eq_true, if_false]
  cases hs : ({} : Placement).place r.layout with
  | none =>
    rw [layOut, if_neg (by simp [holdingDouble]), startPlacement_probe hr] at hprobe
    simp [holdingDouble, hplaced, hs] at hprobe
  | some s =>
    have hoffset := place_eq_some hs
    rw [layOut_holdingDouble (s := s) ?_ (by simp [hoffset]) (by simp [hoffset])] at hprobe
    · rw [layOut_holdingDouble_nil] at hplain
      have hmoved : 0 < s.offset := by
        rw [hoffset]
        simpa using hsize
      -- At most this is filled up without the base; at least that is added by it.
      have hlow := roundUp_lt (max p.target.double.size 1) (max 1 p.target.double.align)
      have hstart := align_le_roundUp hmoved p.target.double.align
      have hhigh := le_roundUp
        (max (roundUp s.offset p.target.double.align + p.target.double.size) 1)
        (max s.align p.target.double.align)
      rw [finish_place_eq_some hprobe, finish_place_eq_some hplain]
      simp only [roundUp_zero, Nat.zero_add]
      omega
    · rw [startPlacement_probe hr, List.foldlM_cons, hplaced, hs]
      rfl

end Probe

theorem emptyProbe_eq_any {t : Ty} {r : Record} (hr : p.class? t = some r) {plain : Layout}
    (hplain : p.layOut (holdingDouble false []) = some plain) :
    p.emptyProbe t = (p.layOut (holdingDouble r.facts.dynamic [probeBase t])).any
      (·.size == plain.size) := by
  rw [holdingDouble] at hplain
  simp only [emptyProbe, hr, holdingDouble, probeBase, hplain]
  cases p.layOut _ <;> rfl

/-- Where a class can be measured, the measure is right. -/
theorem emptyProbe_eq (htarget : p.target.IsDescribed)
    (hdouble : (p.layOut (holdingDouble false [])).isSome) {t : Ty} {r : Record}
    (hr : p.class? t = some r) (hsize : 0 < r.layout.size)
    (hempty : r.facts.empty = true → r.layout.align = 1) : p.emptyProbe t = r.facts.empty := by
  obtain ⟨plain, hplain⟩ := Option.isSome_iff_exists.1 hdouble
  have hrecord : p.completeRecord? t.unqualified = some r := by
    obtain ⟨id, hid, hr, hc, -⟩ := class?_eq_some.1 hr
    rw [Ty.unqualified_of_recordId? hid]
    exact completeRecord?_eq_some.2 ⟨id, rfl, hr, hc⟩
  rw [emptyProbe_eq_any hr hplain]
  cases hfact : r.facts.empty with
  | true =>
    rw [layOut_probe_of_empty hrecord hfact (hempty hfact), hplain]
    exact beq_self_eq_true _
  | false =>
    cases hderived : p.layOut (holdingDouble r.facts.dynamic [probeBase t]) with
    | none => rfl
    | some probe =>
      have hlt := size_probe_of_not_empty hrecord htarget hfact hsize hderived hplain
      exact beq_eq_false_iff_ne.2 (Nat.ne_of_gt hlt)

/-- What the declaration of a type tells of its being empty. -/
def isEmptyClass (p : Program) (t : Ty) : Bool :=
  (p.completeRecord? t).any fun r => !r.isUnion && r.facts.empty

theorem isEmptyClass_of_class? {t : Ty} {r : Record} (hr : p.class? t = some r) :
    p.isEmptyClass t = r.facts.empty := by
  obtain ⟨hr, hunion⟩ := Option.filter_eq_some_iff.1 hr
  rw [isEmptyClass, hr, Option.any_some, hunion, Bool.true_and]

theorem isEmptyClass_of_class?_eq_none {t : Ty} (hr : p.class? t = none) :
    p.isEmptyClass t = false := by
  rw [isEmptyClass, Option.any_eq_false]
  intro r hcomplete
  simp [Option.filter_eq_none_iff.1 hr r hcomplete]

/-- The provider answers what the declaration tells, or nothing about an incomplete class. -/
theorem introspection_isEmpty (p : Program) (t : Ty) :
    Introspection.isEmpty p t = none ∨ Introspection.isEmpty p t = some (p.isEmptyClass t) := by
  rw [Introspection.isEmpty, Introspection.classFact, isEmptyClass, completeRecord?]
  cases p.recordOf? t with
  | none => exact .inr rfl
  | some r => cases hc : r.complete <;> simp [hc, Option.filter_some]

end Program

namespace Development

open Program

variable {d : Development}

/-- The two ways to ask whether a class is empty agree: on a target that a text describes and on
which a class with one `double` has a layout, what the declaration of a type tells is what deriving
from the type shows, and what every solver answers. -/
theorem emptiness_agrees (h : d.Reachable) (htarget : d.program.target.IsDescribed)
    (hdouble : (d.program.layOut
      { isUnion := false, dynamic := false, bases := [], members := [.builtin .double] }).isSome)
    (t : Ty) :
    ((d.program.completeRecord? t).any fun r => !r.isUnion && r.facts.empty) =
        ((d.program.class? t).isSome && d.program.emptyProbe t) ∧
      ∀ s : Solver, s.program = d.program →
        s.isEmpty t = (d.program.completeRecord? t).any fun r => !r.isUnion && r.facts.empty := by
  have hagree : d.program.isEmptyClass t =
      ((d.program.class? t).isSome && d.program.emptyProbe t) := by
    cases hr : d.program.class? t with
    | none => exact isEmptyClass_of_class?_eq_none hr
    | some r =>
      obtain ⟨id, -, hrecord, hc, -⟩ := class?_eq_some.1 hr
      have hlaid := h.isLaidOut htarget id r hrecord hc
      rw [isEmptyClass_of_class? hr, emptyProbe_eq htarget hdouble hr hlaid.size_pos
        fun hempty => (hlaid.empty hempty).2]
      rfl
  refine ⟨hagree, fun s hs => ?_⟩
  change s.isEmpty t = d.program.isEmptyClass t
  rw [Solver.isEmpty, Solver.intrinsic, Solver.ask, hs, ← hagree]
  obtain hnone | hsome := d.program.introspection_isEmpty t
  · simp [hnone]
  · rw [hsome]
    split
    · split <;> rfl
    · rfl

/-- An empty class and one that holds objects, as every solver sees them. -/
theorem emptiness_agrees_shapes : shapes.Reachable ∧ shapes.program.target.IsDescribed ∧
    ∀ s : Solver, s.program = shapes.program →
      s.isEmpty (.qualified (.record ⟨1⟩) .const) = true ∧ s.isEmpty (.record ⟨2⟩) = false := by
  have hlp64 : shapes.program.target = .lp64 := by decide +kernel
  have htarget : shapes.program.target.IsDescribed := hlp64 ▸ Target.isDescribed_lp64
  have hdouble : (shapes.program.layOut
      { isUnion := false, dynamic := false, bases := [], members := [.builtin .double] }).isSome := by
    decide +kernel
  refine ⟨reachable_shapes, htarget, fun s hs => ⟨?_, ?_⟩⟩
  · rw [(emptiness_agrees reachable_shapes htarget hdouble _).2 s hs]
    decide +kernel
  · rw [(emptiness_agrees reachable_shapes htarget hdouble _).2 s hs]
    decide +kernel

end Development

end TypeTraits
