import TypeTraits.Transform
import TypeTraits.Proofs.Ty.Levels

/-!
# Signed and unsigned counterparts

The ladders of signed and of unsigned integers have the same sizes rung by rung, so both searches
stop at the same rung, and one rung decides what either counterpart of a type is. Whatever the data
model, a type has both counterparts or none, and a counterpart has the counterparts that the type
itself has.
-/

namespace TypeTraits

namespace Signedness

variable {s s' : Signedness} {k : Builtin}

/-- The integer on the rung of the signed integer `k`. -/
def onRung (s : Signedness) (k : Builtin) : Builtin := (s.counterpart? k).getD k

theorem ladder_eq_map (s : Signedness) (wide : Bool) :
    s.ladder wide = (Builtin.signedLadder wide).map s.onRung := by
  cases s <;> cases wide <;> rfl

theorem layout_onRung (s : Signedness) (k : Builtin) (target : Target) :
    (s.onRung k).layout target = k.layout target := by
  cases s <;> cases k <;> rfl

/-- Both searches stop at the same rung. -/
theorem firstOfSize_ladder (s : Signedness) (target : Target) (wide : Bool) (size : Nat) :
    Builtin.firstOfSize target (s.ladder wide) size =
      (Builtin.firstOfSize target (Builtin.signedLadder wide) size).map s.onRung := by
  have hsizes : (fun k : Builtin => decide (size ≤ (k.layout target).size)) ∘ s.onRung =
      fun k => decide (size ≤ (k.layout target).size) :=
    funext fun k => by rw [Function.comp_apply, layout_onRung]
  rw [Builtin.firstOfSize, Builtin.firstOfSize, ladder_eq_map, List.find?_map, hsizes]

theorem counterpart?_onRung (s s' : Signedness) :
    ∀ k ∈ Builtin.signedLadder true, s'.counterpart? (s.onRung k) = some (s'.onRung k) := by
  cases s <;> cases s' <;> decide

theorem onRung_signed : ∀ k ∈ Builtin.signedLadder true, signed.onRung k = k := by decide

theorem isInteger_onRung (s : Signedness) :
    ∀ k ∈ Builtin.signedLadder true, (s.onRung k).isIntegral = true ∧ s.onRung k ≠ .bool := by
  cases s <;> decide

theorem isSigned_onRung (s : Signedness) (hk : k ∈ Builtin.signedLadder true) (target : Target) :
    (s.onRung k).isSigned target = (s == .signed) := by
  simp only [Builtin.signedLadder, if_true, List.cons_append, List.nil_append, List.mem_cons,
    List.not_mem_nil, or_false] at hk
  rcases hk with rfl | rfl | rfl | rfl | rfl | rfl <;> cases s <;> rfl

/-- The counterparts of a standard integer stand on one rung. -/
theorem counterpart?_eq_map (s : Signedness) (k : Builtin) :
    s.counterpart? k = (signed.counterpart? k).map s.onRung := by
  cases s <;> cases k <;> rfl

theorem mem_ladder_of_counterpart? {c : Builtin} (h : signed.counterpart? k = some c) :
    c ∈ Builtin.signedLadder true ∧ ∀ target, c.layout target = k.layout target := by
  cases k <;> cases h <;> exact ⟨by decide, fun _ => rfl⟩

end Signedness

namespace Program

open Signedness

variable {p : Program} {s : Signedness} {wide : Bool} {t r : Ty} {k c : Builtin}

/-- The size that an integer must have to be the counterpart of a type that has no rank. -/
def enumSize? (p : Program) (t : Ty) : Option Nat :=
  (p.enumOf? t).bind fun e => ((e.underlying p.target).builtin?).map fun k =>
    (k.layout p.target).size

/-- The rung of both counterparts, as the signed integer on it. -/
def rung? (p : Program) (wide : Bool) (t : Ty) : Option Builtin :=
  match t.unqualified.builtin? with
  | some k =>
    if !k.isIntegral || k == .bool then none
    else (signed.counterpart? k).or
      (Builtin.firstOfSize p.target (Builtin.signedLadder wide) (k.layout p.target).size)
  | none =>
    (p.enumSize? t.unqualified).bind
      (Builtin.firstOfSize p.target (Builtin.signedLadder wide))

theorem integerOfSize_eq_ok {size : Nat} {cv : Cv} :
    p.integerOfSize s wide size cv = .ok r ↔
      ∃ c, Builtin.firstOfSize p.target (Builtin.signedLadder wide) size = some c ∧
        r = (Ty.builtin (s.onRung c)).qualify cv := by
  rw [integerOfSize, firstOfSize_ladder]
  cases Builtin.firstOfSize p.target (Builtin.signedLadder wide) size with
  | none => simp
  | some c => simp [eq_comm]

/-- One rung decides what either counterpart is. -/
theorem makeSignedness_eq_ok :
    p.makeSignedness s wide t = .ok r ↔
      ∃ c, p.rung? wide t = some c ∧ r = (Ty.builtin (s.onRung c)).qualify t.cv := by
  simp only [makeSignedness, Ty.splitCv_eq, rung?, enumSize?]
  cases t.unqualified.builtin? with
  | some k =>
    dsimp only
    split
    · simp
    · rw [counterpart?_eq_map]
      cases signed.counterpart? k with
      | some c => simp [eq_comm]
      | none => exact integerOfSize_eq_ok
  | none =>
    cases p.enumOf? t.unqualified with
    | none => simp
    | some e =>
      dsimp only [Option.bind_some]
      cases (e.underlying p.target).builtin? with
      | none => simp
      | some k => exact integerOfSize_eq_ok

theorem mem_ladder_of_firstOfSize {size : Nat}
    (h : Builtin.firstOfSize p.target (Builtin.signedLadder wide) size = some c) :
    c ∈ Builtin.signedLadder true ∧ size ≤ (c.layout p.target).size := by
  have hlarge := List.find?_some (p := fun k : Builtin => size ≤ (k.layout p.target).size) h
  refine ⟨?_, of_decide_eq_true hlarge⟩
  have hmem := List.mem_of_find?_eq_some h
  cases wide
  · exact List.mem_append_left _ (by simpa [Builtin.signedLadder] using hmem)
  · exact hmem

/-- A rung leads to itself, from either side of it and whatever the qualification. -/
theorem rung?_onRung (hc : c ∈ Builtin.signedLadder true) (cv : Cv) :
    p.rung? wide ((Ty.builtin (s.onRung c)).qualify cv) = some c := by
  have hunqualified : ((Ty.builtin (s.onRung c)).qualify cv).unqualified = .builtin (s.onRung c) :=
    Ty.unqualified_qualify rfl
  have hkind : (Ty.builtin (s.onRung c)).builtin? = some (s.onRung c) := rfl
  obtain ⟨hintegral, hbool⟩ := isInteger_onRung s c hc
  simp [rung?, hunqualified, hkind, hintegral, hbool, counterpart?_onRung s .signed c hc,
    onRung_signed c hc]

/-- A type with a builtin kind is laid out as that kind, however it is qualified. -/
theorem layoutWithin_of_builtin? (hk : t.builtin? = some k) (fuel : Nat) :
    p.layoutWithin fuel t = some (some (k.layout p.target)) := by
  cases t with
  | qualified t cv =>
    cases t <;> simp [Ty.builtin?, Ty.core] at hk
    subst hk
    cases fuel <;> rfl
  | builtin k' =>
    cases hk
    cases fuel <;> rfl
  | _ => cases hk

theorem layoutOf_of_builtin? (hk : t.builtin? = some k) :
    p.layoutOf t = some (k.layout p.target) := by
  rw [layoutOf, layoutWithin_of_builtin? hk]
  rfl

/-- An enumeration over a builtin type is laid out as that type. -/
theorem layoutOf_of_enumOf? {e : Enumeration} (he : p.enumOf? t = some e)
    (hk : (e.underlying p.target).builtin? = some k) :
    p.layoutOf t = some (k.layout p.target) := by
  obtain ⟨id, hid, he⟩ := Option.bind_eq_some_iff.mp he
  have hstep : p.layoutStep (fun e => p.layoutWithin p.enums.size (e.underlying p.target))
      (.enum id) = some (some (k.layout p.target)) := by
    simp only [layoutStep, he, layoutWithin_of_builtin? hk]
  cases t with
  | qualified t cv =>
    cases t <;> simp [Ty.enumId?, Ty.core] at hid
    subst hid
    exact congrArg Option.join hstep
  | enum id' =>
    cases hid
    exact congrArg Option.join hstep
  | _ => cases hid

/-- The rung is one of the ladder, and its integers are at least as large as the type. -/
theorem mem_ladder_of_rung? (ht : t.isNormal = true) (h : p.rung? wide t = some c) :
    c ∈ Builtin.signedLadder true ∧
      ∃ l, p.layoutOf t = some l ∧ l.size ≤ (c.layout p.target).size := by
  rw [← layoutOf_unqualified ht]
  unfold rung? at h
  split at h
  · next k hk =>
    have hlayout := layoutOf_of_builtin? (p := p) hk
    split at h
    · cases h
    · rcases Option.or_eq_some_iff.mp h with hrank | ⟨-, hsize⟩
      · obtain ⟨hmem, hsame⟩ := mem_ladder_of_counterpart? hrank
        exact ⟨hmem, _, hlayout, by rw [hsame]⟩
      · obtain ⟨hmem, hle⟩ := mem_ladder_of_firstOfSize hsize
        exact ⟨hmem, _, hlayout, hle⟩
  · obtain ⟨size, hsize, hfirst⟩ := Option.bind_eq_some_iff.mp h
    obtain ⟨e, he, hsize⟩ := Option.bind_eq_some_iff.mp hsize
    obtain ⟨k, hk, rfl⟩ := Option.map_eq_some_iff.mp hsize
    obtain ⟨hmem, hle⟩ := mem_ladder_of_firstOfSize hfirst
    exact ⟨hmem, _, layoutOf_of_enumOf? he hk, hle⟩

/-- What a counterpart is: qualified as the type, an integer of the sign that was asked for, at
least as large, and with the counterparts of the type itself. -/
theorem counterpart_laws (ht : t.isNormal = true) (h : p.makeSignedness s wide t = .ok r) :
    r.cv = t.cv ∧ p.category r = .integral ∧ p.isSigned r = (s == .signed) ∧
      p.isUnsigned r = (s == .unsigned) ∧
      (∃ l l', p.layoutOf t = some l ∧ p.layoutOf r = some l' ∧ l.size ≤ l'.size) ∧
      ∀ s', p.makeSignedness s' wide r = p.makeSignedness s' wide t := by
  obtain ⟨c, hrung, rfl⟩ := makeSignedness_eq_ok.mp h
  obtain ⟨hc, l, hlayout, hsize⟩ := mem_ladder_of_rung? ht hrung
  obtain ⟨hintegral, -⟩ := isInteger_onRung s c hc
  have hnormal : (Ty.builtin (s.onRung c)).isNormal = true := rfl
  have hcv : ((Ty.builtin (s.onRung c)).qualify t.cv).cv = t.cv :=
    (Ty.cv_qualify rfl).trans (Cv.empty_union t.cv)
  obtain ⟨hkind, hcategory⟩ :
      ((Ty.builtin (s.onRung c)).qualify t.cv).builtin? = some (s.onRung c) ∧
        p.category ((Ty.builtin (s.onRung c)).qualify t.cv) =
          p.category (.builtin (s.onRung c)) := by
    unfold Ty.qualify
    split <;> exact ⟨rfl, rfl⟩
  refine ⟨hcv, ?_, ?_, ?_, ⟨l, c.layout p.target, hlayout, ?_, hsize⟩, ?_⟩
  · rw [hcategory, category]
    simpa [Builtin.isIntegral] using hintegral
  · rw [isSigned, hkind, Option.any_some, isSigned_onRung s hc]
  · rw [isUnsigned, hkind, Option.any_some, isSigned_onRung s hc, hintegral]
    cases s <;> rfl
  · rw [← layoutOf_unqualified (Ty.isNormal_qualify hnormal), Ty.unqualified_qualify hnormal,
      ← layout_onRung s c]
    rfl
  · intro s'
    have hagain : p.makeSignedness s' wide t = .ok ((Ty.builtin (s'.onRung c)).qualify t.cv) :=
      makeSignedness_eq_ok.mpr ⟨c, hrung, rfl⟩
    rw [hagain, makeSignedness_eq_ok, hcv]
    exact ⟨c, rung?_onRung hc t.cv, rfl⟩

/-- On every target, and with or without 128-bit integers, a type has a signed counterpart exactly
if it has an unsigned one. Each is qualified as the type, has the sign that was asked for, is at
least as large as the type, and has the counterparts of the type. -/
theorem counterparts_agree (p : Program) (wide : Bool) (ht : t.IsFormed) :
    ((∃ r, p.makeSigned wide t = .ok r) ↔ ∃ r, p.makeUnsigned wide t = .ok r) ∧
    ∀ s r, p.makeSignedness s wide t = .ok r →
      r.cv = t.cv ∧ p.category r = .integral ∧ p.isSigned r = (s == .signed) ∧
        p.isUnsigned r = (s == .unsigned) ∧
        (∃ l l', p.layoutOf t = some l ∧ p.layoutOf r = some l' ∧ l.size ≤ l'.size) ∧
        ∀ s', p.makeSignedness s' wide r = p.makeSignedness s' wide t := by
  refine ⟨?_, fun s r h => counterpart_laws (Ty.isFormed_iff_isNormal.mp ht) h⟩
  have hsome : ∀ s : Signedness, (∃ r, p.makeSignedness s wide t = .ok r) ↔
      ∃ c, p.rung? wide t = some c := by
    intro s
    constructor
    · rintro ⟨r, h⟩
      obtain ⟨c, hc, -⟩ := makeSignedness_eq_ok.mp h
      exact ⟨c, hc⟩
    · rintro ⟨c, hc⟩
      exact ⟨_, makeSignedness_eq_ok.mpr ⟨c, hc, rfl⟩⟩
  exact (hsome .signed).trans (hsome .unsigned).symm

/-- A target whose `int` is larger than its `long`, with an enumeration of wide characters. -/
def wideIntegers : Program where
  target := { Target.lp64 with int := .natural 8, long := .natural 4 }
  enums := #[⟨⟨1⟩, "Glyph", true, some (.qualified (.builtin .char32) .const), 0, 9⟩]

/-- The enumeration has the size of `long`, but `int` comes first. -/
theorem counterparts_agree_wideIntegers :
    let t := (Ty.enum ⟨1⟩).qualify .volatile
    t.IsFormed ∧
      wideIntegers.makeUnsigned false t = .ok ((Ty.builtin .unsignedInt).qualify .volatile) ∧
      wideIntegers.makeSigned false ((Ty.builtin .unsignedInt).qualify .volatile) =
        wideIntegers.makeSigned false t := by
  intro t
  have ht : t.IsFormed := .qualify _ (.enum _)
  have hunsigned :
      wideIntegers.makeUnsigned false t = .ok ((Ty.builtin .unsignedInt).qualify .volatile) := by
    rfl
  exact ⟨ht, hunsigned,
    ((counterparts_agree wideIntegers false ht).2 .unsigned _ hunsigned).2.2.2.2.2 .signed⟩

end Program
end TypeTraits
