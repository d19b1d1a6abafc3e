import TypeTraits.Config.TargetText
import TypeTraits.Proofs.Layout.Placement
import TypeTraits.Proofs.Program.Store

/-!
# The layout of objects

Where the scalar types have powers of two as their alignments, as on a target that a text describes,
all types have, if the complete records have. A type that has a layout keeps it: complete records
and enumerations stay as they are, and there are only more enumerations to go through.
-/

namespace TypeTraits

namespace Target

/-- Whether some text describes the target. -/
def IsDescribed (target : Target) : Prop := ∃ text, ofText text = .ok target

variable {target : Target}

/-- A description of the 64-bit Unix-like target, its fields in order. -/
def lp64Text : String :=
  "[\"lp64\",true,true,[1,1],[1,1],[4,4],[2,2],[4,4],[2,2],[4,4],[8,8],[8,8],[16,16],[4,4],"
    ++ "[8,8],[16,16],[8,8],[8,8],[16,8],16]"

theorem ofText_lp64Text : (ofText lp64Text).toOption = some lp64 := by decide +kernel

theorem isDescribed_of_toOption {text : String} (h : (ofText text).toOption = some target) :
    target.IsDescribed := by
  refine ⟨text, ?_⟩
  cases hresult : ofText text with
  | error e => simp [hresult, Except.toOption] at h
  | ok described => simpa [hresult, Except.toOption] using h

theorem isDescribed_lp64 : lp64.IsDescribed := isDescribed_of_toOption ofText_lp64Text

/-- A text is taken as a target if it describes one that is usable. -/
theorem ofText_eq_ok {text : String} : ofText text = .ok target ↔
    (Text.Json.ofText? text).bind Config.readTarget = some target ∧
      Config.unusableField? target = none := by
  unfold ofText
  cases Text.Json.ofText? text with
  | none => simp
  | some value =>
    rw [Option.bind_some]
    dsimp only
    unfold ofJson
    cases Config.readTarget value with
    | none => simp
    | some read =>
      rw [Option.some.injEq]
      dsimp only
      constructor
      · intro h
        split at h
        · cases h
        · next hnone =>
          cases h
          exact ⟨rfl, hnone⟩
      · rintro ⟨rfl, hnone⟩
        rw [hnone]

theorem IsDescribed.unusableField? (h : target.IsDescribed) :
    Config.unusableField? target = none := by
  obtain ⟨text, h⟩ := h
  exact (ofText_eq_ok.1 h).2

/-- The layouts of the scalar types. -/
def scalarLayouts (target : Target) : List Layout := (Config.namedLayouts target).map (·.2)

/-- On a target that a text describes no scalar size is zero, and alignments are powers of two. -/
theorem IsDescribed.isUsable (h : target.IsDescribed) {l : Layout} (hl : l ∈ target.scalarLayouts) :
    0 < l.size ∧ l.align.isPowerOfTwo := by
  obtain ⟨named, hmem, rfl⟩ := List.mem_map.mp hl
  have hnone := h.unusableField?
  rw [Config.unusableField?] at hnone
  split at hnone
  · cases hnone
  · next hfind =>
    have husable := List.find?_eq_none.mp hfind named hmem
    simp only [Config.isUsableLayout, Bool.not_eq_true, Bool.not_eq_false', Bool.and_eq_true,
      bne_iff_ne, Layout.isPowerOfTwo_iff] at husable
    exact ⟨Nat.pos_of_ne_zero husable.1, husable.2⟩

theorem IsDescribed.builtin (h : target.IsDescribed) (k : Builtin) :
    0 < (k.layout target).size ∧ (k.layout target).align.isPowerOfTwo :=
  h.isUsable (by cases k <;> simp [scalarLayouts, Config.namedLayouts, Builtin.layout])

theorem IsDescribed.pointer (h : target.IsDescribed) :
    0 < target.pointer.size ∧ target.pointer.align.isPowerOfTwo :=
  h.isUsable (by simp [scalarLayouts, Config.namedLayouts])

/-- Whether the alignments of the scalar types are powers of two. -/
def AlignsScalars (target : Target) : Prop := ∀ l ∈ target.scalarLayouts, l.align.isPowerOfTwo

theorem IsDescribed.alignsScalars (h : target.IsDescribed) : target.AlignsScalars :=
  fun _ hl => (h.isUsable hl).2

theorem AlignsScalars.builtin (h : target.AlignsScalars) (k : Builtin) :
    (k.layout target).align.isPowerOfTwo :=
  h _ (by cases k <;> simp [scalarLayouts, Config.namedLayouts, Builtin.layout])

theorem AlignsScalars.pointer (h : target.AlignsScalars) : target.pointer.align.isPowerOfTwo :=
  h _ (by simp [scalarLayouts, Config.namedLayouts])

theorem AlignsScalars.memberDataPointer (h : target.AlignsScalars) :
    target.memberDataPointer.align.isPowerOfTwo :=
  h _ (by simp [scalarLayouts, Config.namedLayouts])

theorem AlignsScalars.memberFunctionPointer (h : target.AlignsScalars) :
    target.memberFunctionPointer.align.isPowerOfTwo :=
  h _ (by simp [scalarLayouts, Config.namedLayouts])

end Target

namespace Program

variable {p q : Program} {underlying underlying' : Enumeration → Option (Option Layout)}

/-- An array has a layout where its elements have one, its length is known and its size is in
range. -/
theorem layoutStep_array {t : Ty} {b : Option Nat} {l : Layout} :
    p.layoutStep underlying (.array t b) = some (some l) ↔
      ∃ inner n, p.layoutStep underlying t = some (some inner) ∧ b = some n ∧
        inner.size * n < Layout.limit ∧ ⟨inner.size * n, inner.align⟩ = l := by
  simp only [layoutStep, Option.bind_eq_bind, Option.pure_def, Option.bind_eq_some_iff,
    Option.some.injEq, Layout.fits?_eq_some_iff]
  constructor
  · rintro ⟨_, hinner, inner, rfl, n, rfl, _, ⟨rfl, hlt⟩, rfl⟩
    exact ⟨inner, n, hinner, rfl, hlt, rfl⟩
  · rintro ⟨inner, n, hinner, rfl, hlt, rfl⟩
    exact ⟨_, hinner, inner, rfl, n, rfl, _, ⟨rfl, hlt⟩, rfl⟩

section Alignment

/-- Whether every complete record has a power of two as its alignment. -/
def AlignsRecords (p : Program) : Prop :=
  ∀ id r, p.record? id = some r → r.complete = true → r.layout.align.isPowerOfTwo

theorem isPowerOfTwo_layoutStep (htarget : p.target.AlignsScalars) (hrecords : p.AlignsRecords)
    (hunderlying : ∀ e l, underlying e = some (some l) → l.align.isPowerOfTwo) {t : Ty} {l : Layout}
    (h : p.layoutStep underlying t = some (some l)) : l.align.isPowerOfTwo := by
  induction t using Ty.inductionOn generalizing l with
  | qualified t cv ih =>
    cases t with
    | qualified _ _ | lvalueRef _ | rvalueRef _ => cases h
    | _ => exact ih h
  | lvalueRef t ih | rvalueRef t ih => exact ih h
  | array t b ih =>
    obtain ⟨inner, n, hinner, -, -, rfl⟩ := layoutStep_array.mp h
    exact @ih inner hinner
  | builtin k =>
    cases h
    exact htarget.builtin k
  | nullptr | pointer t =>
    cases h
    exact htarget.pointer
  | memberPointer c t =>
    rw [layoutStep, Option.some.injEq] at h
    split at h <;> cases h
    · exact htarget.memberFunctionPointer
    · exact htarget.memberDataPointer
  | enum id =>
    rw [layoutStep] at h
    split at h
    · exact hunderlying _ _ h
    · cases h
  | record id =>
    rw [layoutStep, Option.some.injEq, Option.map_eq_some_iff] at h
    obtain ⟨r, hr, rfl⟩ := h
    obtain ⟨hr, hc⟩ := Option.filter_eq_some_iff.mp hr
    exact hrecords id r hr hc
  | void | function _ _ _ | functionNamed _ | unknown _ => cases h

theorem isPowerOfTwo_layoutWithin (htarget : p.target.AlignsScalars) (hrecords : p.AlignsRecords)
    {fuel : Nat} {t : Ty} {l : Layout} (h : p.layoutWithin fuel t = some (some l)) :
    l.align.isPowerOfTwo := by
  induction fuel generalizing t l with
  | zero => exact isPowerOfTwo_layoutStep htarget hrecords (by simp) h
  | succ fuel ih => exact isPowerOfTwo_layoutStep htarget hrecords (fun e l he => ih he) h

theorem isPowerOfTwo_memberLayout (htarget : p.target.AlignsScalars) (hrecords : p.AlignsRecords)
    {t : Ty} {l : Layout} (h : p.memberLayout t = some l) : l.align.isPowerOfTwo := by
  rw [memberLayout] at h
  split at h
  · cases h
    exact htarget.pointer
  · exact isPowerOfTwo_layoutWithin htarget hrecords (Option.join_eq_some_iff.mp h)

end Alignment

section Growth

theorem Continues.layoutStep (hpq : p.Continues q)
    (hunderlying : ∀ e l, underlying e = some (some l) → underlying' e = some (some l)) {t : Ty}
    {l : Layout} (h : p.layoutStep underlying t = some (some l)) :
    q.layoutStep underlying' t = some (some l) := by
  induction t using Ty.inductionOn generalizing l with
  | qualified t cv ih =>
    cases t with
    | qualified _ _ | lvalueRef _ | rvalueRef _ => cases h
    | _ => exact ih h
  | lvalueRef t ih | rvalueRef t ih => exact ih h
  | array t b ih =>
    obtain ⟨inner, n, hinner, h⟩ := layoutStep_array.mp h
    exact layoutStep_array.mpr ⟨inner, n, ih hinner, h⟩
  | builtin k | nullptr | pointer t | memberPointer c t =>
    rw [Program.layoutStep] at h ⊢
    rw [hpq.target, h]
  | enum id =>
    rw [Program.layoutStep] at h ⊢
    split at h
    · next e he =>
      rw [hpq.enum? he]
      exact hunderlying e l h
    · cases h
  | record id =>
    rw [Program.layoutStep, Option.some.injEq, Option.map_eq_some_iff] at h ⊢
    obtain ⟨r, hr, rfl⟩ := h
    obtain ⟨hr, hc⟩ := Option.filter_eq_some_iff.mp hr
    exact ⟨r, Option.filter_eq_some_iff.mpr ⟨hpq.record id r hr hc, hc⟩, rfl⟩
  | void | function _ _ _ | functionNamed _ | unknown _ => cases h

theorem Continues.layoutWithin (hpq : p.Continues q) {fuel fuel' : Nat} (hfuel : fuel ≤ fuel')
    {t : Ty} {l : Layout} (h : p.layoutWithin fuel t = some (some l)) :
    q.layoutWithin fuel' t = some (some l) := by
  induction fuel generalizing fuel' t l with
  | zero => cases fuel' <;> exact hpq.layoutStep (by simp) h
  | succ fuel ih =>
    obtain ⟨fuel', rfl⟩ := Nat.exists_eq_add_one_of_ne_zero (show fuel' ≠ 0 by omega)
    refine hpq.layoutStep (fun e l he => ?_) h
    rw [hpq.target]
    exact ih (by omega) he

/-- A type that has a layout keeps it as the program goes on. -/
theorem Continues.layoutOf (hpq : p.Continues q) {t : Ty} {l : Layout}
    (h : p.layoutOf t = some l) : q.layoutOf t = some l := by
  have hsize := hpq.enums.length_le
  simp only [Array.length_toList] at hsize
  exact Option.join_eq_some_iff.mpr
    (hpq.layoutWithin (Nat.add_le_add_right hsize 1) (Option.join_eq_some_iff.mp h))

theorem Continues.memberLayout (hpq : p.Continues q) {t : Ty} {l : Layout}
    (h : p.memberLayout t = some l) : q.memberLayout t = some l := by
  rw [Program.memberLayout] at h ⊢
  split at h
  · next href => rw [if_pos href, hpq.target, h]
  · next href => rw [if_neg href, hpq.layoutOf h]

end Growth

end Program

end TypeTraits
