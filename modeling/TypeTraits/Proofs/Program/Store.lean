import TypeTraits.Record.Draft

/-!
# What declaring and defining do to a program

Declaring a record adds an incomplete one under a new number, defining replaces the record of one
number, and declaring an enumeration leaves every record as it is. A program extends another when
it keeps the target and the complete records of the other; it continues the other when it keeps the enumerations as well.
-/

namespace TypeTraits
namespace Program

variable {p : Program}

theorem record?_lt {id : RecordId} {r : Record} (h : p.record? id = some r) :
    0 < id.index ∧ id.index ≤ p.records.size := by
  unfold record? at h
  split at h
  · simp at h
  · obtain ⟨hlt, _⟩ := Array.getElem?_eq_some_iff.mp h
    omega

theorem enum?_lt {id : EnumId} {e : Enumeration} (h : p.enum? id = some e) :
    0 < id.index ∧ id.index ≤ p.enums.size := by
  unfold enum? at h
  split at h
  · simp at h
  · obtain ⟨hlt, _⟩ := Array.getElem?_eq_some_iff.mp h
    omega

theorem record?_declareRecord (name : String) (key : ClassKey) (id : RecordId) :
    (p.declareRecord name key).1.record? id =
      if id = ⟨p.records.size + 1⟩ then some { id := ⟨p.records.size + 1⟩, name, key }
      else p.record? id := by
  obtain ⟨n⟩ := id
  simp only [declareRecord, record?, RecordId.mk.injEq, Array.getElem?_push]
  by_cases h0 : n = 0
  · simp [h0]
  · have hiff : n - 1 = p.records.size ↔ n = p.records.size + 1 := by omega
    simp [h0, hiff]

theorem record?_declareRecord_of_record? {name : String} {key : ClassKey} {id : RecordId}
    {r : Record} (h : p.record? id = some r) :
    (p.declareRecord name key).1.record? id = some r := by
  have hlt := record?_lt h
  rw [record?_declareRecord, if_neg, h]
  rintro rfl
  exact absurd hlt.2 (by simp)

@[simp] theorem record?_declareEnum (e : Enumeration) (id : RecordId) :
    (p.declareEnum e).1.record? id = p.record? id := rfl

theorem record?_defineRecord {r : Record} (h : (p.record? r.id).isSome) (id : RecordId) :
    (p.defineRecord r).record? id = if id = r.id then some r else p.record? id := by
  obtain ⟨old, hold⟩ := Option.isSome_iff_exists.mp h
  have hlt := record?_lt hold
  have hn : r.id.index ≠ 0 := by omega
  simp only [defineRecord, hn, if_false, record?, Array.getElem?_setIfInBounds]
  by_cases hid : id = r.id
  · subst hid
    have hb : r.id.index - 1 < p.records.size := by omega
    simp [hn, hb]
  · by_cases h0 : id.index = 0
    · simp [h0, hid]
    · have hne : r.id.index - 1 ≠ id.index - 1 := by
        intro heq
        have hindex : id.index = r.id.index := by omega
        obtain ⟨n⟩ := id
        exact hid (by rw [show n = r.id.index from hindex])
      simp [h0, hid, hne]

/-- A later state of the same program: complete records stay as they are. -/
structure Extends (p q : Program) : Prop where
  target : q.target = p.target
  record : ∀ id r, p.record? id = some r → r.complete = true → q.record? id = some r

theorem Extends.refl (p : Program) : p.Extends p := ⟨rfl, fun _ _ h _ => h⟩

theorem Extends.trans {p q s : Program} (hpq : p.Extends q) (hqs : q.Extends s) : p.Extends s :=
  ⟨hqs.target.trans hpq.target, fun id r h hc => hqs.record id r (hpq.record id r h hc) hc⟩

/-- Defining a record that is not complete yet replaces no complete one. -/
theorem extends_defineRecord {r : Record}
    (h : ∃ old, p.record? r.id = some old ∧ old.complete = false) :
    p.Extends (p.defineRecord r) where
  target := by
    unfold defineRecord
    split <;> rfl
  record id s hs hc := by
    obtain ⟨old, hold, hincomplete⟩ := h
    rw [record?_defineRecord (by simp [hold]), if_neg, hs]
    rintro rfl
    cases hold.symm.trans hs
    simp [hc] at hincomplete

theorem completeRecord?_eq_some {t : Ty} {r : Record} : p.completeRecord? t = some r ↔
    ∃ id, t.recordId? = some id ∧ p.record? id = some r ∧ r.complete = true := by
  simp only [completeRecord?, recordOf?, Option.filter_eq_some_iff, Option.bind_eq_some_iff]
  constructor
  · rintro ⟨⟨id, hid, hr⟩, hc⟩
    exact ⟨id, hid, hr, hc⟩
  · rintro ⟨id, hid, hr, hc⟩
    exact ⟨⟨id, hid, hr⟩, hc⟩

theorem class?_eq_some {t : Ty} {r : Record} :
    p.class? t = some r ↔ ∃ id, t.recordId? = some id ∧ p.record? id = some r ∧
      r.complete = true ∧ r.isUnion = false := by
  simp only [class?, Option.filter_eq_some_iff, completeRecord?_eq_some, Bool.not_eq_true']
  constructor
  · rintro ⟨⟨id, hid, hr, hcomplete⟩, hunion⟩
    exact ⟨id, hid, hr, hcomplete, hunion⟩
  · rintro ⟨id, hid, hr, hcomplete, hunion⟩
    exact ⟨⟨id, hid, hr, hcomplete⟩, hunion⟩

theorem Extends.completeRecord? {q : Program} (hpq : p.Extends q) {t : Ty} {r : Record}
    (h : p.completeRecord? t = some r) : q.completeRecord? t = some r := by
  obtain ⟨id, hid, hr, hc⟩ := completeRecord?_eq_some.mp h
  exact completeRecord?_eq_some.mpr ⟨id, hid, hpq.record id r hr hc, hc⟩

theorem Extends.class? {q : Program} (hpq : p.Extends q) {t : Ty} {r : Record}
    (h : p.class? t = some r) : q.class? t = some r := by
  obtain ⟨id, hid, hr, hc, hunion⟩ := class?_eq_some.mp h
  exact class?_eq_some.mpr ⟨id, hid, hpq.record id r hr hc, hc, hunion⟩

/-- A later state of the same program: declared enumerations stay as they are, too. -/
structure Continues (p q : Program) : Prop extends p.Extends q where
  enums : p.enums.toList <+: q.enums.toList

theorem Continues.enum? {q : Program} (hpq : p.Continues q) {id : EnumId} {e : Enumeration}
    (h : p.enum? id = some e) : q.enum? id = some e := by
  rw [Program.enum?] at h ⊢
  split at h
  · cases h
  · next hid =>
    rw [← Array.getElem?_toList] at h
    obtain ⟨hlt, rfl⟩ := List.getElem?_eq_some_iff.mp h
    rw [if_neg hid, ← Array.getElem?_toList]
    exact List.prefix_iff_getElem?.mp hpq.enums _ hlt

theorem enums_defineRecord (r : Record) : (p.defineRecord r).enums = p.enums := by
  unfold defineRecord
  split <;> rfl

end Program
end TypeTraits
