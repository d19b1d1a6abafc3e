import TypeTraits.Proofs.Record.Qualification
import TypeTraits.Proofs.Record.Shares

/-!
# Types without padding

How many bytes of a type take part in its values is found part by part: a scalar covers its size, an
array what its elements cover, a union what its largest member covers, and a class what its bases
and data members cover together. Where the bytes of a type are said to follow from its value, it
covers no more than its size, and exactly its size unless a union without data members is held
somewhere: such a union is as large as one byte, and covers none.
-/

namespace TypeTraits

/-- Whether a type is neither qualified nor made of elements or members. -/
def Ty.isUndivided : Ty → Bool
  | .qualified .. | .array .. | .record _ => false
  | _ => true

namespace Program

open Layout

variable {p q : Program}

/-- How many bytes of a type take part in its values. A reference covers what it is stored as. -/
inductive Covers (p : Program) : Ty → Nat → Prop
  | undivided {t : Ty} {l : Layout} (hundivided : t.isUndivided = true)
      (hl : p.memberLayout t = some l) : p.Covers t l.size
  | qualified {t : Ty} {n : Nat} (cv : Cv) : p.Covers t n → p.Covers (.qualified t cv) n
  | array {t : Ty} {n : Nat} (b : Nat) : p.Covers t n → p.Covers (.array t (some b)) (n * b)
  | union {id : RecordId} {r : Record} (covered : Ty → Nat)
      (hr : p.completeRecord? (.record id) = some r) (hunion : r.isUnion = true)
      (members : ∀ m ∈ r.members, p.Covers m.type (covered m.type)) :
      p.Covers (.record id) ((r.members.map fun m => covered m.type).foldr max 0)
  | struct {id : RecordId} {r : Record} (covered : Ty → Nat)
      (hr : p.completeRecord? (.record id) = some r) (hunion : r.isUnion = false)
      (bases : ∀ base ∈ r.bases, p.Covers base.type (covered base.type))
      (members : ∀ m ∈ r.members, p.Covers m.type (covered m.type)) :
      p.Covers (.record id) ((r.bases.map fun base => covered base.type).sum +
        (r.members.map fun m => covered m.type).sum)

/-- Whether a type is a union without data members or holds one in a place that nothing else fills:
a union does so only if each of its members does. -/
inductive Wastes (p : Program) : Ty → Prop
  | qualified {t : Ty} (cv : Cv) : p.Wastes t → p.Wastes (.qualified t cv)
  | array {t : Ty} {b : Nat} (hb : 0 < b) : p.Wastes t → p.Wastes (.array t (some b))
  | union {id : RecordId} {r : Record} (hr : p.completeRecord? (.record id) = some r)
      (hunion : r.isUnion = true) (members : ∀ m ∈ r.members, p.Wastes m.type) :
      p.Wastes (.record id)
  | base {id : RecordId} {r : Record} (hr : p.completeRecord? (.record id) = some r)
      (hunion : r.isUnion = false) {base : BaseClass} (hbase : base ∈ r.bases) :
      p.Wastes base.type → p.Wastes (.record id)
  | member {id : RecordId} {r : Record} (hr : p.completeRecord? (.record id) = some r)
      (hunion : r.isUnion = false) {m : DataMember} (hm : m ∈ r.members) :
      p.Wastes m.type → p.Wastes (.record id)

section Inversion

variable {t : Ty} {cv : Cv} {b : Nat} {id : RecordId} {r : Record}

theorem not_wastes_of_isUndivided (h : t.isUndivided = true) : ¬p.Wastes t := by
  rintro (_ | _ | _ | _ | _) <;> cases h

@[simp] theorem wastes_qualified_iff : p.Wastes (.qualified t cv) ↔ p.Wastes t := by
  constructor
  · rintro ⟨⟩
    assumption
  · exact .qualified cv

@[simp] theorem wastes_array_iff : p.Wastes (.array t (some b)) ↔ 0 < b ∧ p.Wastes t := by
  constructor
  · rintro ⟨⟩
    exact ⟨‹_›, ‹_›⟩
  · exact fun h => .array h.1 h.2

theorem wastes_union_iff (hr : p.completeRecord? (.record id) = some r)
    (hunion : r.isUnion = true) : p.Wastes (.record id) ↔ ∀ m ∈ r.members, p.Wastes m.type := by
  constructor
  · intro h
    cases h with
    | union hr' _ members =>
      cases hr.symm.trans hr'
      exact members
    | base hr' hclass | member hr' hclass =>
      cases hr.symm.trans hr'
      simp [hunion] at hclass
  · exact .union hr hunion

theorem wastes_class_iff (hr : p.completeRecord? (.record id) = some r)
    (hunion : r.isUnion = false) : p.Wastes (.record id) ↔
      (∃ base ∈ r.bases, p.Wastes base.type) ∨ ∃ m ∈ r.members, p.Wastes m.type := by
  constructor
  · intro h
    cases h with
    | union hr' hunion' =>
      cases hr.symm.trans hr'
      simp [hunion] at hunion'
    | base hr' _ hbase h =>
      cases hr.symm.trans hr'
      exact Or.inl ⟨_, hbase, h⟩
    | member hr' _ hm h =>
      cases hr.symm.trans hr'
      exact Or.inr ⟨_, hm, h⟩
  · rintro (⟨base, hbase, h⟩ | ⟨m, hm, h⟩)
    · exact .base hr hunion hbase h
    · exact .member hr hunion hm h

end Inversion

/-- What a type covers is determined. -/
theorem Covers.unique {t : Ty} {m n : Nat} (h : p.Covers t m) (h' : p.Covers t n) : m = n := by
  induction h generalizing n with
  | undivided hundivided hl =>
    cases h' with
    | undivided _ hl' => cases hl.symm.trans hl'; rfl
    | qualified | array | union | struct => cases hundivided
  | qualified cv _ ih =>
    cases h' with
    | undivided hundivided => cases hundivided
    | qualified _ h' => exact ih h'
  | array b _ ih =>
    cases h' with
    | undivided hundivided => cases hundivided
    | array _ h' => rw [ih h']
  | union covered hr hunion _ ih =>
    cases h' with
    | undivided hundivided => cases hundivided
    | union covered' hr' _ members' =>
      cases hr.symm.trans hr'
      rw [List.map_congr_left fun m hm => ih m hm (members' m hm)]
    | struct _ hr' hclass =>
      cases hr.symm.trans hr'
      simp [hunion] at hclass
  | struct covered hr hclass _ _ ihbases ihmembers =>
    cases h' with
    | undivided hundivided => cases hundivided
    | union _ hr' hunion =>
      cases hr.symm.trans hr'
      simp [hunion] at hclass
    | struct covered' hr' _ bases' members' =>
      cases hr.symm.trans hr'
      rw [List.map_congr_left fun m hm => ihmembers m hm (members' m hm),
        List.map_congr_left fun base hbase => ihbases base hbase (bases' base hbase)]

/-- What a type covers stays the same as the program goes on. -/
theorem Covers.continues (hpq : p.Continues q) {t : Ty} {n : Nat} (h : p.Covers t n) :
    q.Covers t n := by
  induction h with
  | undivided hundivided hl => exact .undivided hundivided (hpq.memberLayout hl)
  | qualified cv _ ih => exact .qualified cv ih
  | array b _ ih => exact .array b ih
  | union covered hr hunion _ ih => exact .union covered (hpq.completeRecord? hr) hunion ih
  | struct covered hr hunion _ _ ihbases ihmembers =>
    exact .struct covered (hpq.completeRecord? hr) hunion ihbases ihmembers

section Existence

theorem memberLayout_of_layoutOf {t : Ty} {l : Layout} (h : p.layoutOf t = some l) :
    ∃ l, p.memberLayout t = some l := by
  rw [memberLayout]
  split
  · exact ⟨_, rfl⟩
  · exact ⟨l, h⟩

theorem layoutOf_of_qualified {t : Ty} {cv : Cv} {l : Layout}
    (h : p.layoutOf (.qualified t cv) = some l) : p.layoutOf t = some l := by
  have hwithin := Option.join_eq_some_iff.1 h
  cases t with
  | qualified _ _ | lvalueRef _ | rvalueRef _ => cases hwithin
  | _ => exact h

theorem layoutOf_array {t : Ty} {b : Option Nat} {l : Layout} :
    p.layoutOf (.array t b) = some l ↔ ∃ inner n, p.layoutOf t = some inner ∧ b = some n ∧
      inner.size * n < limit ∧ ⟨inner.size * n, inner.align⟩ = l := by
  simp only [layoutOf, Option.join_eq_some_iff]
  exact layoutStep_array

/-- If every complete record covers something, so does every type that has a layout. -/
theorem exists_covers
    (hrecords : ∀ id r, p.completeRecord? (.record id) = some r → ∃ n, p.Covers (.record id) n)
    {t : Ty} {l : Layout} (h : p.memberLayout t = some l) : ∃ n, p.Covers t n := by
  induction t using Ty.inductionOn generalizing l with
  | qualified t cv ih =>
    obtain ⟨l, hl⟩ := memberLayout_of_layoutOf (layoutOf_of_qualified h)
    obtain ⟨n, hn⟩ := ih hl
    exact ⟨n, .qualified cv hn⟩
  | array t b ih =>
    obtain ⟨inner, n, hinner, rfl, -, -⟩ := layoutOf_array.1 h
    obtain ⟨l, hl⟩ := memberLayout_of_layoutOf hinner
    obtain ⟨m, hm⟩ := ih hl
    exact ⟨m * n, .array n hm⟩
  | record id =>
    have hstep := Option.join_eq_some_iff.1 (show p.layoutOf (.record id) = some l from h)
    simp only [layoutWithin, layoutStep, Option.some.injEq, Option.map_eq_some_iff] at hstep
    obtain ⟨r, hr, -⟩ := hstep
    exact hrecords id r hr
  | _ => exact ⟨_, .undivided rfl h⟩

/-- A complete record covers something, if its bases and data members do. -/
theorem exists_covers_record {id : RecordId} {r : Record}
    (hr : p.completeRecord? (.record id) = some r)
    (hbases : ∀ base ∈ r.bases, ∃ n, p.Covers base.type n)
    (hmembers : ∀ m ∈ r.members, ∃ n, p.Covers m.type n) : ∃ n, p.Covers (.record id) n := by
  have hcovered : ∀ t, ∃ n, (∃ k, p.Covers t k) → p.Covers t n := by
    intro t
    by_cases h : ∃ k, p.Covers t k
    · exact h.imp fun _ hk _ => hk
    · exact ⟨0, fun hk => absurd hk h⟩
  choose covered hcovered using hcovered
  cases hunion : r.isUnion with
  | true => exact ⟨_, .union covered hr hunion fun m hm => hcovered _ (hmembers m hm)⟩
  | false =>
    exact ⟨_, .struct covered hr hunion (fun base hbase => hcovered _ (hbases base hbase))
      fun m hm => hcovered _ (hmembers m hm)⟩

end Existence

section Representation

variable {underlying underlying' : Enumeration → Option Bool} {t : Ty} {cv : Cv}

theorem Continues.uniqueStep (hpq : p.Continues q)
    (hunderlying : ∀ e, underlying e = some true → underlying' e = some true)
    (h : p.uniqueStep underlying t = some true) : q.uniqueStep underlying' t = some true := by
  rw [Program.uniqueStep] at h ⊢
  split at h
  · exact h
  · split at h
    · next e he =>
      rw [hpq.enum? he]
      exact hunderlying e h
    · cases h
  · rfl
  · exact h
  · next id _ =>
    rw [Option.some.injEq, Option.any_eq_true] at h ⊢
    obtain ⟨r, hr, hunique⟩ := h
    obtain ⟨hr, hc⟩ := Option.filter_eq_some_iff.1 hr
    exact ⟨r, Option.filter_eq_some_iff.2 ⟨hpq.record id r hr hc, hc⟩, hunique⟩
  · cases h

theorem Continues.uniqueWithin (hpq : p.Continues q) {fuel fuel' : Nat} (hfuel : fuel ≤ fuel')
    (h : p.uniqueWithin fuel t = some true) : q.uniqueWithin fuel' t = some true := by
  induction fuel generalizing fuel' t with
  | zero => cases fuel' <;> exact hpq.uniqueStep (by simp) h
  | succ fuel ih =>
    obtain ⟨fuel', rfl⟩ := Nat.exists_eq_add_one_of_ne_zero (show fuel' ≠ 0 by omega)
    refine hpq.uniqueStep (fun e he => ?_) h
    rw [hpq.target]
    exact ih (by omega) he

theorem hasUniqueRepresentation_iff :
    p.hasUniqueRepresentation t = true ↔ p.uniqueWithin (p.enums.size + 1) t = some true := by
  rw [hasUniqueRepresentation]
  cases p.uniqueWithin (p.enums.size + 1) t <;> simp

/-- Bytes that follow from the value go on to do so. -/
theorem Continues.hasUniqueRepresentation (hpq : p.Continues q)
    (h : p.hasUniqueRepresentation t = true) : q.hasUniqueRepresentation t = true := by
  have hsize := hpq.enums.length_le
  simp only [Array.length_toList] at hsize
  exact hasUniqueRepresentation_iff.2
    (hpq.uniqueWithin (Nat.add_le_add_right hsize 1) (hasUniqueRepresentation_iff.1 h))

theorem hasUniqueRepresentation_of_qualified
    (h : p.hasUniqueRepresentation (.qualified t cv) = true) :
    p.hasUniqueRepresentation t = true := by
  cases t with
  | array _ _ | qualified _ _ => cases h
  | _ => exact h

theorem hasUniqueRepresentation_record {r : Record} (hr : p.completeRecord? t = some r) :
    p.hasUniqueRepresentation t = r.facts.uniqueRepresentation := by
  obtain ⟨id, hid, hr, hc⟩ := completeRecord?_eq_some.1 hr
  have hcore : t.element.core = .record id := by
    cases t with
    | qualified t _ => cases t <;> simp_all [Ty.recordId?, Ty.core, Ty.element]
    | _ => simp_all [Ty.recordId?, Ty.core, Ty.element]
  simp [hasUniqueRepresentation, uniqueWithin, uniqueStep, hcore, hr, hc, Option.filter_some]

theorem isReference_of_hasUniqueRepresentation (h : p.hasUniqueRepresentation t = true) :
    t.isReference = false := by
  cases t with
  | lvalueRef t | rvalueRef t => cases h
  | _ => rfl

end Representation

section Padding

variable {t : Ty} {r : Record}

theorem Continues.isUniqueMember (hpq : p.Continues q) (h : p.isUniqueMember t = true) :
    q.isUniqueMember t = true := by
  rw [Program.isUniqueMember, Bool.and_eq_true] at h ⊢
  exact ⟨h.1, hpq.hasUniqueRepresentation h.2⟩

/-- A record without padding, of which all parts are complete, stays one. -/
theorem Continues.isUniquelyRepresented (hpq : p.Continues q) {size : Nat}
    (hbases : ∀ base ∈ r.bases, ∃ b, p.completeRecord? base.type = some b)
    (hmembers : ∀ m ∈ r.members, ∃ l, p.memberLayout m.type = some l)
    (h : p.isUniquelyRepresented r true size = true) :
    q.isUniquelyRepresented r true size = true := by
  have hmember : ∀ m ∈ r.members, q.memberSize m.type = p.memberSize m.type := by
    intro m hm
    obtain ⟨l, hl⟩ := hmembers m hm
    rw [memberSize, memberSize, hl, hpq.memberLayout hl]
  cases hunion : r.isUnion with
  | true =>
    rw [isUniquelyRepresented_union_iff hunion] at h ⊢
    intro m hm
    obtain ⟨hunique, hsize⟩ := h m hm
    obtain ⟨l, hl, rfl⟩ := Option.map_eq_some_iff.1 hsize
    exact ⟨hpq.isUniqueMember hunique, Option.map_eq_some_iff.2 ⟨l, hpq.layoutOf hl, rfl⟩⟩
  | false =>
    rw [isUniquelyRepresented_iff hunion] at h ⊢
    obtain ⟨hshares, hsum⟩ := h
    have hbase : ∀ base ∈ r.bases, q.completeRecord? base.type = p.completeRecord? base.type := by
      intro base hbase
      obtain ⟨b, hb⟩ := hbases base hbase
      rw [hb, hpq.completeRecord? hb]
    have hlater : ∀ share ∈ q.shares r, share.isSome = true := by
      rw [forall_isSome_shares] at hshares ⊢
      exact ⟨fun base hmem => hbase base hmem ▸ hshares.1 base hmem,
        fun m hm => hpq.isUniqueMember (hshares.2 m hm)⟩
    refine ⟨hlater, ?_⟩
    rw [← hsum, sum_shares hshares, sum_shares hlater, List.map_congr_left hmember]
    congr 2
    exact List.map_congr_left fun base hmem => by rw [baseSize, baseSize, hbase base hmem]

end Padding

section Filling

/-- Parts that each cover at most their room cover at most all their room together, and all of it if
and only if none wastes room. -/
theorem sum_covered {α : Type} {xs : List α} {covered room : α → Nat} {wastes : α → Prop}
    (h : ∀ x ∈ xs, covered x ≤ room x ∧ (covered x = room x ↔ ¬wastes x)) :
    (xs.map covered).sum ≤ (xs.map room).sum ∧
      ((xs.map covered).sum = (xs.map room).sum ↔ ∀ x ∈ xs, ¬wastes x) := by
  induction xs with
  | nil => simp
  | cons x xs ih =>
    obtain ⟨⟨hle, hx⟩, hxs⟩ := List.forall_mem_cons.1 h
    obtain ⟨hsum, hiff⟩ := ih hxs
    simp only [List.map_cons, List.sum_cons, List.forall_mem_cons, ← hx, ← hiff]
    omega

/-- Parts that lie over each other in the same room cover all of it if and only if one of them does
not waste room. -/
theorem max_covered {α : Type} {xs : List α} {covered : α → Nat} {room : Nat} {wastes : α → Prop}
    (hroom : 0 < room) (h : ∀ x ∈ xs, covered x ≤ room ∧ (covered x = room ↔ ¬wastes x)) :
    (xs.map covered).foldr max 0 ≤ room ∧
      ((xs.map covered).foldr max 0 = room ↔ ¬∀ x ∈ xs, wastes x) := by
  induction xs with
  | nil => simpa using hroom.ne
  | cons x xs ih =>
    obtain ⟨⟨hle, hx⟩, hxs⟩ := List.forall_mem_cons.1 h
    obtain ⟨hmax, hiff⟩ := ih hxs
    simp only [List.map_cons, List.foldr_cons, List.forall_mem_cons, not_and_or, ← hx, ← hiff]
    omega

/-- What is known of the complete records of a program when the padding of a type is told. -/
structure TellsPadding (p : Program) : Prop where
  size_pos : ∀ t r, p.completeRecord? t = some r → 0 < r.layout.size
  empty : ∀ t r, p.completeRecord? t = some r → r.facts.empty = true → r.isUnion = false ∧
    r.members = [] ∧ ∀ base ∈ r.bases, ∃ b, p.completeRecord? base.type = some b ∧
      b.facts.empty = true
  member : ∀ t r, p.completeRecord? t = some r → ∀ m ∈ r.members,
    ∃ l, p.memberLayout m.type = some l
  unique : ∀ t r, p.completeRecord? t = some r → r.facts.uniqueRepresentation = true →
    p.isUniquelyRepresented r true r.layout.size = true

theorem sizeOf_record {t : Ty} {r : Record} (hr : p.completeRecord? t = some r) :
    p.sizeOf t = some r.layout.size := by
  have hl := memberLayout_of_completeRecord? hr
  obtain ⟨id, hid, -⟩ := completeRecord?_eq_some.1 hr
  have href : t.isReference = false := by
    cases t <;> first | rfl | simp [Ty.recordId?, Ty.core] at hid
  rw [memberLayout, if_neg (by simp [href])] at hl
  rw [sizeOf, hl, Option.map_some]

/-- Whether what a type covers fills it: all of its size, unless it wastes room, if its bytes are
said to follow from its value. An empty class, of which that is not said, has nothing to fill. -/
structure Fills (p : Program) (t : Ty) (n : Nat) : Prop where
  size : ∀ s, p.sizeOf t = some s → p.hasUniqueRepresentation t = true →
    n ≤ s ∧ (n = s ↔ ¬p.Wastes t)
  empty : ∀ r, p.completeRecord? t = some r → r.facts.empty = true → n = 0 ∧ ¬p.Wastes t

theorem Fills.base {t : Ty} {n : Nat} {b : Record} (h : p.Fills t n)
    (hb : p.completeRecord? t = some b)
    (hqualifies : (b.facts.empty || b.facts.uniqueRepresentation) = true) :
    n ≤ p.baseSize t ∧ (n = p.baseSize t ↔ ¬p.Wastes t) := by
  cases hempty : b.facts.empty with
  | true =>
    obtain ⟨hzero, hnone⟩ := h.empty b hb hempty
    have hsize : p.baseSize t = 0 := by simp [baseSize, hb, hempty, Option.filter_some]
    simp [hsize, hzero, hnone]
  | false =>
    have hsize : p.baseSize t = b.layout.size := by
      simp [baseSize, hb, hempty, Option.filter_some]
    rw [hempty, Bool.false_or] at hqualifies
    rw [hsize]
    exact h.size _ (sizeOf_record hb) ((hasUniqueRepresentation_record hb).trans hqualifies)

theorem Fills.member {t : Ty} {n : Nat} {l : Layout} (h : p.Fills t n)
    (hl : p.memberLayout t = some l) (hunique : p.isUniqueMember t = true) :
    n ≤ p.memberSize t ∧ (n = p.memberSize t ↔ ¬p.Wastes t) := by
  have hsize : p.sizeOf t = some (p.memberSize t) := by
    rw [memberSize, hl, sizeOf, ← memberLayout_of_isUniqueMember hunique, hl]
    rfl
  rw [isUniqueMember, Bool.and_eq_true] at hunique
  exact h.size _ hsize hunique.2

theorem fills_undivided {t : Ty} {l : Layout} (hundivided : t.isUndivided = true)
    (hl : p.memberLayout t = some l) : p.Fills t l.size := by
  have hnone := not_wastes_of_isUndivided (p := p) hundivided
  constructor
  · intro s hs hunique
    rw [memberLayout, if_neg (by simp [isReference_of_hasUniqueRepresentation hunique])] at hl
    rw [sizeOf, hl, Option.map_some, Option.some.injEq] at hs
    simp [hs, hnone]
  · intro r hr
    obtain ⟨id, hid, -⟩ := completeRecord?_eq_some.1 hr
    cases t <;> simp_all [Ty.recordId?, Ty.core, Ty.isUndivided]

theorem Fills.qualified {t : Ty} {n : Nat} (cv : Cv) (h : p.Fills t n) :
    p.Fills (.qualified t cv) n := by
  constructor
  · intro s hs hunique
    rw [wastes_qualified_iff]
    obtain ⟨l, hl, rfl⟩ := Option.map_eq_some_iff.1 hs
    exact h.size _ (by rw [sizeOf, layoutOf_of_qualified hl, Option.map_some])
      (hasUniqueRepresentation_of_qualified hunique)
  · intro r hr
    rw [wastes_qualified_iff]
    refine h.empty r ?_
    obtain ⟨id, hid, hr⟩ := completeRecord?_eq_some.1 hr
    refine completeRecord?_eq_some.2 ⟨id, ?_, hr⟩
    cases t <;> simp_all [Ty.recordId?, Ty.core]

theorem Fills.array {t : Ty} {n : Nat} (b : Nat) (h : p.Fills t n) :
    p.Fills (.array t (some b)) (n * b) := by
  constructor
  · intro s hs hunique
    rw [wastes_array_iff]
    obtain ⟨l, hl, rfl⟩ := Option.map_eq_some_iff.1 hs
    obtain ⟨inner, _, hinner, ⟨⟩, -, rfl⟩ := layoutOf_array.1 hl
    obtain ⟨hle, hiff⟩ := h.size inner.size (by rw [sizeOf, hinner, Option.map_some]) hunique
    refine ⟨Nat.mul_le_mul_right b hle, ?_⟩
    rcases Nat.eq_zero_or_pos b with rfl | hb
    · simp
    · simp only [hb, true_and, ← hiff]
      exact ⟨Nat.eq_of_mul_eq_mul_right hb, fun h => by rw [h]⟩
  · intro r hr
    obtain ⟨id, hid, -⟩ := completeRecord?_eq_some.1 hr
    cases hid

section Record

variable (hp : p.TellsPadding) {id : RecordId} {r : Record} {covered : Ty → Nat}
  (hr : p.completeRecord? (.record id) = some r)

include hp hr

theorem fills_union (hunion : r.isUnion = true)
    (hmembers : ∀ m ∈ r.members, p.Fills m.type (covered m.type)) :
    p.Fills (.record id) ((r.members.map fun m => covered m.type).foldr max 0) := by
  constructor
  · intro s hs hunique
    rw [sizeOf_record hr, Option.some.injEq] at hs
    rw [hasUniqueRepresentation_record hr] at hunique
    have hparts := (isUniquelyRepresented_union_iff hunion).1 (hp.unique _ r hr hunique)
    rw [wastes_union_iff hr hunion, ← hs]
    refine max_covered (hp.size_pos _ r hr) fun m hm => ?_
    obtain ⟨hmember, hsize⟩ := hparts m hm
    rw [isUniqueMember, Bool.and_eq_true] at hmember
    exact (hmembers m hm).size _ hsize hmember.2
  · intro r' hr' hempty
    cases hr.symm.trans hr'
    simp [(hp.empty _ r hr hempty).1] at hunion

variable (hunion : r.isUnion = false)
  (hbases : ∀ base ∈ r.bases, p.Fills base.type (covered base.type))
  (hmembers : ∀ m ∈ r.members, p.Fills m.type (covered m.type))

include hunion hbases

/-- An empty class has nothing in it but empty bases. -/
theorem fills_empty (hempty : r.facts.empty = true) :
    (r.bases.map fun base => covered base.type).sum +
      (r.members.map fun m => covered m.type).sum = 0 ∧ ¬p.Wastes (.record id) := by
  obtain ⟨-, hnone, hempties⟩ := hp.empty _ r hr hempty
  have hbase : ∀ base ∈ r.bases, covered base.type = 0 ∧ ¬p.Wastes base.type := by
    intro base hbase
    obtain ⟨b, hb, hbempty⟩ := hempties base hbase
    exact (hbases base hbase).empty b hb hbempty
  simp only [wastes_class_iff hr hunion, not_or, hnone, List.map_nil, List.sum_nil, Nat.add_zero]
  refine ⟨List.sum_eq_zero ?_, by simpa using fun base hmem => (hbase base hmem).2, by simp⟩
  simpa using fun base hmem => (hbase base hmem).1

include hmembers

/-- The bases and data members of a class fill the room that they are given, which is all of it. -/
theorem fills_struct : p.Fills (.record id)
    ((r.bases.map fun base => covered base.type).sum +
      (r.members.map fun m => covered m.type).sum) := by
  constructor
  · intro s hs hunique
    rw [sizeOf_record hr, Option.some.injEq] at hs
    rw [hasUniqueRepresentation_record hr] at hunique
    obtain ⟨hshares, hsum⟩ := (isUniquelyRepresented_iff hunion).1 (hp.unique _ r hr hunique)
    rw [sum_shares hshares, hs] at hsum
    obtain ⟨hqualify, hunique⟩ := forall_isSome_shares.1 hshares
    have hbase : ∀ base ∈ r.bases, covered base.type ≤ p.baseSize base.type ∧
        (covered base.type = p.baseSize base.type ↔ ¬p.Wastes base.type) := by
      intro base hmem
      obtain ⟨b, hb, hqualifies⟩ := (Option.any_eq_true _ _).1 (hqualify base hmem)
      exact (hbases base hmem).base hb hqualifies
    have hmember : ∀ m ∈ r.members, covered m.type ≤ p.memberSize m.type ∧
        (covered m.type = p.memberSize m.type ↔ ¬p.Wastes m.type) := by
      intro m hm
      obtain ⟨l, hl⟩ := hp.member _ r hr m hm
      exact (hmembers m hm).member hl (hunique m hm)
    obtain ⟨hle, hiff⟩ := sum_covered hbase
    obtain ⟨hle', hiff'⟩ := sum_covered hmember
    simp only [wastes_class_iff hr hunion, not_or, not_exists, not_and, ← hiff, ← hiff']
    omega
  · intro r' hr' hempty
    cases hr.symm.trans hr'
    exact fills_empty hp hr hunion hbases hempty

end Record

/-- What is covered fills each type, one case for each way to be covered. -/
theorem Covers.fills (hp : p.TellsPadding) {t : Ty} {n : Nat} (h : p.Covers t n) :
    p.Fills t n := by
  induction h with
  | undivided hundivided hl => exact fills_undivided hundivided hl
  | qualified cv _ ih => exact ih.qualified cv
  | array b _ ih => exact ih.array b
  | union covered hr hunion _ ih => exact fills_union hp hr hunion ih
  | struct covered hr hunion _ _ ihbases ihmembers =>
    exact fills_struct hp hr hunion ihbases ihmembers

end Filling

end Program

namespace Development

open Program

variable {d : Development}

namespace Completes

variable {draft : Draft} {r : Record}

theorem completeBases (h : d.Completes draft r) :
    ∀ base ∈ r.bases, ∃ b, d.program.completeRecord? base.type = some b := by
  intro base hbase
  rw [h.kept.bases] at hbase
  obtain ⟨b, hb, -⟩ := h.completeBase base hbase
  exact ⟨b, hb⟩

theorem memberLayouts (h : d.Completes draft r) :
    ∀ m ∈ r.members, ∃ l, d.program.memberLayout m.type = some l :=
  fun m hm => (layOut_eq_some h.laidOut).1 m.type (h.mem_members_parts hm)

end Completes

/-- The members of a complete record have layouts. -/
theorem Reachable.memberLayout (h : d.Reachable) {t : Ty} {r : Record}
    (hr : d.program.completeRecord? t = some r) :
    ∀ m ∈ r.members, ∃ l, d.program.memberLayout m.type = some l := by
  obtain ⟨id, -, hr, hc⟩ := completeRecord?_eq_some.1 hr
  intro m hm
  exact (layOut_eq_some (h.layOut_parts id r hr hc)).1 m.type (List.mem_map_of_mem hm)

theorem Reachable.isUniquelyRepresented (h : d.Reachable) :
    ∀ id r, d.program.record? id = some r → r.complete = true →
      r.facts.uniqueRepresentation = true →
        d.program.isUniquelyRepresented r true r.layout.size = true := by
  intro id r hr hc
  refine (Reachable.forall_complete_of_continues (Q := fun p r =>
    (r.facts.uniqueRepresentation = true → p.isUniquelyRepresented r true r.layout.size = true) ∧
      (∀ base ∈ r.bases, ∃ b, p.completeRecord? base.type = some b) ∧
      ∀ m ∈ r.members, ∃ l, p.memberLayout m.type = some l) ?_ ?_ h id r hr hc).1
  · rintro p q r hpq ⟨hunique, hbases, hmembers⟩
    refine ⟨fun h => hpq.isUniquelyRepresented hbases hmembers (hunique h), fun base hbase => ?_,
      fun m hm => ?_⟩
    · exact (hbases base hbase).imp fun _ => hpq.completeRecord?
    · exact (hmembers m hm).imp fun _ => hpq.memberLayout
  · intro d draft r _ _ hc
    have hpq := hc.continues_defineRecord
    refine ⟨fun hunique => ?_, fun base hbase => ?_, fun m hm => ?_⟩
    · refine hpq.isUniquelyRepresented hc.completeBases hc.memberLayouts ?_
      rw [hc.uniqueRepresentation_eq] at hunique
      cases ht : r.facts.triviallyCopyable with
      | false =>
        rw [ht] at hunique
        cases hunique
      | true => rwa [ht] at hunique
    · exact (hc.completeBases base hbase).imp fun _ => hpq.completeRecord?
    · exact (hc.memberLayouts m hm).imp fun _ => hpq.memberLayout

theorem Reachable.tellsPadding (h : d.Reachable) : d.program.TellsPadding where
  size_pos t r hr := by
    obtain ⟨id, -, hr, hc⟩ := completeRecord?_eq_some.1 hr
    exact size_pos_of_layOut (h.layOut_parts id r hr hc)
  empty t r hr hempty := by
    obtain ⟨id, -, hr, hc⟩ := completeRecord?_eq_some.1 hr
    have hconsistent := facts_consistent h id r hr hc
    obtain ⟨hunion, hnone, -⟩ := hconsistent.empty hempty
    refine ⟨hunion, hnone, fun base hbase => ?_⟩
    obtain ⟨b, hb, hderives⟩ := hconsistent.bases base hbase
    exact ⟨b, hb, hderives.empty hempty⟩
  member _ _ := h.memberLayout
  unique t r hr hunique := by
    obtain ⟨id, -, hr, hc⟩ := completeRecord?_eq_some.1 hr
    exact h.isUniquelyRepresented id r hr hc hunique

/-- Every complete record covers something. -/
theorem Reachable.exists_covers_record (h : d.Reachable) :
    ∀ id r, d.program.completeRecord? (.record id) = some r →
      ∃ n, d.program.Covers (.record id) n := by
  intro id r hr
  obtain ⟨_, ⟨⟩, hrecord, hc⟩ := completeRecord?_eq_some.1 hr
  rw [← h.valid.id id r hrecord]
  refine Reachable.forall_complete_of_continues (Q := fun p r => ∃ n, p.Covers (.record r.id) n)
    ?_ ?_ h id r hrecord hc
  · exact fun p q r hpq => .imp fun n => .continues hpq
  · intro d draft r hvalid hcomplete hc
    have hpq := hc.continues_defineRecord
    have hrecords : ∀ id r, d.program.completeRecord? (.record id) = some r →
        ∃ n, d.program.Covers (.record id) n := by
      intro id r hr
      obtain ⟨_, ⟨⟩, hr, hc⟩ := completeRecord?_eq_some.1 hr
      rw [← hvalid.id id r hr]
      exact hcomplete id r hr hc
    have hdefined : (d.program.defineRecord r).completeRecord? (.record r.id) = some r := by
      refine completeRecord?_eq_some.2 ⟨r.id, rfl, ?_, hc.complete⟩
      rw [record?_defineRecord hc.declared, if_pos rfl]
    refine Program.exists_covers_record hdefined (fun base hbase => ?_) fun m hm => ?_
    · obtain ⟨b, hb⟩ := hc.completeBases base hbase
      exact (exists_covers hrecords (memberLayout_of_completeRecord? hb)).imp
        fun n => .continues hpq
    · obtain ⟨l, hl⟩ := hc.memberLayouts m hm
      exact (exists_covers hrecords hl).imp fun n => .continues hpq

/-- A type whose bytes are said to follow from its value has no padding, but for the room that
unions without data members take: what its parts cover is its size if and only if it wastes none. -/
theorem unique_representation_covers (h : d.Reachable) {t : Ty} {s : Nat}
    (hs : d.program.sizeOf t = some s) :
    ∃ n, d.program.Covers t n ∧ (∀ m, d.program.Covers t m → m = n) ∧
      (d.program.hasUniqueRepresentation t = true →
        n ≤ s ∧ (n = s ↔ ¬d.program.Wastes t)) := by
  obtain ⟨l, hl, -⟩ := Option.map_eq_some_iff.1 hs
  obtain ⟨l, hl⟩ := memberLayout_of_layoutOf hl
  obtain ⟨n, hn⟩ := exists_covers h.exists_covers_record hl
  exact ⟨n, hn, fun m hm => hm.unique hn, (hn.fills h.tellsPadding).size s hs⟩

/-- A union without data members, and a class that holds two of them and an `int`. -/
def blanks : Development :=
  run .lp64
    [.start "Blank" .union,
      .finish ⟨1⟩,
      .start "Form" .struct,
      .write ⟨2⟩ (.member "blanks" (.array (.record ⟨1⟩) (some 4))),
      .write ⟨2⟩ (.member "number" (.builtin .int)),
      .finish ⟨2⟩]

theorem reachable_blanks : blanks.Reachable := by
  refine (Reachable.fresh .lp64).performAll fun a ha => ?_
  simp only [List.mem_cons, List.not_mem_nil, or_false] at ha
  rcases ha with rfl | rfl | rfl | rfl | rfl | rfl
  all_goals first | trivial | exact RecordStep.isWritten_of_types rfl (by decide)

/-- Half of the bytes of the class are padding, although it is said to have none. -/
theorem unique_representation_covers_blanks : blanks.Reachable ∧
    blanks.program.sizeOf (.record ⟨2⟩) = some 8 ∧
    blanks.program.hasUniqueRepresentation (.record ⟨2⟩) = true ∧
    blanks.program.Wastes (.record ⟨2⟩) ∧
    ∃ n, blanks.program.Covers (.record ⟨2⟩) n ∧ n < 8 := by
  have hsize : blanks.program.sizeOf (.record ⟨2⟩) = some 8 := by decide +kernel
  have hunique : blanks.program.hasUniqueRepresentation (.record ⟨2⟩) = true := by decide +kernel
  have hblank : ((blanks.program.completeRecord? (.record ⟨1⟩)).any fun r =>
      r.isUnion && r.members.isEmpty) = true := by decide +kernel
  have hform : ((blanks.program.completeRecord? (.record ⟨2⟩)).any fun r =>
      !r.isUnion && r.members.any (·.type == .array (.record ⟨1⟩) (some 4))) = true := by
    decide +kernel
  have hwastes : blanks.program.Wastes (.record ⟨2⟩) := by
    obtain ⟨blank, hr, hblank⟩ := (Option.any_eq_true _ _).1 hblank
    obtain ⟨form, hr', hform⟩ := (Option.any_eq_true _ _).1 hform
    simp only [Bool.and_eq_true, List.isEmpty_iff, Bool.not_eq_true', List.any_eq_true,
      beq_iff_eq] at hblank hform
    obtain ⟨hclass, m, hm, htype⟩ := hform
    refine .member hr' hclass hm ?_
    rw [htype]
    exact .array (by decide) (.union hr hblank.1 (by simp [hblank.2]))
  obtain ⟨n, hcovers, -, hfills⟩ := unique_representation_covers reachable_blanks hsize
  obtain ⟨hle, hiff⟩ := hfills hunique
  exact ⟨reachable_blanks, hsize, hunique, hwastes, n, hcovers,
    Nat.lt_of_le_of_ne hle fun h => hiff.1 h hwastes⟩

end Development

end TypeTraits
