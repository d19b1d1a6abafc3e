import TypeTraits.Proofs.Layout.Unbounded
import TypeTraits.Proofs.Record.Layout

/-!
# Adding up the sizes of what a record holds

Whether a record has padding is found by adding up the sizes of its bases and data members, until
one does not qualify. Nothing checks these additions, and nothing needs to: when they are made the
record has been laid out, in a size that is in range and that has room for all that it holds. Only
trivially copyable records are looked at, so no base is virtual and counted more than once.
-/

namespace TypeTraits

open Layout

namespace Program

variable (p : Program)

/-- What a base adds to the sizes, if its bytes follow from its value. -/
def baseShare (base : BaseClass) : Option Nat :=
  match p.completeRecord? base.type with
  | none => none
  | some b =>
    if b.facts.empty then some 0
    else if b.facts.uniqueRepresentation then some b.layout.size
    else none

/-- What a data member adds to the sizes, if its bytes follow from its value. -/
def memberShare (m : DataMember) : Option Nat :=
  if p.isUniqueMember m.type then some ((p.sizeOf m.type).getD 0) else none

/-- What the bases and data members of a record add to the sizes. -/
def shares (r : Record) : List (Option Nat) :=
  r.bases.map p.baseShare ++ r.members.map p.memberShare

/-- Adds up sizes in words and stops where one is missing; the outer `none` is an overflow. -/
def addShares : Nat → List (Option Nat) → Option (Option Nat)
  | total, [] => some (some total)
  | _, none :: _ => some none
  | total, some n :: rest => (fits? (total + n)).bind fun total => addShares total rest

/-- Whether a record has no padding, where the sizes are added up in words: `none` if an addition
is out of range. -/
def isUniquelyRepresented? (r : Record) (triviallyCopyable : Bool) (size : Nat) : Option Bool :=
  if !triviallyCopyable then some false
  else if r.isUnion then
    some (r.members.all fun m => p.isUniqueMember m.type && p.sizeOf m.type == some size)
  else (addShares 0 (p.shares r)).map (· == some size)

variable {p} {r : Record} {size : Nat}

/-- If the sum is in range, no addition on the way is out of range. -/
theorem addShares_of_lt {total : Nat} {shares : List (Option Nat)}
    (h : total + (shares.map (·.getD 0)).sum < limit) :
    addShares total shares = some (if ∀ share ∈ shares, share.isSome = true then
      some (total + (shares.map (·.getD 0)).sum) else none) := by
  induction shares generalizing total with
  | nil => simp [addShares]
  | cons share shares ih =>
    cases share with
    | none => simp [addShares]
    | some n =>
      simp only [List.map_cons, Option.getD_some, List.sum_cons, ← Nat.add_assoc] at h ⊢
      rw [addShares, fits?_of_lt (by omega), Option.bind_some, ih h]
      simp

theorem isSome_baseShare (base : BaseClass) : (p.baseShare base).isSome =
    (p.completeRecord? base.type).any fun b => b.facts.empty || b.facts.uniqueRepresentation := by
  cases hb : p.completeRecord? base.type with
  | none => simp [baseShare, hb]
  | some b =>
    cases hempty : b.facts.empty <;> cases hunique : b.facts.uniqueRepresentation <;>
      simp [baseShare, hb, hempty, hunique]

theorem isSome_memberShare (m : DataMember) :
    (p.memberShare m).isSome = p.isUniqueMember m.type := by
  cases hm : p.isUniqueMember m.type <;> simp [memberShare, hm]

/-- Every share is there if the bytes of every base and every data member follow from its value. -/
theorem forall_isSome_shares : (∀ share ∈ p.shares r, share.isSome = true) ↔
    (∀ base ∈ r.bases, ((p.completeRecord? base.type).any fun b =>
      b.facts.empty || b.facts.uniqueRepresentation) = true) ∧
    ∀ m ∈ r.members, p.isUniqueMember m.type = true := by
  simp only [shares, List.forall_mem_append, List.forall_mem_map, isSome_baseShare,
    isSome_memberShare]

/-- What a base adds, if it adds anything, is its size as a base. -/
theorem getD_baseShare {base : BaseClass} (h : (p.baseShare base).isSome = true) :
    (p.baseShare base).getD 0 = p.baseSize base.type := by
  cases hb : p.completeRecord? base.type with
  | none => simp [baseShare, hb] at h
  | some b =>
    cases hempty : b.facts.empty <;> cases hunique : b.facts.uniqueRepresentation <;>
      simp_all [baseShare, baseSize, Option.filter_some]

theorem memberLayout_of_isUniqueMember {t : Ty} (h : p.isUniqueMember t = true) :
    p.memberLayout t = p.layoutOf t := by
  rw [isUniqueMember, Bool.and_eq_true, Bool.not_eq_true'] at h
  rw [memberLayout, if_neg (by simp [h.1])]

/-- What a data member adds, if it adds anything, is its size. -/
theorem getD_memberShare {m : DataMember} (h : (p.memberShare m).isSome = true) :
    (p.memberShare m).getD 0 = p.memberSize m.type := by
  rw [isSome_memberShare] at h
  rw [memberShare, if_pos h, memberSize, memberLayout_of_isUniqueMember h]
  rfl

/-- The sizes that are added up, if every base and every data member adds its size. -/
theorem sum_shares (h : ∀ share ∈ p.shares r, share.isSome = true) :
    ((p.shares r).map (·.getD 0)).sum =
      (r.bases.map fun base => p.baseSize base.type).sum +
        (r.members.map fun m => p.memberSize m.type).sum := by
  rw [shares, List.forall_mem_append, List.forall_mem_map, List.forall_mem_map] at h
  have hbases : r.bases.map ((·.getD 0) ∘ p.baseShare) =
      r.bases.map fun base => p.baseSize base.type :=
    List.map_congr_left fun base hbase => getD_baseShare (h.1 base hbase)
  have hmembers : r.members.map ((·.getD 0) ∘ p.memberShare) =
      r.members.map fun m => p.memberSize m.type :=
    List.map_congr_left fun m hm => getD_memberShare (h.2 m hm)
  rw [shares, List.map_append, List.sum_append, List.map_map, List.map_map, hbases, hmembers]

/-- A record other than a union has no padding if and only if each base and each data member adds
its size and the sizes add up. -/
theorem isUniquelyRepresented_iff (hunion : r.isUnion = false) :
    p.isUniquelyRepresented r true size = true ↔
      (∀ share ∈ p.shares r, share.isSome = true) ∧
        ((p.shares r).map (·.getD 0)).sum = size := by
  -- The definition reads the size of a base off a match of its own: any function with its values.
  have hbase : ∀ size : Option Record → Nat,
      (∀ b, size b = ((b.filter (!·.facts.empty)).map (·.layout.size)).getD 0) →
        (r.bases.map fun base => p.completeRecord? base.type).map size =
          r.bases.map fun base => p.baseSize base.type := fun size hsize => by
    rw [List.map_map]
    exact List.map_congr_left fun base _ => hsize _
  have hmember : (∀ m ∈ r.members, p.isUniqueMember m.type = true) →
      r.members.map (fun m => (p.sizeOf m.type).getD 0) =
        r.members.map fun m => p.memberSize m.type := fun h =>
    List.map_congr_left fun m hm => by
      rw [memberSize, memberLayout_of_isUniqueMember (h m hm)]
      rfl
  rw [isUniquelyRepresented, Bool.not_true, if_neg Bool.false_ne_true, if_neg (by simp [hunion])]
  dsimp only
  rw [hbase _ (by
    rintro (_ | b)
    · rfl
    · cases hempty : b.facts.empty <;> simp [hempty, Option.filter_some])]
  simp only [Bool.and_eq_true, beq_iff_eq, List.all_map, List.all_eq_true, Function.comp_apply]
  rw [← forall_isSome_shares, and_congr_right_iff]
  intro hshares
  rw [sum_shares hshares, hmember (forall_isSome_shares.1 hshares).2, ← List.sum_eq_foldl,
    List.sum_append]

theorem isUniquelyRepresented_union_iff (hunion : r.isUnion = true) :
    p.isUniquelyRepresented r true size = true ↔
      ∀ m ∈ r.members, p.isUniqueMember m.type = true ∧ p.sizeOf m.type = some size := by
  simp [isUniquelyRepresented, hunion, Bool.and_eq_true]

/-- If the sum of the sizes is in range, adding them up in words gives the same answer. -/
theorem isUniquelyRepresented?_eq {triviallyCopyable : Bool}
    (h : triviallyCopyable = true → r.isUnion = false →
      ((p.shares r).map (·.getD 0)).sum < limit) :
    p.isUniquelyRepresented? r triviallyCopyable size =
      some (p.isUniquelyRepresented r triviallyCopyable size) := by
  cases ht : triviallyCopyable with
  | false => rfl
  | true =>
    cases hunion : r.isUnion with
    | true => simp [isUniquelyRepresented?, isUniquelyRepresented, hunion]
    | false =>
      have hlt := h ht hunion
      rw [isUniquelyRepresented?, Bool.not_true, if_neg Bool.false_ne_true,
        if_neg (by simp [hunion]), addShares_of_lt (by omega), Option.map_some, Nat.zero_add, Option.some.injEq,
        Bool.eq_iff_iff, isUniquelyRepresented_iff hunion]
      split
      · next hshares => simpa using fun _ => hshares
      · next hshares => simp [hshares]

theorem getD_baseShare_le (base : BaseClass) :
    (p.baseShare base).getD 0 ≤ p.baseSize base.type := by
  cases hshare : p.baseShare base with
  | none => exact Nat.zero_le _
  | some n => exact (getD_baseShare (by simp [hshare])).le.trans' (by simp [hshare])

theorem getD_memberShare_le (m : DataMember) :
    (p.memberShare m).getD 0 ≤ p.memberSize m.type := by
  cases hshare : p.memberShare m with
  | none => exact Nat.zero_le _
  | some n => exact (getD_memberShare (by simp [hshare])).le.trans' (by simp [hshare])

end Program

namespace Development.Completes

variable {d : Development} {draft : Draft} {r : Record}

theorem uniqueRepresentation_eq (h : d.Completes draft r) : r.facts.uniqueRepresentation =
    d.program.isUniquelyRepresented r r.facts.triviallyCopyable r.layout.size := by
  obtain ⟨done, layout, -, -, rfl⟩ := Program.completeRecord_eq_some h.completed
  rfl

/-- A trivially copyable class has no virtual base. -/
theorem not_virtual_of_triviallyCopyable (h : d.Completes draft r)
    (ht : r.facts.triviallyCopyable = true) : ∀ base ∈ r.bases, base.isVirtual = false := by
  have hnone := (h.not_dynamic_of_triviallyCopyable ht).2
  intro base hbase
  rw [h.kept.bases] at hbase
  obtain ⟨done, layout, -, -, rfl⟩ := Program.completeRecord_eq_some h.completed
  rw [Program.completed_hasVirtualBases, Program.inheritsVirtually, Bool.or_eq_false_iff,
    List.any_eq_false] at hnone
  simpa using hnone.1 base hbase

/-- A completed class has room for all that it holds. -/
theorem sum_held_le (h : d.Completes draft r) (hunion : r.isUnion = false) :
    ((d.program.heldLayouts (d.program.parts draft.record)).map (·.size)).sum ≤ r.layout.size := by
  obtain ⟨s, held, hadds, hperm, hlayout, -⟩ :=
    Program.adds_layOut (h.isUnion_parts.trans hunion) h.laidOut
  have hroom := hadds.room
  have hle := le_roundUp (max s.offset 1) s.align
  rw [(hperm.map _).sum_eq] at hroom
  rw [hlayout]
  simp only
  omega

/-- The sizes that are added up for a completed class fit into it. -/
theorem sum_shares_le (h : d.Completes draft r) (ht : r.facts.triviallyCopyable = true)
    (hunion : r.isUnion = false) :
    ((d.program.shares r).map (·.getD 0)).sum ≤ r.layout.size := by
  have hheld := h.sum_held_le hunion
  rw [Program.sum_heldLayouts, h.bases_parts, h.members_parts,
    List.filter_eq_self.2 (by simpa using h.not_virtual_of_triviallyCopyable ht)] at hheld
  have hbases : ((r.bases.map d.program.baseShare).map (·.getD 0)).sum ≤
      (r.bases.map fun base => d.program.baseSize base.type).sum := by
    rw [List.map_map]
    exact List.sum_le_sum fun base _ => Program.getD_baseShare_le base
  have hmembers : ((r.members.map d.program.memberShare).map (·.getD 0)).sum ≤
      ((r.members.map (·.type)).map d.program.memberSize).sum := by
    rw [List.map_map, List.map_map]
    exact List.sum_le_sum fun m _ => Program.getD_memberShare_le m
  rw [Program.shares, List.map_append, List.sum_append]
  omega

theorem size_lt (h : d.Completes draft r) : r.layout.size < limit :=
  Program.size_lt_of_layOut h.laidOut

/-- When a record is completed, no addition of sizes is out of range. -/
theorem isUniquelyRepresented? (h : d.Completes draft r) :
    d.program.isUniquelyRepresented? r r.facts.triviallyCopyable r.layout.size =
      some r.facts.uniqueRepresentation := by
  rw [h.uniqueRepresentation_eq]
  exact Program.isUniquelyRepresented?_eq fun ht hunion =>
    (h.sum_shares_le ht hunion).trans_lt h.size_lt

end Development.Completes

namespace Development

variable {d : Development}

/-- The checked arithmetic of layouts is exact. A record whose data members have layouts is laid
out as it would be if sizes had no limit, and has no layout if and only if that size is out of
range; rounding up gives the least multiple that is large enough, if that is in range; and the
additions that look for padding in a record that is finished, though not checked, stay in range. -/
theorem checked_arithmetic_exact (h : d.Reachable) :
    (∀ parts : RecordParts, (∀ t ∈ parts.members, ∃ l, d.program.memberLayout t = some l) →
      ∃ l, d.program.unboundedLayOut parts = some l ∧
        (d.program.layOut parts = none ↔ limit ≤ l.size) ∧
        (l.size < limit → d.program.layOut parts = some l)) ∧
    (∀ value align, IsLeast {n | max align 1 ∣ n ∧ value ≤ n} (roundUp value align) ∧
      (roundUp value align < limit → roundUp? value align = some (roundUp value align)) ∧
      (limit ≤ roundUp value align → roundUp? value align = none)) ∧
    ∀ draft ∈ d.drafts, ∀ q t, d.program.finishRecord draft = .ok (q, t) →
      ∃ r, q = d.program.defineRecord r ∧ t = r.type ∧
        d.program.isUniquelyRepresented? r r.facts.triviallyCopyable r.layout.size =
          some r.facts.uniqueRepresentation := by
  refine ⟨fun parts => Program.layOut_eq_unbounded,
    fun value align => ⟨isLeast_roundUp value align, fits?_of_lt, fits?_of_le⟩, ?_⟩
  intro draft hdraft q t hfinish
  obtain ⟨bases, r, hbases, hmembers, hr, rfl, rfl⟩ := Program.finishRecord_eq_ok.mp hfinish
  exact ⟨r, rfl, rfl, (h.valid.completes hdraft hbases hmembers hr).isUniquelyRepresented?⟩

/-- The development `shapes` while its second class is written. -/
def openPair : Development :=
  run .lp64
    [.start "Tag" .struct,
      .finish ⟨1⟩,
      .start "Pair" .struct,
      .write ⟨2⟩ (.base (.record ⟨1⟩)),
      .write ⟨2⟩ (.member "parts" (.array (.builtin .int) (some 2)))]

/-- Two arrays that are in range one by one. -/
def hugeParts : RecordParts where
  isUnion := false
  dynamic := false
  bases := []
  members := List.replicate 2 (.array (.builtin .char) (some (1 <<< 63)))

theorem checked_arithmetic_exact_openPair : openPair.Reachable ∧
    openPair.program.unboundedLayOut hugeParts = some ⟨limit, 1⟩ ∧
    openPair.program.layOut hugeParts = none ∧
    ∃ draft ∈ openPair.drafts, ∃ r,
      openPair.program.finishRecord draft = .ok (openPair.program.defineRecord r, r.type) ∧
      openPair.program.isUniquelyRepresented? r r.facts.triviallyCopyable r.layout.size =
        some r.facts.uniqueRepresentation := by
  have hreachable : openPair.Reachable := by
    refine (Reachable.fresh .lp64).performAll fun a ha => ?_
    simp only [List.mem_cons, List.not_mem_nil, or_false] at ha
    rcases ha with rfl | rfl | rfl | rfl | rfl
    all_goals first | trivial | exact RecordStep.isWritten_of_types rfl (by decide)
  obtain ⟨hlayOut, -, hsums⟩ := checked_arithmetic_exact hreachable
  have hunbounded : openPair.program.unboundedLayOut hugeParts = some ⟨limit, 1⟩ := by
    decide +kernel
  obtain ⟨l, hl, hnone, -⟩ := hlayOut hugeParts (by
    intro t ht
    rw [List.eq_of_mem_replicate ht]
    exact ⟨⟨1 <<< 63, 1⟩, by decide +kernel⟩)
  cases hunbounded.symm.trans hl
  refine ⟨hreachable, hunbounded, hnone.2 (Nat.le_refl _), ?_⟩
  have hfinish : ∃ draft ∈ openPair.drafts,
      (openPair.program.finishRecord draft).isOk = true := by decide +kernel
  obtain ⟨draft, hdraft, hok⟩ := hfinish
  cases hfinish : openPair.program.finishRecord draft with
  | error e => simp [hfinish, Except.isOk, Except.toBool] at hok
  | ok result =>
    obtain ⟨r, hq, ht, hsum⟩ := hsums draft hdraft result.1 result.2 hfinish
    exact ⟨draft, hdraft, r, by rw [hfinish, ← hq, ← ht], hsum⟩

end Development

end TypeTraits
