import Mathlib
import TypeTraits.Pool.TypeTable
import TypeTraits.Proofs.Ty.NormalForm

/-!
# What the handles of a table stand for

A handle stands for the type that its node describes, part by part. In a table that only
interning has filled, every handle stands for one type, no two handles stand for the same type, and
reading a handle back gives the type. Entering a type in normal form keeps such a table one and
gives the handle that stands for the type; a table only grows, so what a handle stands for does
not change.
-/

namespace TypeTraits

/-- In a list without repetition an item has one index. -/
theorem idxOf?_eq_some_iff_of_nodup {α : Type} [BEq α] [LawfulBEq α] {items : List α} {a : α}
    {i : Nat} (h : items.Nodup) : items.idxOf? a = some i ↔ items[i]? = some a := by
  rw [List.idxOf?_eq_some_iff, List.getElem?_eq_some_iff]
  refine ⟨fun ⟨hi, ha, _⟩ => ⟨hi, ha⟩, fun ⟨hi, ha⟩ => ⟨hi, ha, fun j hj hja => ?_⟩⟩
  have := (List.getElem_inj h).1 (hja.trans ha.symm)
  omega

namespace Pool

variable {α : Type} (pool : Pool α)

/-- The items of a shard. -/
def shard (i : Fin 64) : Array α := pool.shards.get i

theorem shardSize_eq (i : Fin 64) : pool.shardSize i = (pool.shard i).size := rfl

theorem get?_eq (slot : UInt32) : pool.get? slot = (pool.shard (shardOf slot))[placeOf slot]? := rfl

theorem place?_eq [BEq α] (i : Fin 64) (a : α) : pool.place? i a = (pool.shard i).idxOf? a := rfl

theorem shard_empty (i : Fin 64) : (empty : Pool α).shard i = #[] := by
  simp [empty, shard, Vector.get_eq_getElem]

theorem shard_push (i other : Fin 64) (a : α) : (pool.push i a).shard other =
    if i = other then (pool.shard i).push a else pool.shard other := by
  simp [push, shard, Vector.get_eq_getElem, Vector.getElem_set, Fin.ext_iff]

theorem mem_shard_push {i other : Fin 64} {a b : α} :
    b ∈ (pool.push i a).shard other ↔ b ∈ pool.shard other ∨ i = other ∧ b = a := by
  rw [shard_push]
  split
  · next h => simp [h]
  · next h => simp [h]

theorem nodup_shard_push (h : ∀ shard : Fin 64, (pool.shard shard).toList.Nodup) {i : Fin 64}
    {a : α} (hnew : a ∉ pool.shard i) (shard : Fin 64) :
    ((pool.push i a).shard shard).toList.Nodup := by
  rw [shard_push]
  split
  · rw [Array.toList_push, List.nodup_append]
    refine ⟨h i, by simp, fun b hb c hc heq => hnew ?_⟩
    obtain rfl := heq.trans (List.mem_singleton.1 hc)
    exact Array.mem_toList_iff.1 hb
  · exact h shard

theorem shard_prefix_push (i other : Fin 64) (a : α) :
    (pool.shard other).toList <+: ((pool.push i a).shard other).toList := by
  rw [shard_push]
  split
  · next h => simp [h]
  · exact List.prefix_rfl

/-- What a pool has in a slot is there in every pool that it grows into. -/
theorem get?_of_prefix {pool later : Pool α} {slot : UInt32} {a : α}
    (h : ∀ shard : Fin 64, (pool.shard shard).toList <+: (later.shard shard).toList)
    (ha : pool.get? slot = some a) : later.get? slot = some a := by
  simp only [get?_eq, ← Array.getElem?_toList] at ha ⊢
  obtain ⟨hi, rfl⟩ := List.getElem?_eq_some_iff.1 ha
  exact List.prefix_iff_getElem?.1 (h _) _ hi

theorem size_eq_sum : pool.size = (pool.shards.toList.map Array.size).sum := by
  rw [size, List.sum_eq_foldl, Vector.toList_map]

theorem size_push (shard : Fin 64) (a : α) : (pool.push shard a).size = pool.size + 1 := by
  have hshard : shard.val < (pool.shards.toList.map Array.size).length := by simp
  have hset : (pool.push shard a).shards.toList.map Array.size =
      (pool.shards.toList.map Array.size).set shard (pool.shardSize shard + 1) := by
    simp [push, shardSize, Vector.toList_set, List.map_set]
  have hsplit := List.sum_take_add_sum_drop (pool.shards.toList.map Array.size) shard
  rw [List.drop_eq_getElem_cons hshard, List.sum_cons] at hsplit
  rw [size_eq_sum, size_eq_sum, hset, List.sum_set, if_pos hshard, ← hsplit]
  simp [shardSize]
  omega

theorem size_eq_sum_shardSize : pool.size = ((List.finRange 64).map pool.shardSize).sum := by
  rw [size_eq_sum]
  congr 1
  refine List.ext_getElem (by simp) fun i hi hi' => ?_
  simp [shardSize]

theorem shardSize_le_size (shard : Fin 64) : pool.shardSize shard ≤ pool.size := by
  rw [size_eq_sum_shardSize]
  exact List.single_le_sum (by simp) _ (List.mem_map_of_mem (List.mem_finRange shard))

theorem place?_eq_some_iff [BEq α] [LawfulBEq α] {shard : Fin 64} {a : α} {place : Nat}
    (h : (pool.shard shard).toList.Nodup) :
    pool.place? shard a = some place ↔ (pool.shard shard)[place]? = some a := by
  rw [place?_eq, ← Array.getElem?_toList, ← idxOf?_eq_some_iff_of_nodup h, ← List.idxOf?_toArray]

/-- How many places of a shard have handles of their own, above the handles that stand for the
types without parts. -/
def places : Nat := 2 ^ 26 - 1

theorem toNat_slot (shard : Fin 64) {place : Nat} (h : place ≤ places) :
    (slot shard place).toNat = place * 64 + shard := by
  have := shard.isLt
  simp only [places] at h
  simp [slot]
  omega

theorem shardOf_slot (shard : Fin 64) {place : Nat} (h : place ≤ places) :
    shardOf (slot shard place) = shard := by
  ext
  simp [shardOf, toNat_slot shard h]

theorem placeOf_slot (shard : Fin 64) {place : Nat} (h : place ≤ places) :
    placeOf (slot shard place) = place := by
  have := shard.isLt
  simp [placeOf, toNat_slot shard h]
  omega

theorem slot_of_slot (number : UInt32) : slot (shardOf number) (placeOf number) = number := by
  rw [slot, shardOf, placeOf, Fin.val_ofNat, Nat.div_add_mod', UInt32.ofNat_toNat]

end Pool

namespace TypeNode

theorem predefinedHandle?_eq_some_iff {n : TypeNode} {handle : TypeHandle} :
    n.predefinedHandle? = some handle ↔
      ∃ i, predefined[i]? = some n ∧ handle = ⟨UInt32.ofNat (i + 1)⟩ := by
  have hnodup : predefined.Nodup := by decide
  simp only [predefinedHandle?, Option.map_eq_some_iff, idxOf?_eq_some_iff_of_nodup hnodup,
    @eq_comm _ handle]

end TypeNode

namespace TypeTable

/-- Whether every node that the table holds has a handle of its own. -/
def HasRoom (table : TypeTable) : Prop :=
  ∀ shard : Fin 64, table.nodes.shardSize shard ≤ Pool.places

instance (table : TypeTable) : Decidable table.HasRoom :=
  inferInstanceAs (Decidable (∀ shard : Fin 64, table.nodes.shardSize shard ≤ Pool.places))

theorem hasRoom_of_size_le {table : TypeTable} (h : table.size ≤ Pool.places) : table.HasRoom :=
  fun shard => (table.nodes.shardSize_le_size shard).trans h

theorem lookup?_slot (table : TypeTable) (shard : Fin 64) {place : Nat} (h : place < Pool.places) :
    table.lookup? ⟨firstStored + Pool.slot shard place⟩ = (table.nodes.shard shard)[place]? := by
  have hslot := Pool.toNat_slot shard h.le
  have hshard := Pool.shardOf_slot shard h.le
  have hplace := Pool.placeOf_slot shard h.le
  have := shard.isLt
  simp only [Pool.places] at h
  have hstored : ¬ firstStored + Pool.slot shard place < firstStored := by
    simp [UInt32.lt_iff_toNat_lt, UInt32.toNat_add, hslot, firstStored]
    omega
  have hsub : firstStored + Pool.slot shard place - firstStored = Pool.slot shard place := by
    rw [UInt32.add_comm, UInt32.add_sub_cancel]
  simp only [lookup?, if_neg hstored, hsub, Pool.get?_eq, hshard, hplace]

theorem lookup?_predefined (table : TypeTable) {i : Nat} {n : TypeNode}
    (h : TypeNode.predefined[i]? = some n) : table.lookup? ⟨UInt32.ofNat (i + 1)⟩ = some n := by
  obtain ⟨hi, -⟩ := List.getElem?_eq_some_iff.1 h
  have hlength : TypeNode.predefined.length = 22 := by decide
  have hnumber : (UInt32.ofNat (i + 1)).toNat = i + 1 := by simp; omega
  have hsmall : UInt32.ofNat (i + 1) < firstStored := by
    rw [UInt32.lt_iff_toNat_lt, hnumber]
    simp [firstStored]
    omega
  have hne : UInt32.ofNat (i + 1) ≠ 0 := by
    rw [Ne, ← UInt32.toNat_inj, hnumber]
    simp
  simp only [lookup?, if_pos hsmall, if_neg hne, hnumber, Nat.add_sub_cancel, h]

/-- A node is behind a handle in one of two ways. -/
theorem lookup?_cases {table : TypeTable} {handle : TypeHandle} {n : TypeNode}
    (h : table.lookup? handle = some n) :
    (∃ i, TypeNode.predefined[i]? = some n ∧ handle = ⟨UInt32.ofNat (i + 1)⟩) ∨
      ∃ shard place, (table.nodes.shard shard)[place]? = some n ∧
        handle = ⟨firstStored + Pool.slot shard place⟩ := by
  obtain ⟨number⟩ := handle
  simp only [lookup?] at h
  split at h
  · split at h
    · cases h
    · next hne =>
      refine .inl ⟨_, h, ?_⟩
      have : number.toNat ≠ 0 := by simpa [← UInt32.toNat_inj] using hne
      rw [Nat.sub_add_cancel (by omega), UInt32.ofNat_toNat]
  · refine .inr ⟨_, _, h, ?_⟩
    rw [Pool.slot_of_slot, UInt32.add_comm, UInt32.sub_add_cancel]

/-- The later table holds what the earlier one holds, at the same places. -/
structure Extends (later earlier : TypeTable) : Prop where
  nodes : ∀ shard : Fin 64, (earlier.nodes.shard shard).toList <+: (later.nodes.shard shard).toList
  signatures : earlier.signatures.toList <+: later.signatures.toList

namespace Extends

variable {last later earlier : TypeTable}

theorem refl (table : TypeTable) : table.Extends table := ⟨fun _ => List.prefix_rfl, List.prefix_rfl⟩

theorem trans (h : last.Extends later) (h' : later.Extends earlier) : last.Extends earlier :=
  ⟨fun shard => (h'.nodes shard).trans (h.nodes shard), h'.signatures.trans h.signatures⟩

theorem lookup? {handle : TypeHandle} {n : TypeNode} (h : later.Extends earlier)
    (hn : earlier.lookup? handle = some n) : later.lookup? handle = some n := by
  simp only [TypeTable.lookup?] at hn ⊢
  split
  · simpa only [if_pos ‹_›] using hn
  · simp only [if_neg ‹_›] at hn
    exact Pool.get?_of_prefix h.nodes hn

theorem signature {number : Nat} {s : StoredSignature} (h : later.Extends earlier)
    (hs : earlier.signatures[number]? = some s) : later.signatures[number]? = some s := by
  rw [← Array.getElem?_toList] at hs ⊢
  obtain ⟨hi, rfl⟩ := List.getElem?_eq_some_iff.1 hs
  exact List.prefix_iff_getElem?.1 h.signatures _ hi

theorem size_le (h : later.Extends earlier) : earlier.size ≤ later.size := by
  rw [TypeTable.size, TypeTable.size, Pool.size_eq_sum_shardSize, Pool.size_eq_sum_shardSize]
  exact List.sum_le_sum fun shard _ => (h.nodes shard).length_le

theorem hasRoom (h : later.Extends earlier) (hroom : later.HasRoom) : earlier.HasRoom :=
  fun shard => Nat.le_trans (h.nodes shard).length_le (hroom shard)

end Extends

/-- The table with one more node. -/
def push (table : TypeTable) (shard : Fin 64) (n : TypeNode) : TypeTable :=
  { table with nodes := table.nodes.push shard n }

theorem intern_cases (sharding : Sharding TypeNode) (table : TypeTable) (n : TypeNode) :
    (∃ handle, n.predefinedHandle? = some handle ∧ table.intern sharding n = (handle, table)) ∨
    (∃ place, table.nodes.place? (sharding n) n = some place ∧
      table.intern sharding n = (⟨firstStored + Pool.slot (sharding n) place⟩, table)) ∨
    (n.predefinedHandle? = none ∧ n ∉ table.nodes.shard (sharding n) ∧
      table.intern sharding n =
        (⟨firstStored + Pool.slot (sharding n) (table.nodes.shardSize (sharding n))⟩,
          table.push (sharding n) n)) := by
  rw [intern]
  split
  · next handle hpredefined => exact .inl ⟨handle, hpredefined, rfl⟩
  · next hpredefined =>
    refine .inr ?_
    simp only
    split
    · next place hplace => exact .inl ⟨place, hplace, rfl⟩
    · next hplace => exact .inr ⟨hpredefined, Array.idxOf?_eq_none_iff.1 hplace, rfl⟩

theorem push_extends (table : TypeTable) (shard : Fin 64) (n : TypeNode) :
    (table.push shard n).Extends table :=
  ⟨fun other => table.nodes.shard_prefix_push shard other n, List.prefix_rfl⟩

theorem intern_extends (sharding : Sharding TypeNode) (table : TypeTable) (n : TypeNode) :
    (table.intern sharding n).2.Extends table := by
  obtain ⟨_, _, h⟩ | ⟨_, _, h⟩ | ⟨_, _, h⟩ := intern_cases sharding table n <;> rw [h]
  · exact .refl table
  · exact .refl table
  · exact push_extends table _ n

theorem internSignature_extends (table : TypeTable) (s : StoredSignature) :
    (table.internSignature s).2.Extends table := by
  rw [internSignature]
  split
  · exact .refl table
  · exact ⟨fun _ => List.prefix_rfl, by simp⟩

/-- Whether the node behind a handle has a property. -/
def Holds (table : TypeTable) (handle : TypeHandle) (p : TypeNode → Prop) : Prop :=
  ∃ n, table.lookup? handle = some n ∧ p n

mutual

/-- Whether a node describes a type, its parts standing for the parts of the type. -/
def Means (table : TypeTable) : Ty → TypeNode → Prop
  | .void, n => n = .void
  | .nullptr, n => n = .nullptr
  | .builtin k, n => n = .builtin k
  | .qualified t cv, n => ∃ part, n = .qualified part cv ∧ table.Holds part (Means table t)
  | .pointer t, n => ∃ part, n = .pointer part ∧ table.Holds part (Means table t)
  | .lvalueRef t, n => ∃ part, n = .lvalueRef part ∧ table.Holds part (Means table t)
  | .rvalueRef t, n => ∃ part, n = .rvalueRef part ∧ table.Holds part (Means table t)
  | .array t b, n => ∃ part, n = .array part b ∧ table.Holds part (Means table t)
  | .function r ps quals, n => ∃ number s, n = .function number ∧
      table.signatures[number]? = some s ∧ s.quals = quals ∧
      table.Holds s.result (Means table r) ∧ AllMean table ps s.params
  | .memberPointer c t, n => ∃ cls part, n = .memberPointer cls part ∧
      table.Holds cls (Means table c) ∧ table.Holds part (Means table t)
  | .record id, n => n = .record id
  | .enum id, n => n = .enum id
  | .functionNamed _, _ | .unknown _, _ => False

/-- Whether handles stand for the types of a list, one each. -/
def AllMean (table : TypeTable) : List Ty → List TypeHandle → Prop
  | [], [] => True
  | t :: ts, handle :: handles => table.Holds handle (Means table t) ∧ AllMean table ts handles
  | _, _ => False

end

/-- Whether a handle stands for a type. -/
def Stands (table : TypeTable) (handle : TypeHandle) (t : Ty) : Prop :=
  table.Holds handle (table.Means t)

theorem Holds.imp {later earlier : TypeTable} {handle : TypeHandle} {p q : TypeNode → Prop}
    (h : later.Extends earlier) (hpq : ∀ n, p n → q n) (hp : earlier.Holds handle p) :
    later.Holds handle q := by
  obtain ⟨n, hn, hp⟩ := hp
  exact ⟨n, h.lookup? hn, hpq n hp⟩

theorem AllMean.imp {later earlier : TypeTable} {ts : List Ty} {handles : List TypeHandle}
    (h : later.Extends earlier) (hts : ∀ t ∈ ts, ∀ n, earlier.Means t n → later.Means t n)
    (hall : earlier.AllMean ts handles) : later.AllMean ts handles := by
  induction ts generalizing handles with
  | nil => cases handles <;> simp_all [AllMean]
  | cons t ts ih =>
    cases handles with
    | nil => simp [AllMean] at hall
    | cons handle handles =>
      exact ⟨hall.1.imp h (hts t (by simp)), ih (fun u hu => hts u (by simp [hu])) hall.2⟩

/-- A node goes on describing what it describes. -/
theorem Extends.means {later earlier : TypeTable} (h : later.Extends earlier) (t : Ty)
    (n : TypeNode) (hmeans : earlier.Means t n) : later.Means t n := by
  induction t using Ty.inductionOn generalizing n with
  | qualified t _ ih | array t _ ih | pointer t ih | lvalueRef t ih | rvalueRef t ih =>
    obtain ⟨part, rfl, hpart⟩ := hmeans
    exact ⟨part, rfl, hpart.imp h ih⟩
  | function r ps quals ihr ihps =>
    obtain ⟨number, s, rfl, hs, hquals, hr, hps⟩ := hmeans
    exact ⟨number, s, rfl, h.signature hs, hquals, hr.imp h ihr, hps.imp h ihps⟩
  | memberPointer c t ihc iht =>
    obtain ⟨cls, part, rfl, hcls, hpart⟩ := hmeans
    exact ⟨cls, part, rfl, hcls.imp h ihc, hpart.imp h iht⟩
  | _ => exact hmeans

theorem Extends.stands {later earlier : TypeTable} {handle : TypeHandle} {t : Ty}
    (h : later.Extends earlier) (ht : earlier.Stands handle t) : later.Stands handle t :=
  ht.imp h (h.means t)

end TypeTable

mutual

/-- How many types the longest chain of parts of a type has. -/
def Ty.height : Ty → Nat
  | .qualified t _ | .pointer t | .lvalueRef t | .rvalueRef t | .array t _ => t.height + 1
  | .function r ps _ => max r.height (Ty.heightAll ps) + 1
  | .memberPointer c t => max c.height t.height + 1
  | _ => 1

/-- The greatest height of several types. -/
def Ty.heightAll : List Ty → Nat
  | [] => 0
  | t :: ts => max t.height (Ty.heightAll ts)

end

namespace TypeTable

/-- Whether the table holds no node and no signature twice. -/
structure Distinct (sharding : Sharding TypeNode) (table : TypeTable) : Prop where
  nodup : ∀ shard : Fin 64, (table.nodes.shard shard).toList.Nodup
  placed : ∀ shard : Fin 64, ∀ n ∈ table.nodes.shard shard,
    sharding n = shard ∧ n.predefinedHandle? = none
  signatures_nodup : table.signatures.toList.Nodup

/-- Whether the table is one that only entering types has filled: it has the parts of every
node. -/
structure Valid (sharding : Sharding TypeNode) (table : TypeTable) : Prop
    extends Distinct sharding table where
  closed : ∀ handle n, table.lookup? handle = some n →
    ∃ t, table.Means t n ∧ t.height ≤ table.size + 1

/-- Whether a valid table has been left in which the handle stands for the type. -/
structure Entered (sharding : Sharding TypeNode) (outcome : TypeHandle × TypeTable) (t : Ty) :
    Prop where
  valid : outcome.2.Valid sharding
  stands : outcome.2.Stands outcome.1 t

section Identity

variable {sharding : Sharding TypeNode} {table : TypeTable}

/-- Interning a node of the table finds it. -/
theorem Distinct.intern_eq (h : table.Distinct sharding) {handle : TypeHandle} {n : TypeNode}
    (hn : table.lookup? handle = some n) : table.intern sharding n = (handle, table) := by
  obtain ⟨i, hi, rfl⟩ | ⟨shard, place, hplace, rfl⟩ := lookup?_cases hn
  · have hpredefined := TypeNode.predefinedHandle?_eq_some_iff.2 ⟨i, hi, rfl⟩
    simp only [intern, hpredefined]
  · obtain ⟨rfl, hpredefined⟩ := h.placed shard n (Array.mem_of_getElem? hplace)
    have hfound := (table.nodes.place?_eq_some_iff (h.nodup _)).2 hplace
    simp only [intern, hpredefined, hfound]

theorem Distinct.handle_eq (h : table.Distinct sharding) {handle handle' : TypeHandle} {n : TypeNode}
    (hn : table.lookup? handle = some n) (hn' : table.lookup? handle' = some n) :
    handle = handle' := by
  have := (h.intern_eq hn).symm.trans (h.intern_eq hn')
  exact (Prod.mk.inj this).1

theorem Distinct.signature_eq_iff (h : table.Distinct sharding) {number number' : Nat}
    {s s' : StoredSignature} (hs : table.signatures[number]? = some s)
    (hs' : table.signatures[number']? = some s') : number = number' ↔ s = s' := by
  constructor
  · rintro rfl
    exact Option.some.inj (hs.symm.trans hs')
  · rintro rfl
    rw [← Array.getElem?_toList, ← idxOf?_eq_some_iff_of_nodup h.signatures_nodup] at hs hs'
    exact Option.some.inj (hs.symm.trans hs')

theorem Distinct.holds_iff (h : table.Distinct sharding) {handle handle' : TypeHandle} {t u : Ty}
    (ih : ∀ n m, table.Means t n → table.Means u m → (n = m ↔ t = u))
    (ht : table.Holds handle (table.Means t)) (hu : table.Holds handle' (table.Means u)) :
    handle = handle' ↔ t = u := by
  obtain ⟨n, hn, ht⟩ := ht
  obtain ⟨m, hm, hu⟩ := hu
  rw [← ih n m ht hu]
  constructor
  · rintro rfl
    exact Option.some.inj (hn.symm.trans hm)
  · rintro rfl
    exact h.handle_eq hn hm

theorem Distinct.allMean_iff (h : table.Distinct sharding) {ts us : List Ty}
    {handles handles' : List TypeHandle}
    (ih : ∀ t ∈ ts, ∀ u n m, table.Means t n → table.Means u m → (n = m ↔ t = u))
    (ht : table.AllMean ts handles) (hu : table.AllMean us handles') :
    handles = handles' ↔ ts = us := by
  induction ts generalizing us handles handles' with
  | nil => cases handles <;> cases us <;> cases handles' <;> simp_all [AllMean]
  | cons t ts ihts =>
    cases handles with
    | nil => simp [AllMean] at ht
    | cons handle handles =>
      cases us <;> cases handles' <;> simp only [AllMean] at hu
      · simp
      · have hhead := h.holds_iff (ih t (by simp) _) ht.1 hu.1
        have htail := ihts (fun u hu => ih u (by simp [hu])) ht.2 hu.2
        simp [hhead, htail]

/-- Nodes are equal when the types that they describe are. -/
theorem Distinct.means_iff (h : table.Distinct sharding) (t u : Ty) (n m : TypeNode)
    (ht : table.Means t n) (hu : table.Means u m) : n = m ↔ t = u := by
  induction t using Ty.inductionOn generalizing u n m with
  | qualified t _ ih | array t _ ih | pointer t ih | lvalueRef t ih | rvalueRef t ih =>
    obtain ⟨part, rfl, hpart⟩ := ht
    cases u <;> simp only [Means] at hu
    case qualified u _ | array u _ | pointer u | lvalueRef u | rvalueRef u =>
      obtain ⟨part', rfl, hpart'⟩ := hu
      have hparts := h.holds_iff (ih u) hpart hpart'
      grind
    all_goals grind
  | function r ps quals ihr ihps =>
    obtain ⟨number, s, rfl, hs, rfl, hr, hps⟩ := ht
    cases u <;> simp only [Means] at hu
    case function r' ps' _ =>
      obtain ⟨number', s', rfl, hs', rfl, hr', hps'⟩ := hu
      have hresult := h.holds_iff (ihr r') hr hr'
      have hparams := h.allMean_iff ihps hps hps'
      rw [TypeNode.function.injEq, h.signature_eq_iff hs hs', Ty.function.injEq, ← hresult, ← hparams]
      cases s; cases s'; simp
    all_goals grind
  | memberPointer c t ihc iht =>
    obtain ⟨cls, part, rfl, hcls, hpart⟩ := ht
    cases u <;> simp only [Means] at hu
    case memberPointer d u =>
      obtain ⟨cls', part', rfl, hcls', hpart'⟩ := hu
      simp [h.holds_iff (ihc d) hcls hcls', h.holds_iff (iht u) hpart hpart']
    all_goals grind
  | _ => cases u <;> simp only [Means] at ht hu <;> grind

/-- Handles are equal when the types that they stand for are. -/
theorem Distinct.stands_iff (h : table.Distinct sharding) {handle handle' : TypeHandle} {t u : Ty}
    (ht : table.Stands handle t) (hu : table.Stands handle' u) : handle = handle' ↔ t = u :=
  h.holds_iff (h.means_iff t u) ht hu

theorem Valid.height_le (h : table.Valid sharding) {handle : TypeHandle} {t : Ty}
    (ht : table.Stands handle t) : t.height ≤ table.size + 1 := by
  obtain ⟨n, hn, ht⟩ := ht
  obtain ⟨u, hu, hheight⟩ := h.closed handle n hn
  rwa [(h.means_iff t u n n ht hu).1 rfl]

end Identity

section Reading

variable {sharding : Sharding TypeNode} {table : TypeTable}

theorem height_le_heightAll {t : Ty} {ts : List Ty} (h : t ∈ ts) : t.height ≤ Ty.heightAll ts := by
  induction ts with
  | nil => simp at h
  | cons u ts ih =>
    simp only [Ty.heightAll]
    rcases List.mem_cons.1 h with rfl | h
    · omega
    · have := ih h
      omega

theorem AllMean.map_eq {ts : List Ty} {handles : List TypeHandle} {read : TypeHandle → Ty}
    (hread : ∀ t ∈ ts, ∀ handle, table.Stands handle t → read handle = t)
    (h : table.AllMean ts handles) : handles.map read = ts := by
  induction ts generalizing handles with
  | nil => cases handles <;> simp_all [AllMean]
  | cons t ts ih =>
    cases handles with
    | nil => simp [AllMean] at h
    | cons handle handles =>
      rw [List.map_cons, hread t (by simp) handle h.1, ih (fun u hu => hread u (by simp [hu])) h.2]

/-- Whether the signatures that are being read all belong to function types higher than `t`. -/
def Above (table : TypeTable) (within : List Nat) (t : Ty) : Prop :=
  ∀ number ∈ within, ∃ u, table.Means u (.function number) ∧ t.height < u.height

theorem Above.mono {within : List Nat} {t u : Ty} (h : u.height ≤ t.height)
    (ht : table.Above within t) : table.Above within u := fun number hnumber =>
  let ⟨v, hv, hheight⟩ := ht number hnumber
  ⟨v, hv, Nat.lt_of_le_of_lt h hheight⟩

/-- A handle reads back as the type that it stands for. A signature is never met again inside
itself, for its function type would be a part of itself. -/
theorem Valid.readWithin_eq (h : table.Valid sharding) (bound : Nat) (within : List Nat) (t : Ty)
    (handle : TypeHandle) (ht : table.Stands handle t) (hbound : t.height ≤ bound)
    (habove : table.Above within t) : table.readWithin within bound handle = t := by
  induction bound generalizing within t handle with
  | zero => cases t <;> simp [Ty.height] at hbound
  | succ bound ih =>
    obtain ⟨n, hn, hmeans⟩ := ht
    cases t with
    | qualified t _ | array t _ | pointer t | lvalueRef t | rvalueRef t =>
      obtain ⟨part, rfl, hpart⟩ := hmeans
      simp only [Ty.height] at hbound
      simp only [readWithin, hn]
      rw [ih within t part hpart (by omega) (habove.mono (by simp [Ty.height]))]
    | function r ps quals =>
      obtain ⟨number, s, rfl, hs, rfl, hr, hps⟩ := id hmeans
      simp only [Ty.height] at hbound
      have hfresh : number ∉ within := fun hmem => by
        obtain ⟨u, hu, hheight⟩ := habove number hmem
        rw [(h.means_iff _ u _ _ hmeans hu).1 rfl] at hheight
        omega
      have hpart : ∀ t, t.height ≤ max r.height (Ty.heightAll ps) → ∀ handle,
          table.Stands handle t → table.readWithin (number :: within) bound handle = t := by
        intro t hheight handle ht
        refine ih _ t handle ht (by omega) fun other hother => ?_
        rcases List.mem_cons.1 hother with rfl | hother
        · exact ⟨_, hmeans, by simp only [Ty.height]; omega⟩
        · exact habove.mono (by simp only [Ty.height]; omega) other hother
      have hparams : s.params.map (table.readWithin (number :: within) bound) = ps :=
        hps.map_eq fun t hmem => hpart t (by have := height_le_heightAll hmem; omega)
      simp only [readWithin, hn, if_neg hfresh, hs, hpart r (by omega) _ hr, hparams]
    | memberPointer c t =>
      obtain ⟨cls, part, rfl, hcls, hpart⟩ := hmeans
      simp only [Ty.height] at hbound
      simp only [readWithin, hn]
      rw [ih within c cls hcls (by omega) (habove.mono (by simp only [Ty.height]; omega)),
        ih within t part hpart (by omega) (habove.mono (by simp only [Ty.height]; omega))]
    | functionNamed _ | unknown _ => exact hmeans.elim
    | _ =>
      cases hmeans
      simp only [readWithin, hn]

/-- A handle reads back as the type that it stands for. -/
theorem Valid.read_eq (h : table.Valid sharding) {handle : TypeHandle} {t : Ty}
    (ht : table.Stands handle t) : table.read handle = t :=
  h.readWithin_eq _ [] t handle ht (h.height_le ht) (by simp [Above])

end Reading

section Entering

variable {sharding : Sharding TypeNode} {table : TypeTable}

/-- The first table has been filled with nothing. -/
theorem fresh_valid : fresh.Valid sharding where
  nodup shard := by simp [fresh, Pool.shard_empty]
  placed shard n hn := by simp [fresh, Pool.shard_empty] at hn
  signatures_nodup := by simp [fresh]
  closed handle n hn := by
    obtain ⟨i, hi, rfl⟩ | ⟨shard, place, hplace, -⟩ := lookup?_cases hn
    · have hmem := List.mem_of_getElem? hi
      simp only [TypeNode.predefined, List.cons_append, List.nil_append, List.mem_cons,
        List.mem_map] at hmem
      obtain rfl | rfl | ⟨k, -, rfl⟩ := hmem
      · exact ⟨.void, rfl, by simp [Ty.height]⟩
      · exact ⟨.nullptr, rfl, by simp [Ty.height]⟩
      · exact ⟨.builtin k, rfl, by simp [Ty.height]⟩
    · simp [fresh, Pool.shard_empty] at hplace

theorem lookup?_push {shard : Fin 64} {n m : TypeNode} {handle : TypeHandle}
    (h : (table.push shard n).lookup? handle = some m) :
    table.lookup? handle = some m ∨ m = n := by
  by_cases hstored : handle.number < firstStored
  · left
    simpa only [lookup?, if_pos hstored] using h
  · simp only [lookup?, if_neg hstored, Pool.get?_eq, push, Pool.shard_push] at h ⊢
    split at h
    · next heq =>
      rw [Array.getElem?_push] at h
      split at h
      · exact .inr (Option.some.inj h).symm
      · subst heq
        exact .inl h
    · exact .inl h

theorem Distinct.push (h : table.Distinct sharding) {n : TypeNode}
    (hpredefined : n.predefinedHandle? = none) (hnew : n ∉ table.nodes.shard (sharding n)) :
    (table.push (sharding n) n).Distinct sharding where
  nodup := table.nodes.nodup_shard_push h.nodup hnew
  placed shard m hm := by
    rcases table.nodes.mem_shard_push.1 hm with hm | ⟨rfl, rfl⟩
    · exact h.placed shard m hm
    · exact ⟨rfl, hpredefined⟩
  signatures_nodup := h.signatures_nodup

theorem Distinct.intern (h : table.Distinct sharding) (n : TypeNode) :
    (table.intern sharding n).2.Distinct sharding := by
  obtain ⟨_, _, heq⟩ | ⟨_, _, heq⟩ | ⟨hpredefined, hnew, heq⟩ := intern_cases sharding table n <;>
    rw [heq]
  · exact h
  · exact h
  · exact h.push hpredefined hnew

theorem Distinct.internSignature (h : table.Distinct sharding) (s : StoredSignature) :
    (table.internSignature s).2.Distinct sharding := by
  rw [TypeTable.internSignature]
  split
  · exact h
  · next hnew =>
    refine ⟨h.nodup, h.placed, ?_⟩
    rw [Array.toList_push, List.nodup_append]
    refine ⟨h.signatures_nodup, by simp, fun s' hs' k hk heq => ?_⟩
    obtain rfl := heq.trans (List.mem_singleton.1 hk)
    exact Array.idxOf?_eq_none_iff.1 hnew (Array.mem_toList_iff.1 hs')

/-- A new node that describes a type keeps a table valid. -/
theorem Valid.push (h : table.Valid sharding) {n : TypeNode} {t : Ty}
    (hpredefined : n.predefinedHandle? = none) (hnew : n ∉ table.nodes.shard (sharding n))
    (hmeans : table.Means t n) (hheight : t.height ≤ table.size + 2) :
    (table.push (sharding n) n).Valid sharding := by
  refine ⟨h.toDistinct.push hpredefined hnew, fun handle m hm => ?_⟩
  have hsize : (table.push (sharding n) n).size = table.size + 1 := Pool.size_push ..
  rw [hsize]
  have hext := push_extends table (sharding n) n
  rcases lookup?_push hm with hm | rfl
  · obtain ⟨u, hu, hle⟩ := h.closed handle m hm
    exact ⟨u, hext.means u m hu, by omega⟩
  · exact ⟨t, hext.means t _ hmeans, by omega⟩

/-- The handle that interning a node gives is a handle of the node. -/
theorem Distinct.lookup?_intern (h : table.Distinct sharding) {n : TypeNode}
    (hroom : (table.intern sharding n).2.HasRoom) :
    (table.intern sharding n).2.lookup? (table.intern sharding n).1 = some n := by
  obtain ⟨handle, hpredefined, heq⟩ | ⟨place, hplace, heq⟩ | ⟨-, -, heq⟩ :=
    intern_cases sharding table n
  · rw [heq]
    obtain ⟨i, hi, rfl⟩ := TypeNode.predefinedHandle?_eq_some_iff.1 hpredefined
    exact lookup?_predefined table hi
  · rw [heq] at hroom ⊢
    rw [Pool.place?_eq_some_iff _ (h.nodup _)] at hplace
    obtain ⟨hlt, -⟩ := Array.getElem?_eq_some_iff.1 hplace
    rw [lookup?_slot table (sharding n) (Nat.lt_of_lt_of_le hlt (hroom _)), hplace]
  · rw [heq] at hroom ⊢
    have hsize : (table.push (sharding n) n).nodes.shardSize (sharding n) =
        table.nodes.shardSize (sharding n) + 1 := by
      simp only [Pool.shardSize_eq, TypeTable.push, Pool.shard_push, ite_true, Array.size_push]
    have hlt : table.nodes.shardSize (sharding n) < Pool.places := by
      have := hroom (sharding n)
      simp only at this
      omega
    simp only
    rw [lookup?_slot _ _ hlt, TypeTable.push, Pool.shard_push, if_pos rfl]
    simp [Pool.shardSize_eq]

/-- Interning a node that describes a type gives a handle that stands for the type. -/
theorem Valid.intern (h : table.Valid sharding) {n : TypeNode} {t : Ty}
    (hmeans : table.Means t n) (hheight : t.height ≤ table.size + 2)
    (hroom : (table.intern sharding n).2.HasRoom) : Entered sharding (table.intern sharding n) t := by
  refine ⟨?_, n, h.toDistinct.lookup?_intern hroom, (intern_extends ..).means t n hmeans⟩
  obtain ⟨_, _, heq⟩ | ⟨_, _, heq⟩ | ⟨hpredefined, hnew, heq⟩ := intern_cases sharding table n <;>
    rw [heq]
  · exact h
  · exact h
  · exact h.push hpredefined hnew hmeans hheight

theorem Valid.internSignature (h : table.Valid sharding) (s : StoredSignature) :
    (table.internSignature s).2.Valid sharding ∧
      (table.internSignature s).2.signatures[(table.internSignature s).1]? = some s := by
  have hext := internSignature_extends table s
  have hdistinct := h.toDistinct.internSignature s
  have hfound := @idxOf?_eq_some_iff_of_nodup _ _ _ table.signatures.toList s
  rw [TypeTable.internSignature] at hext hdistinct ⊢
  split
  · next number hnumber =>
    refine ⟨h, ?_⟩
    rwa [← Array.getElem?_toList, ← hfound h.signatures_nodup, ← List.idxOf?_toArray]
  · next hnew =>
    rw [hnew] at hext hdistinct
    refine ⟨⟨hdistinct, fun handle n hn => ?_⟩, by simp⟩
    obtain ⟨t, ht, hheight⟩ := h.closed handle n hn
    exact ⟨t, hext.means t n ht, hheight⟩

end Entering

section Adding

variable {sharding : Sharding TypeNode}

theorem addAll_extends {ts : List Ty}
    (h : ∀ t ∈ ts, ∀ table, (add sharding table t).2.Extends table) (table : TypeTable) :
    (table.addAll sharding ts).2.Extends table := by
  induction ts generalizing table with
  | nil => exact .refl table
  | cons t ts ih =>
    rw [addAll]
    exact (ih (fun u hu => h u (by simp [hu])) _).trans (h t (by simp) table)

theorem add_extends (t : Ty) (table : TypeTable) : (table.add sharding t).2.Extends table := by
  induction t using Ty.inductionOn generalizing table with
  | qualified t _ ih | array t _ ih | pointer t ih | lvalueRef t ih | rvalueRef t ih =>
    rw [add]
    exact (intern_extends ..).trans (ih table)
  | function r ps quals ihr ihps =>
    rw [add]
    exact (intern_extends ..).trans
      ((internSignature_extends ..).trans ((addAll_extends ihps _).trans (ihr table)))
  | memberPointer c t ihc iht =>
    rw [add]
    exact (intern_extends ..).trans ((iht _).trans (ihc table))
  | unknown _ => exact .refl table
  | _ =>
    rw [add]
    exact intern_extends ..

theorem Distinct.addAll {ts : List Ty}
    (h : ∀ t ∈ ts, ∀ table : TypeTable, table.Distinct sharding →
      (table.add sharding t).2.Distinct sharding)
    {table : TypeTable} (htable : table.Distinct sharding) :
    (table.addAll sharding ts).2.Distinct sharding := by
  induction ts generalizing table with
  | nil => exact htable
  | cons t ts ih =>
    rw [TypeTable.addAll]
    exact ih (fun u hu => h u (by simp [hu])) (h t (by simp) table htable)

theorem Distinct.add (t : Ty) {table : TypeTable} (h : table.Distinct sharding) :
    (table.add sharding t).2.Distinct sharding := by
  induction t using Ty.inductionOn generalizing table with
  | qualified t _ ih | array t _ ih | pointer t ih | lvalueRef t ih | rvalueRef t ih =>
    rw [TypeTable.add]
    exact (ih h).intern _
  | function r ps quals ihr ihps =>
    rw [TypeTable.add]
    exact ((Distinct.addAll (fun p hp _ => ihps p hp) (ihr h)).internSignature _).intern _
  | memberPointer c t ihc iht =>
    rw [TypeTable.add]
    exact (iht (ihc h)).intern _
  | unknown _ => exact h
  | _ =>
    rw [TypeTable.add]
    exact h.intern _

theorem Distinct.addAll_eq {ts : List Ty} {table : TypeTable} {handles : List TypeHandle}
    (h : ∀ t ∈ ts, ∀ handle, table.Stands handle t → table.add sharding t = (handle, table))
    (hts : table.AllMean ts handles) : table.addAll sharding ts = (handles, table) := by
  induction ts generalizing handles with
  | nil => cases handles <;> simp_all [AllMean, TypeTable.addAll]
  | cons t ts ih =>
    cases handles with
    | nil => simp [AllMean] at hts
    | cons handle handles =>
      simp only [TypeTable.addAll, h t (by simp) handle hts.1,
        ih (fun u hu => h u (by simp [hu])) hts.2]

/-- Entering a type that a handle stands for finds the handle. -/
theorem Distinct.add_eq {table : TypeTable} (h : table.Distinct sharding) (t : Ty)
    (handle : TypeHandle) (ht : table.Stands handle t) :
    table.add sharding t = (handle, table) := by
  induction t using Ty.inductionOn generalizing handle with
  | qualified t _ ih | array t _ ih | pointer t ih | lvalueRef t ih | rvalueRef t ih =>
    obtain ⟨_, hn, part, rfl, hpart⟩ := ht
    simp only [TypeTable.add, ih part hpart, h.intern_eq hn]
  | function r ps quals ihr ihps =>
    obtain ⟨_, hn, number, s, rfl, hs, rfl, hr, hps⟩ := ht
    have hnumber : table.internSignature s = (number, table) := by
      rw [← Array.getElem?_toList, ← idxOf?_eq_some_iff_of_nodup h.signatures_nodup,
        ← List.idxOf?_toArray] at hs
      simp only [TypeTable.internSignature, hs]
    simp only [TypeTable.add, ihr s.result hr, Distinct.addAll_eq ihps hps]
    rw [hnumber]
    exact h.intern_eq hn
  | memberPointer c t ihc iht =>
    obtain ⟨_, hn, cls, part, rfl, hcls, hpart⟩ := ht
    simp only [TypeTable.add, ihc cls hcls, iht part hpart, h.intern_eq hn]
  | functionNamed _ | unknown _ =>
    obtain ⟨_, _, ht⟩ := ht
    exact ht.elim
  | _ =>
    obtain ⟨_, hn, rfl⟩ := ht
    rw [TypeTable.add, h.intern_eq hn]

theorem Valid.addAll {ts : List Ty} {table : TypeTable}
    (hts : ∀ t ∈ ts, ∀ table : TypeTable, table.Valid sharding →
      (table.add sharding t).2.HasRoom → Entered sharding (table.add sharding t) t)
    (h : table.Valid sharding) (hroom : (table.addAll sharding ts).2.HasRoom) :
    (table.addAll sharding ts).2.Valid sharding ∧
      (table.addAll sharding ts).2.AllMean ts (table.addAll sharding ts).1 := by
  induction ts generalizing table with
  | nil => exact ⟨h, trivial⟩
  | cons t ts ih =>
    have hext : ((table.add sharding t).2.addAll sharding ts).2.Extends (table.add sharding t).2 :=
      addAll_extends (fun u _ => add_extends u) _
    obtain ⟨hvalid, hhead⟩ := hts t (by simp) table h (hext.hasRoom hroom)
    obtain ⟨hvalid, htail⟩ := ih (fun u hu => hts u (by simp [hu])) hvalid hroom
    exact ⟨hvalid, hext.stands hhead, htail⟩

theorem AllMean.heightAll_le {table : TypeTable} (h : table.Valid sharding) {ts : List Ty}
    {handles : List TypeHandle} (hts : table.AllMean ts handles) :
    Ty.heightAll ts ≤ table.size + 1 := by
  induction ts generalizing handles with
  | nil => simp [Ty.heightAll]
  | cons t ts ih =>
    cases handles with
    | nil => simp [AllMean] at hts
    | cons handle handles =>
      have hhead := h.height_le hts.1
      have htail := ih hts.2
      simp only [Ty.heightAll]
      omega

/-- Entering a function type whose parts have been entered. -/
theorem Valid.internFunction {table : TypeTable} (h : table.Valid sharding) {r : Ty} {ps : List Ty}
    {s : StoredSignature} (hr : table.Stands s.result r) (hps : table.AllMean ps s.params)
    (hroom : ((table.internSignature s).2.intern sharding
      (.function (table.internSignature s).1)).2.HasRoom) :
    Entered sharding ((table.internSignature s).2.intern sharding
      (.function (table.internSignature s).1)) (.function r ps s.quals) := by
  have hext := internSignature_extends table s
  obtain ⟨hvalid, hs⟩ := h.internSignature s
  have hr := hext.stands hr
  have hps := hps.imp hext fun t _ => hext.means t
  have hheight := hvalid.height_le hr
  have hheights := hps.heightAll_le hvalid
  exact hvalid.intern ⟨_, s, rfl, hs, rfl, hr, hps⟩ (by simp only [Ty.height]; omega) hroom

/-- Entering a type in normal form gives a handle that stands for it. -/
theorem Valid.add (t : Ty) (hnormal : t.isNormal = true) {table : TypeTable}
    (h : table.Valid sharding) (hroom : (table.add sharding t).2.HasRoom) :
    Entered sharding (table.add sharding t) t := by
  induction t using Ty.inductionOn generalizing table with
  | qualified t _ ih | array t _ ih | pointer t ih | lvalueRef t ih | rvalueRef t ih =>
    rw [TypeTable.add] at hroom ⊢
    obtain ⟨hvalid, ht⟩ := ih (by simp_all [Ty.isNormal]) h ((intern_extends ..).hasRoom hroom)
    have hheight := hvalid.height_le ht
    exact hvalid.intern ⟨_, rfl, ht⟩ (by simp only [Ty.height]; omega) hroom
  | function r ps quals ihr ihps =>
    simp only [Ty.isNormal, Bool.and_eq_true, Ty.areNormalParameters_iff] at hnormal
    rw [TypeTable.add] at hroom ⊢
    have hroom_params := (internSignature_extends ..).hasRoom ((intern_extends ..).hasRoom hroom)
    have hext : ((table.add sharding r).2.addAll sharding ps).2.Extends (table.add sharding r).2 :=
      addAll_extends (fun p _ => add_extends p) _
    obtain ⟨hvalid, hr⟩ := ihr hnormal.1 h (hext.hasRoom hroom_params)
    obtain ⟨hvalid, hps⟩ := hvalid.addAll
      (fun p hp _ hvalid hroom => ihps p hp (hnormal.2 p hp).2 hvalid hroom) hroom_params
    exact hvalid.internFunction (hext.stands hr) hps hroom
  | memberPointer c t ihc iht =>
    simp only [Ty.isNormal, Bool.and_eq_true] at hnormal
    rw [TypeTable.add] at hroom ⊢
    have hroom_pointee := (intern_extends ..).hasRoom hroom
    have hext : ((table.add sharding c).2.add sharding t).2.Extends (table.add sharding c).2 :=
      add_extends t _
    obtain ⟨hvalid, hc⟩ := ihc hnormal.1 h (hext.hasRoom hroom_pointee)
    obtain ⟨hvalid, ht⟩ := iht hnormal.2 hvalid hroom_pointee
    have hheight := hvalid.height_le (hext.stands hc)
    have hheight' := hvalid.height_le ht
    exact hvalid.intern ⟨_, _, rfl, hext.stands hc, ht⟩ (by simp only [Ty.height]; omega) hroom
  | functionNamed _ | unknown _ => simp [Ty.isNormal] at hnormal
  | _ => exact h.intern rfl (by simp [Ty.height]) hroom

/-- A type that has been entered reads back. -/
theorem Valid.read_add {table : TypeTable} (h : table.Valid sharding) {t : Ty}
    (hnormal : t.isNormal = true) (hroom : (table.add sharding t).2.HasRoom) :
    (table.add sharding t).2.read (table.add sharding t).1 = t :=
  (h.add t hnormal hroom).valid.read_eq (h.add t hnormal hroom).stands

end Adding

end TypeTable

end TypeTraits
