import TypeTraits.Proofs.Pool.TypeTable

/-!
# The identity of nodes

Nodes interned one after another into one table, whatever their parts are and however the nodes
are spread over the shards. As long as every stored node has a handle of its own, a handle goes on
standing for the node that it was given for, and different nodes have different handles. A stored
node never has the handle of a type without parts, and a handle that nothing was given stands for
nothing.
-/

namespace TypeTraits

namespace TypeNode

theorem predefinedHandle?_eq_none_iff {n : TypeNode} :
    n.predefinedHandle? = none ↔ n ∉ predefined := by
  rw [predefinedHandle?, Option.map_eq_none_iff, List.idxOf?_eq_none_iff]

/-- The handles of the nodes that are not stored are below those of the nodes that are. -/
theorem predefinedHandle?_lt {n : TypeNode} {handle : TypeHandle}
    (h : n.predefinedHandle? = some handle) : handle.number < TypeTable.firstStored := by
  obtain ⟨i, hi, rfl⟩ := predefinedHandle?_eq_some_iff.1 h
  obtain ⟨hlt, -⟩ := List.getElem?_eq_some_iff.1 hi
  have hlength : predefined.length = 22 := by decide
  simp [UInt32.lt_iff_toNat_lt, TypeTable.firstStored]
  omega

end TypeNode

namespace TypeTable

/-- Interning several nodes one after another: each with its handle, and the table that is left. -/
def internAll (sharding : Sharding TypeNode) (table : TypeTable) :
    List TypeNode → List (TypeNode × TypeHandle) × TypeTable
  | [] => ([], table)
  | n :: ns =>
    let (handle, table) := table.intern sharding n
    let (known, table) := internAll sharding table ns
    ((n, handle) :: known, table)

section Run

variable {sharding : Sharding TypeNode} {table : TypeTable} {known : List (TypeNode × TypeHandle)}

theorem internAll_cons (n : TypeNode) (ns : List TypeNode) :
    table.internAll sharding (n :: ns) =
      ((n, (table.intern sharding n).1) :: ((table.intern sharding n).2.internAll sharding ns).1,
        ((table.intern sharding n).2.internAll sharding ns).2) := rfl

theorem internAll_append (ns later : List TypeNode) :
    table.internAll sharding (ns ++ later) =
      ((table.internAll sharding ns).1 ++
          ((table.internAll sharding ns).2.internAll sharding later).1,
        ((table.internAll sharding ns).2.internAll sharding later).2) := by
  induction ns generalizing table with
  | nil => rfl
  | cons n ns ih => simp only [List.cons_append, internAll_cons, ih]

/-- Every node that is interned is given a handle, in order. -/
theorem internAll_nodes (ns : List TypeNode) :
    (table.internAll sharding ns).1.map (·.1) = ns := by
  induction ns generalizing table with
  | nil => rfl
  | cons n ns ih => rw [internAll_cons, List.map_cons, ih]

theorem internAll_extends (ns : List TypeNode) :
    (table.internAll sharding ns).2.Extends table := by
  induction ns generalizing table with
  | nil => exact .refl table
  | cons n ns ih => exact ih.trans (intern_extends ..)

/-- Whether the known nodes are those of the table, each with its handle. -/
structure Accounts (sharding : Sharding TypeNode) (table : TypeTable)
    (known : List (TypeNode × TypeHandle)) : Prop where
  distinct : table.Distinct sharding
  found : ∀ x ∈ known, table.lookup? x.2 = some x.1
  stored : ∀ shard : Fin 64, ∀ n ∈ table.nodes.shard shard, ∃ handle, (n, handle) ∈ known

theorem accounts_fresh : Accounts sharding .fresh [] where
  distinct := fresh_valid.toDistinct
  found := by simp
  stored := by simp [fresh, Pool.shard_empty]

/-- Interning a node makes it known and forgets none. -/
theorem Accounts.intern (h : Accounts sharding table known) (n : TypeNode)
    (hroom : (table.intern sharding n).2.HasRoom) :
    Accounts sharding (table.intern sharding n).2 (known ++ [(n, (table.intern sharding n).1)]) where
  distinct := h.distinct.intern n
  found x hx := by
    rcases List.mem_append.1 hx with hx | hx
    · exact (intern_extends ..).lookup? (h.found x hx)
    · obtain rfl := List.mem_singleton.1 hx
      exact h.distinct.lookup?_intern hroom
  stored shard m hm := by
    have hkept : (∃ handle, (m, handle) ∈ known) →
        ∃ handle, (m, handle) ∈ known ++ [(n, (table.intern sharding n).1)] :=
      fun ⟨handle, hmem⟩ => ⟨handle, List.mem_append_left _ hmem⟩
    obtain ⟨_, _, heq⟩ | ⟨_, _, heq⟩ | ⟨_, _, heq⟩ := intern_cases sharding table n
    · rw [heq] at hm
      exact hkept (h.stored shard m hm)
    · rw [heq] at hm
      exact hkept (h.stored shard m hm)
    · rw [heq] at hm
      rcases table.nodes.mem_shard_push.1 hm with hm | ⟨rfl, rfl⟩
      · exact hkept (h.stored shard m hm)
      · exact ⟨_, List.mem_append_right _ (List.mem_singleton.2 rfl)⟩

theorem Accounts.internAll (h : Accounts sharding table known) (ns : List TypeNode)
    (hroom : (table.internAll sharding ns).2.HasRoom) :
    Accounts sharding (table.internAll sharding ns).2
      (known ++ (table.internAll sharding ns).1) := by
  induction ns generalizing table known with
  | nil => simpa [TypeTable.internAll] using h
  | cons n ns ih =>
    have hstep := h.intern n ((internAll_extends ns).hasRoom hroom)
    simpa [internAll_cons] using ih hstep hroom

/-- The handles of stored nodes do not wrap around. -/
theorem firstStored_le (shard : Fin 64) {place : Nat} (h : place < Pool.places) :
    firstStored ≤ firstStored + Pool.slot shard place := by
  have hslot := Pool.toNat_slot shard h.le
  have := shard.isLt
  simp only [Pool.places] at h
  simp [UInt32.le_iff_toNat_le, UInt32.toNat_add, hslot, firstStored]
  omega

/-- Where a node is behind a handle, the handle is below those of stored nodes exactly when the
node is one that is not stored. -/
theorem Distinct.lt_firstStored_iff (h : table.Distinct sharding) (hroom : table.HasRoom)
    {handle : TypeHandle} {n : TypeNode} (hn : table.lookup? handle = some n) :
    handle.number < firstStored ↔ n ∈ TypeNode.predefined := by
  obtain ⟨i, hi, rfl⟩ | ⟨shard, place, hplace, rfl⟩ := lookup?_cases hn
  · have hpredefined := TypeNode.predefinedHandle?_eq_some_iff.2 ⟨i, hi, rfl⟩
    exact ⟨fun _ => List.mem_of_getElem? hi, fun _ => TypeNode.predefinedHandle?_lt hpredefined⟩
  · obtain ⟨hlt, -⟩ := Array.getElem?_eq_some_iff.1 hplace
    have hle := firstStored_le shard (Nat.lt_of_lt_of_le hlt (hroom shard))
    have hnew := (h.placed shard n (Array.mem_of_getElem? hplace)).2
    rw [TypeNode.predefinedHandle?_eq_none_iff] at hnew
    exact ⟨fun hsmall => absurd hle (UInt32.not_le.2 hsmall), fun hmem => absurd hmem hnew⟩

theorem Accounts.known_of_lookup? (h : Accounts sharding table known) {handle : TypeHandle}
    {n : TypeNode} (hn : table.lookup? handle = some n) :
    n.predefinedHandle? = some handle ∨ (n, handle) ∈ known := by
  obtain ⟨i, hi, rfl⟩ | ⟨shard, place, hplace, -⟩ := lookup?_cases hn
  · exact .inl (TypeNode.predefinedHandle?_eq_some_iff.2 ⟨i, hi, rfl⟩)
  · obtain ⟨other, hmem⟩ := h.stored shard n (Array.mem_of_getElem? hplace)
    exact .inr (h.distinct.handle_eq hn (h.found _ hmem) ▸ hmem)

/-- The identity of nodes: whatever nodes are interned, spread over the shards in whatever way,
each handle that was given stands for its node, at once and after every later interning; handles
are equal exactly when the nodes are; the handle of a stored node is no handle of a type without
parts; and no other handle stands for anything. -/
theorem internAll_identifies (sharding : Sharding TypeNode) (ns later : List TypeNode)
    (hroom : (fresh.internAll sharding (ns ++ later)).2.HasRoom) :
    let known := (fresh.internAll sharding ns).1
    let table := (fresh.internAll sharding ns).2
    known.map (·.1) = ns ∧
      (∀ x ∈ known, table.lookup? x.2 = some x.1 ∧
        (fresh.internAll sharding (ns ++ later)).2.lookup? x.2 = some x.1) ∧
      (∀ x ∈ known, ∀ y ∈ known, x.2 = y.2 ↔ x.1 = y.1) ∧
      (∀ x ∈ known, x.1 ∉ TypeNode.predefined →
        firstStored ≤ x.2.number ∧ ∀ n : TypeNode, n.predefinedHandle? ≠ some x.2) ∧
      ∀ handle : TypeHandle, (∀ n : TypeNode, n.predefinedHandle? ≠ some handle) →
        (∀ x ∈ known, x.2 ≠ handle) → table.lookup? handle = none := by
  intro known table
  rw [internAll_append] at hroom ⊢
  have hext : (table.internAll sharding later).2.Extends table := internAll_extends later
  have hroom : table.HasRoom := hext.hasRoom hroom
  have hknown : Accounts sharding table known := accounts_fresh.internAll ns hroom
  refine ⟨internAll_nodes ns, fun x hx => ?_, fun x hx y hy => ?_, fun x hx hstored => ?_,
    fun handle hpredefined hother => ?_⟩
  · exact ⟨hknown.found x hx, hext.lookup? (hknown.found x hx)⟩
  · have hx := hknown.found x hx
    have hy := hknown.found y hy
    constructor
    · intro heq
      rw [heq] at hx
      exact Option.some.inj (hx.symm.trans hy)
    · intro heq
      rw [heq] at hx
      exact hknown.distinct.handle_eq hx hy
  · have hlt := hknown.distinct.lt_firstStored_iff hroom (hknown.found x hx)
    have hle : firstStored ≤ x.2.number := UInt32.not_lt.1 (hlt.not.2 hstored)
    exact ⟨hle, fun n hn => UInt32.not_lt.2 hle (TypeNode.predefinedHandle?_lt hn)⟩
  · rw [Option.eq_none_iff_forall_ne_some]
    intro n hn
    rcases hknown.known_of_lookup? hn with hn | hn
    · exact hpredefined n hn
    · exact hother _ hn rfl

/-- A pointer interned twice, in the first shard, and a class in the last one. -/
theorem internAll_identifies_pointer_and_class :
    ∃ (sharding : Sharding TypeNode) (ns later : List TypeNode) (pointer cls : TypeHandle),
      (fresh.internAll sharding (ns ++ later)).2.HasRoom ∧
      (fresh.internAll sharding ns).1 = [(.pointer ⟨1⟩, pointer), (.record ⟨0⟩, cls),
        (.pointer ⟨1⟩, pointer)] ∧
      pointer ≠ cls ∧ firstStored ≤ cls.number ∧
      (fresh.internAll sharding (ns ++ later)).2.lookup? cls = some (.record ⟨0⟩) := by
  let sharding : Sharding TypeNode := fun n => if n = .pointer ⟨1⟩ then 0 else 63
  let ns : List TypeNode := [.pointer ⟨1⟩, .record ⟨0⟩, .pointer ⟨1⟩]
  let later : List TypeNode := [.record ⟨1⟩]
  have hroom : (fresh.internAll sharding (ns ++ later)).2.HasRoom := by decide +kernel
  obtain ⟨-, hfound, hiff, hstored, -⟩ := internAll_identifies sharding ns later hroom
  have hknown : (fresh.internAll sharding ns).1 =
      [(.pointer ⟨1⟩, ⟨64⟩), (.record ⟨0⟩, ⟨127⟩), (.pointer ⟨1⟩, ⟨64⟩)] := by decide +kernel
  rw [hknown] at hfound hiff hstored
  refine ⟨sharding, ns, later, _, _, hroom, hknown, ?_, ?_, ?_⟩
  · exact (hiff (.pointer ⟨1⟩, ⟨64⟩) (by simp) (.record ⟨0⟩, ⟨127⟩) (by simp)).not.2 (by simp)
  · exact (hstored (.record ⟨0⟩, ⟨127⟩) (by simp) (by decide)).1
  · exact (hfound (.record ⟨0⟩, ⟨127⟩) (by simp)).2

end Run

end TypeTable

end TypeTraits
