/-!
# Sharded pools

A pool keeps distinct items and gives each a 32-bit slot that never changes. The items are
spread over 64 shards by a function that the user of the pool chooses; the slot holds the shard
in its low six bits and the place within the shard above them.
-/

namespace TypeTraits

/-- How the items of a pool are spread over its shards. -/
abbrev Sharding (α : Type) := α → Fin 64

/-- The sharding by a hash of the items. -/
def Sharding.byHash {α : Type} [Hashable α] : Sharding α := fun a => Fin.ofNat 64 (hash a).toNat

/-- Distinct items in 64 shards, each shard in order of arrival. -/
structure Pool (α : Type) where
  shards : Vector (Array α) 64

namespace Pool

variable {α : Type}

def empty : Pool α := ⟨Vector.replicate 64 #[]⟩

/-- The slot of a place in a shard. -/
def slot (shard : Fin 64) (place : Nat) : UInt32 := UInt32.ofNat (place * 64 + shard)

/-- The shard of a slot. -/
def shardOf (slot : UInt32) : Fin 64 := Fin.ofNat 64 slot.toNat

/-- The place of a slot within its shard. -/
def placeOf (slot : UInt32) : Nat := slot.toNat / 64

variable (pool : Pool α)

/-- How many items a shard holds. -/
def shardSize (shard : Fin 64) : Nat := pool.shards[shard].size

/-- The number of items. -/
def size : Nat := (pool.shards.map Array.size).toList.foldl (· + ·) 0

/-- The item in a slot. -/
def get? (slot : UInt32) : Option α := pool.shards[shardOf slot][placeOf slot]?

/-- The place of an item in its shard. -/
def place? [BEq α] (shard : Fin 64) (a : α) : Option Nat := pool.shards[shard].idxOf? a

/-- The pool with one more item at the end of a shard. -/
def push (shard : Fin 64) (a : α) : Pool α :=
  ⟨pool.shards.set shard (pool.shards[shard].push a)⟩

end Pool

end TypeTraits
