import TypeTraits.Pool.NameTable
import TypeTraits.Proofs.Pool.TypeTable

/-!
# Names and their atoms

Names interned one after another into one table, however they are spread over the shards. A name
that the table holds has one atom, which stands for it from then on. A new name is refused exactly
where its shard is full, and then nothing changes. So as long as no shard is asked for more names
than it can hold, different names have different atoms, and the atom of no name is that of the
empty one alone.
-/

namespace TypeTraits

namespace NameTable

/-- The shard of a name. The empty name is where the atom of no name says. -/
def home (sharding : Sharding String) (name : String) : Fin 64 :=
  if name = "" then Pool.shardOf Atom.none.slot else sharding name

/-- The names that a shard is asked for, the empty one included. -/
def asked (sharding : Sharding String) (names : List String) (shard : Fin 64) : Finset String :=
  (insert "" names.toFinset).filter fun name => home sharding name = shard

/-- No shard is asked for more names than it can hold. -/
def Fits (sharding : Sharding String) (names : List String) : Prop :=
  ∀ shard : Fin 64, (asked sharding names shard).card ≤ shardCapacity

/-- Some atom stands for the name. -/
def Holds (table : NameTable) (name : String) : Prop := ∃ a, table.resolve? a = some name

/-- The later table holds what the earlier one holds, at the same places. -/
def Extends (later earlier : NameTable) : Prop :=
  ∀ shard : Fin 64, (earlier.pool.shard shard).toList <+: (later.pool.shard shard).toList

/-- Whether the table is one that only interning has filled: each name is in its shard, and there
once, and no shard holds more than it can. -/
structure Valid (sharding : Sharding String) (table : NameTable) : Prop where
  first : table.resolve? .none = some ""
  nodup : ∀ shard : Fin 64, (table.pool.shard shard).toList.Nodup
  placed : ∀ shard : Fin 64, ∀ name ∈ table.pool.shard shard, home sharding name = shard
  size_le : ∀ shard : Fin 64, table.pool.shardSize shard ≤ shardCapacity

variable {sharding : Sharding String} {table later last : NameTable} {name : String} {a b : Atom}

theorem Extends.refl (table : NameTable) : table.Extends table := fun _ => List.prefix_rfl

theorem Extends.trans (h : last.Extends later) (h' : later.Extends table) : last.Extends table :=
  fun shard => (h' shard).trans (h shard)

theorem Extends.resolve? (h : later.Extends table) (ha : table.resolve? a = some name) :
    later.resolve? a = some name := Pool.get?_of_prefix h ha

theorem home_of_ne (h : name ≠ "") : home sharding name = sharding name := if_neg h

theorem resolve?_slot (shard : Fin 64) {place : Nat} (h : place < shardCapacity) :
    table.resolve? ⟨Pool.slot shard place⟩ = (table.pool.shard shard)[place]? := by
  have hplace : place ≤ Pool.places := Nat.le_pred_of_lt h
  rw [NameTable.resolve?, Pool.get?_eq, Pool.shardOf_slot shard hplace,
    Pool.placeOf_slot shard hplace]

/-- The atom that a name is given where there is room stands for it. -/
theorem resolve?_push (shard : Fin 64) (hroom : table.pool.shardSize shard < shardCapacity) :
    (⟨table.pool.push shard name⟩ : NameTable).resolve?
      ⟨Pool.slot shard (table.pool.shardSize shard)⟩ = some name := by
  rw [resolve?_slot shard hroom, Pool.shard_push, if_pos rfl, Pool.shardSize_eq,
    Array.getElem?_push_size]

theorem fresh_valid : (fresh).Valid sharding where
  first := rfl
  nodup := Pool.empty.nodup_shard_push (fun shard => by simp [Pool.shard_empty])
    (by simp [Pool.shard_empty])
  placed shard name hname := by
    rcases Pool.empty.mem_shard_push.1 hname with hname | ⟨rfl, rfl⟩
    · simp [Pool.shard_empty] at hname
    · rfl
  size_le shard := by
    rw [Pool.shardSize_eq, fresh, Pool.shard_push]
    split <;> simp [Pool.shard_empty, shardCapacity]

namespace Valid

/-- A name that an atom stands for is in its shard, at the place that the atom says. -/
theorem place_of_resolve? (h : table.Valid sharding) (ha : table.resolve? a = some name) :
    Pool.shardOf a.slot = home sharding name ∧
      table.pool.place? (home sharding name) name = some (Pool.placeOf a.slot) := by
  rw [NameTable.resolve?, Pool.get?_eq] at ha
  have hhome := h.placed _ name (Array.mem_of_getElem? ha)
  rw [hhome, table.pool.place?_eq_some_iff (h.nodup _)]
  exact ⟨rfl, ha⟩

theorem atom_eq (h : table.Valid sharding) (ha : table.resolve? a = some name)
    (hb : table.resolve? b = some name) : a = b := by
  obtain ⟨hshard, hplace⟩ := h.place_of_resolve? ha
  obtain ⟨hshard', hplace'⟩ := h.place_of_resolve? hb
  have hslot : a.slot = b.slot := by
    rw [← Pool.slot_of_slot a.slot, ← Pool.slot_of_slot b.slot, hshard, hshard',
      Option.some.inj (hplace.symm.trans hplace')]
  exact congrArg Atom.mk hslot

theorem holds_iff (h : table.Valid sharding) :
    table.Holds name ↔ name ∈ table.pool.shard (home sharding name) := by
  constructor
  · rintro ⟨a, ha⟩
    obtain ⟨_, hplace⟩ := h.place_of_resolve? ha
    exact Array.mem_of_getElem? ((table.pool.place?_eq_some_iff (h.nodup _)).1 hplace)
  · intro hmem
    obtain ⟨place, hplace, hname⟩ := Array.mem_iff_getElem.1 hmem
    have hlt : place < shardCapacity := Nat.lt_of_lt_of_le hplace (h.size_le _)
    exact ⟨_, (resolve?_slot _ hlt).trans (Array.getElem?_eq_some_iff.2 ⟨hplace, hname⟩)⟩

theorem holds_empty (h : table.Valid sharding) : table.Holds "" := ⟨_, h.first⟩

/-- Only the empty name has the atom of no name. -/
theorem eq_none_iff (h : table.Valid sharding) (ha : table.resolve? a = some name) :
    a = .none ↔ name = "" := by
  constructor
  · rintro rfl
    exact Option.some.inj (ha.symm.trans h.first)
  · rintro rfl
    exact h.atom_eq ha h.first

/-- A held name is found, a new one enters its shard, and where that is full it is refused. -/
theorem intern_cases (h : table.Valid sharding) (name : String) :
    (∃ a, table.resolve? a = some name ∧ table.intern sharding name = (a, table)) ∨
    (¬table.Holds name ∧ table.pool.shardSize (home sharding name) < shardCapacity ∧
      table.intern sharding name =
        (⟨Pool.slot (home sharding name) (table.pool.shardSize (home sharding name))⟩,
          ⟨table.pool.push (home sharding name) name⟩)) ∨
    (¬table.Holds name ∧ table.pool.shardSize (home sharding name) = shardCapacity ∧
      table.intern sharding name = (.none, table)) := by
  by_cases hempty : name = ""
  · subst hempty
    exact .inl ⟨_, h.first, rfl⟩
  · have hhome : home sharding name = sharding name := home_of_ne hempty
    rw [h.holds_iff, hhome, intern, if_neg (by simpa using hempty)]
    dsimp only
    split
    · next place hplace =>
      have hname := (table.pool.place?_eq_some_iff (h.nodup _)).1 hplace
      obtain ⟨hlt, _⟩ := Array.getElem?_eq_some_iff.1 hname
      refine .inl ⟨_, ?_, rfl⟩
      rw [resolve?_slot _ (Nat.lt_of_lt_of_le hlt (h.size_le _)), hname]
    · next hplace =>
      have hnew := Array.idxOf?_eq_none_iff.1 hplace
      split
      · next hroom => exact .inr (.inl ⟨hnew, hroom, rfl⟩)
      · next hfull =>
        exact .inr (.inr ⟨hnew, Nat.le_antisymm (h.size_le _) (Nat.le_of_not_lt hfull), rfl⟩)

theorem push (h : table.Valid sharding) (hnew : ¬table.Holds name)
    (hroom : table.pool.shardSize (home sharding name) < shardCapacity) :
    Valid sharding ⟨table.pool.push (home sharding name) name⟩ where
  first := Pool.get?_of_prefix (fun shard => table.pool.shard_prefix_push _ shard name) h.first
  nodup := table.pool.nodup_shard_push h.nodup (mt h.holds_iff.2 hnew)
  placed shard other hother := by
    rcases table.pool.mem_shard_push.1 hother with hother | ⟨rfl, rfl⟩
    · exact h.placed shard other hother
    · rfl
  size_le shard := by
    rw [Pool.shardSize_eq, Pool.shard_push]
    split
    · rw [Array.size_push]
      exact hroom
    · exact h.size_le shard

theorem intern (h : table.Valid sharding) (name : String) :
    (table.intern sharding name).2.Valid sharding := by
  obtain ⟨_, _, heq⟩ | ⟨hnew, hroom, heq⟩ | ⟨_, _, heq⟩ := h.intern_cases name <;> rw [heq]
  · exact h
  · exact h.push hnew hroom
  · exact h

theorem intern_extends (h : table.Valid sharding) (name : String) :
    (table.intern sharding name).2.Extends table := by
  obtain ⟨_, _, heq⟩ | ⟨_, _, heq⟩ | ⟨_, _, heq⟩ := h.intern_cases name <;> rw [heq]
  · exact .refl table
  · exact fun shard => table.pool.shard_prefix_push _ shard name
  · exact .refl table

/-- Interning a held name gives its atom. -/
theorem intern_eq (h : table.Valid sharding) (ha : table.resolve? a = some name) :
    table.intern sharding name = (a, table) := by
  obtain ⟨b, hb, heq⟩ | ⟨hnew, _⟩ | ⟨hnew, _⟩ := h.intern_cases name
  · rw [heq, h.atom_eq hb ha]
  · exact absurd ⟨a, ha⟩ hnew
  · exact absurd ⟨a, ha⟩ hnew

/-- A name is refused where it is new and its shard is full. -/
theorem intern_eq_none_iff (h : table.Valid sharding) (hname : name ≠ "") :
    (table.intern sharding name).1 = .none ↔
      ¬table.Holds name ∧ table.pool.shardSize (sharding name) = shardCapacity := by
  have hhome : home sharding name = sharding name := home_of_ne hname
  rw [← hhome]
  obtain ⟨a, ha, heq⟩ | ⟨hnew, hroom, heq⟩ | ⟨hnew, hfull, heq⟩ := h.intern_cases name <;>
    rw [heq]
  · rw [h.eq_none_iff ha]
    exact ⟨fun hempty => absurd hempty hname, fun hnew => absurd ⟨a, ha⟩ hnew.1⟩
  · rw [(h.push hnew hroom).eq_none_iff (resolve?_push _ hroom)]
    exact ⟨fun hempty => absurd hempty hname, fun hfull => absurd hfull.2 (Nat.ne_of_lt hroom)⟩
  · exact ⟨fun _ => ⟨hnew, hfull⟩, fun _ => rfl⟩

/-- Where no atom is given, nothing changes. -/
theorem intern_unchanged (h : table.Valid sharding)
    (hnone : (table.intern sharding name).1 = .none) : (table.intern sharding name).2 = table := by
  obtain ⟨_, _, heq⟩ | ⟨hnew, hroom, heq⟩ | ⟨_, _, heq⟩ := h.intern_cases name <;>
    rw [heq] at hnone ⊢
  · have hempty := ((h.push hnew hroom).eq_none_iff (resolve?_push _ hroom)).1 hnone
    exact absurd (hempty ▸ h.holds_empty) hnew

/-- Interning makes no other name held. -/
theorem holds_of_intern (h : table.Valid sharding) {other : String}
    (hother : (table.intern sharding name).2.Holds other) : table.Holds other ∨ other = name := by
  rw [(h.intern name).holds_iff] at hother
  rw [h.holds_iff]
  obtain ⟨_, _, heq⟩ | ⟨_, _, heq⟩ | ⟨_, _, heq⟩ := h.intern_cases name <;> rw [heq] at hother
  · exact .inl hother
  · exact (table.pool.mem_shard_push.1 hother).imp_right And.right
  · exact .inl hother

end Valid

section Run

variable {names all : List String}

theorem internAll_cons (name : String) (names : List String) :
    table.internAll sharding (name :: names) =
      ((table.intern sharding name).1 :: ((table.intern sharding name).2.internAll sharding names).1,
        ((table.intern sharding name).2.internAll sharding names).2) := rfl

theorem length_internAll (names : List String) :
    (table.internAll sharding names).1.length = names.length := by
  induction names generalizing table with
  | nil => rfl
  | cons name names ih => rw [internAll_cons, List.length_cons, List.length_cons, ih]

theorem Valid.internAll (h : table.Valid sharding) (names : List String) :
    (table.internAll sharding names).2.Valid sharding := by
  induction names generalizing table with
  | nil => exact h
  | cons name names ih => exact ih (h.intern name)

theorem Valid.internAll_extends (h : table.Valid sharding) (names : List String) :
    (table.internAll sharding names).2.Extends table := by
  induction names generalizing table with
  | nil => exact .refl table
  | cons name names ih => exact (ih (h.intern name)).trans (h.intern_extends name)

theorem Valid.holds_of_internAll (h : table.Valid sharding)
    (hholds : (table.internAll sharding names).2.Holds name) : table.Holds name ∨ name ∈ names := by
  induction names generalizing table with
  | nil => exact .inl hholds
  | cons first names ih =>
    rcases ih (h.intern first) hholds with hholds | hmem
    · rcases h.holds_of_intern hholds with hholds | rfl
      · exact .inl hholds
      · exact .inr List.mem_cons_self
    · exact .inr (List.mem_cons_of_mem _ hmem)

theorem mem_asked {shard : Fin 64} :
    name ∈ asked sharding names shard ↔ (name = "" ∨ name ∈ names) ∧ home sharding name = shard := by
  simp [asked]

/-- A shard has the held names that belong to it. -/
theorem Valid.mem_shard_iff (h : table.Valid sharding) {shard : Fin 64} :
    name ∈ table.pool.shard shard ↔ table.Holds name ∧ home sharding name = shard := by
  rw [h.holds_iff]
  constructor
  · intro hmem
    have hhome := h.placed shard name hmem
    exact ⟨hhome.symm ▸ hmem, hhome⟩
  · rintro ⟨hmem, rfl⟩
    exact hmem

theorem Valid.card_shard (h : table.Valid sharding) (shard : Fin 64) :
    (table.pool.shard shard).toList.toFinset.card = table.pool.shardSize shard := by
  rw [List.toFinset_card_of_nodup (h.nodup shard), Array.length_toList, Pool.shardSize_eq]

/-- A shard that is asked for a name which it does not hold yet has room for it. -/
theorem Valid.shardSize_lt (h : table.Valid sharding) (hfits : Fits sharding all)
    (hholds : ∀ other, table.Holds other → other = "" ∨ other ∈ all) (hname : name ∈ all)
    (hnew : ¬table.Holds name) : table.pool.shardSize (home sharding name) < shardCapacity := by
  refine Nat.lt_of_lt_of_le ?_ (hfits (home sharding name))
  rw [← h.card_shard]
  refine Finset.card_lt_card (Finset.ssubset_iff_of_subset ?_ |>.2 ⟨name, ?_, ?_⟩)
  · intro other hother
    rw [List.mem_toFinset, Array.mem_toList_iff, h.mem_shard_iff] at hother
    exact mem_asked.2 ⟨hholds other hother.1, hother.2⟩
  · exact mem_asked.2 ⟨.inr hname, rfl⟩
  · rw [List.mem_toFinset, Array.mem_toList_iff, h.mem_shard_iff]
    exact fun hheld => hnew hheld.1

/-- As long as no shard is asked for too many names, every name has an atom that stands for it. -/
theorem Valid.resolve?_internAll (h : table.Valid sharding) (hfits : Fits sharding all)
    (hholds : ∀ other, table.Holds other → other = "" ∨ other ∈ all)
    (hnames : ∀ other ∈ names, other ∈ all) :
    ∀ x ∈ names.zip (table.internAll sharding names).1,
      (table.internAll sharding names).2.resolve? x.2 = some x.1 := by
  induction names generalizing table with
  | nil => simp
  | cons name names ih =>
    have hname : (table.intern sharding name).2.resolve? (table.intern sharding name).1 =
        some name := by
      obtain ⟨a, ha, heq⟩ | ⟨_, hroom, heq⟩ | ⟨hnew, hfull, _⟩ := h.intern_cases name
      · rw [heq]
        exact ha
      · rw [heq]
        exact resolve?_push _ hroom
      · have hroom := h.shardSize_lt hfits hholds (hnames name List.mem_cons_self) hnew
        exact absurd hfull (Nat.ne_of_lt hroom)
    have hheld : ∀ other, (table.intern sharding name).2.Holds other →
        other = "" ∨ other ∈ all := fun other hother =>
      (h.holds_of_intern hother).elim (hholds other)
        fun heq => .inr (heq ▸ hnames name List.mem_cons_self)
    have hrest := ih (h.intern name) hheld fun other hother =>
      hnames other (List.mem_cons_of_mem _ hother)
    rw [internAll_cons, List.zip_cons_cons]
    intro x hx
    rcases List.mem_cons.1 hx with rfl | hx
    · exact ((h.intern name).internAll_extends names).resolve? hname
    · exact hrest x hx

theorem exists_mem_zip (h : name ∈ names) :
    ∃ x ∈ names.zip (table.internAll sharding names).1, x.1 = name := by
  have hlength : (table.internAll sharding names).1.length = names.length := length_internAll names
  rwa [← List.map_fst_zip hlength.ge, List.mem_map] at h

theorem eq_empty_of_fresh_holds (h : fresh.Holds name) : name = "" := by
  have hvalid : fresh.Valid fun _ => 0 := fresh_valid
  rcases Pool.empty.mem_shard_push.1 (hvalid.holds_iff.1 h) with hmem | ⟨_, rfl⟩
  · simp [Pool.shard_empty] at hmem
  · rfl

theorem holds_of_internAll_fresh (h : (fresh.internAll sharding names).2.Holds name) :
    name = "" ∨ name ∈ names :=
  (fresh_valid.holds_of_internAll h).imp_left eq_empty_of_fresh_holds

theorem resolve?_internAll_fresh (hfits : Fits sharding names) :
    ∀ x ∈ names.zip (fresh.internAll sharding names).1,
      (fresh.internAll sharding names).2.resolve? x.2 = some x.1 :=
  fresh_valid.resolve?_internAll hfits (fun _ h => .inl (eq_empty_of_fresh_holds h)) fun _ => id

/-- As long as no shard is asked for too many names, each holds those that it is asked for. -/
theorem shardSize_internAll (hfits : Fits sharding names) (shard : Fin 64) :
    (fresh.internAll sharding names).2.pool.shardSize shard =
      (asked sharding names shard).card := by
  have hvalid : (fresh.internAll sharding names).2.Valid sharding := fresh_valid.internAll names
  rw [← hvalid.card_shard]
  congr 1
  ext name
  rw [List.mem_toFinset, Array.mem_toList_iff, hvalid.mem_shard_iff, mem_asked]
  refine and_congr_left' ⟨holds_of_internAll_fresh, ?_⟩
  rintro (rfl | hmem)
  · exact hvalid.holds_empty
  · obtain ⟨x, hx, rfl⟩ := exists_mem_zip hmem
    exact ⟨x.2, resolve?_internAll_fresh hfits x hx⟩

/-- The identity of names: whatever names are interned, spread over the shards in whatever way. As
long as no shard is asked for more names than it can hold, each shard holds those that it is asked
for, each atom that was given stands for its name, at once and after every later interning, atoms
are equal exactly when the names are, and the atom of no name is that of the empty one alone.
Nothing else is held. After any history a name is refused exactly if it is new and its shard is
full, which changes nothing; and the names that are held keep their atoms. -/
theorem names_identified (sharding : Sharding String) (names later : List String) :
    let atoms := (fresh.internAll sharding names).1
    let table := (fresh.internAll sharding names).2
    let last := (table.internAll sharding later).2
    atoms.length = names.length ∧
      (Fits sharding names →
        (∀ shard, table.pool.shardSize shard = (asked sharding names shard).card) ∧
        ∀ x ∈ names.zip atoms, table.resolve x.2 = x.1 ∧ last.resolve x.2 = x.1 ∧
          (x.2 = .none ↔ x.1 = "") ∧ ∀ y ∈ names.zip atoms, x.2 = y.2 ↔ x.1 = y.1) ∧
      (∀ name, table.Holds name → name = "" ∨ name ∈ names) ∧
      (∀ name, name ≠ "" → ((table.intern sharding name).1 = .none ↔
        ¬table.Holds name ∧ table.pool.shardSize (sharding name) = shardCapacity)) ∧
      (∀ name, (table.intern sharding name).1 = .none →
        (table.intern sharding name).2 = table) ∧
      ∀ a name, table.resolve? a = some name →
        last.resolve? a = some name ∧ last.intern sharding name = (a, last) := by
  intro atoms table last
  have hvalid : table.Valid sharding := fresh_valid.internAll names
  have hlast : last.Valid sharding := hvalid.internAll later
  have hkeeps : ∀ a name, table.resolve? a = some name → last.resolve? a = some name :=
    fun _ _ ha => (hvalid.internAll_extends later).resolve? ha
  refine ⟨length_internAll names, fun hfits => ⟨shardSize_internAll hfits, fun x hx => ?_⟩,
    fun _ => holds_of_internAll_fresh, fun _ => hvalid.intern_eq_none_iff,
    fun _ => hvalid.intern_unchanged,
    fun a name ha => ⟨hkeeps a name ha, hlast.intern_eq (hkeeps a name ha)⟩⟩
  have hname := resolve?_internAll_fresh hfits x hx
  refine ⟨?_, ?_, hvalid.eq_none_iff hname, fun y hy => ?_⟩
  · rw [resolve, hname, Option.getD_some]
  · rw [resolve, hkeeps _ _ hname, Option.getD_some]
  · have hother := resolve?_internAll_fresh hfits y hy
    constructor
    · intro heq
      rw [heq] at hname
      exact Option.some.inj (hname.symm.trans hother)
    · intro heq
      rw [heq] at hname
      exact hvalid.atom_eq hname hother

/-- So many names of one letter, from the shortest one on. -/
def ofOneLetter (n : Nat) : List String :=
  (List.range n).map fun k => String.ofList (List.replicate (k + 1) 'a')

theorem card_ofOneLetter (n : Nat) : (insert "" (ofOneLetter n).toFinset).card = n + 1 := by
  have hinjective : Function.Injective fun k : Nat =>
      String.ofList (List.replicate (k + 1) 'a') := by
    intro i j h
    have hlength := congrArg (fun name : String => name.toList.length) h
    simpa using hlength
  rw [Finset.card_insert_of_notMem, List.toFinset_card_of_nodup, ofOneLetter, List.length_map,
    List.length_range]
  · exact List.nodup_range.map hinjective
  · simp [ofOneLetter]

/-- One shard for all names: with the empty name it holds `2 ^ 26 - 1` others, and refuses the
next one. -/
theorem names_identified_fullShard :
    let sharding : Sharding String := fun _ => 0
    let names := ofOneLetter (2 ^ 26 - 1)
    let table := (fresh.internAll sharding names).2
    Fits sharding names ∧ table.pool.shardSize 0 = shardCapacity ∧
      (∀ x ∈ names.zip (fresh.internAll sharding names).1, table.resolve x.2 = x.1) ∧
      ¬table.Holds "b" ∧ (table.intern sharding "b").1 = .none ∧
        (table.intern sharding "b").2 = table := by
  intro sharding names table
  have hcard : (insert "" names.toFinset).card = shardCapacity := card_ofOneLetter _
  have hother : "b" ∉ names := fun hmem => by
    obtain ⟨k, _, hk⟩ := List.mem_map.1 hmem
    have hletter := congrArg (fun name : String => 'b' ∈ name.toList) hk
    simp at hletter
  -- What the names are matters no more, and nothing should try to list them.
  clear_value names
  have hfits : Fits sharding names := fun shard => (Finset.card_filter_le _ _).trans hcard.le
  have hhome : ∀ name ∈ insert "" names.toFinset, home sharding name = 0 := by
    intro name _
    rw [home]
    split <;> rfl
  obtain ⟨_, hidentified, hholds, hrefused, hunchanged, _⟩ := names_identified sharding names []
  obtain ⟨hsize, hatoms⟩ := hidentified hfits
  have hfull : table.pool.shardSize 0 = shardCapacity := by
    rw [hsize, asked, Finset.filter_true_of_mem hhome, hcard]
  have hnew : ¬table.Holds "b" := fun hheld => (hholds "b" hheld).elim (by decide) hother
  have hnone := (hrefused "b" (by decide)).2 ⟨hnew, hfull⟩
  exact ⟨hfits, hfull, fun x hx => (hatoms x hx).1, hnew, hnone, hunchanged "b" hnone⟩

end Run
end NameTable
end TypeTraits
