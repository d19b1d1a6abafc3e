import TypeTraits.Proofs.Pool.TypeTable

/-!
# Reading in a growing table

What a handle reads as is all that a query sees of it, whether or not each of its parts is known.
Different handles read differently, and a handle reads as it did before for as long as nothing
arrives that it mentioned while it was unknown: no node for a handle, and no signature for a
function type that was named by a number.
-/

namespace TypeTraits

namespace Ty

mutual

/-- The parts of a type that have no parts. -/
def leaves : Ty → List Ty
  | qualified t _ | pointer t | lvalueRef t | rvalueRef t | array t _ => t.leaves
  | function r ps _ => r.leaves ++ leavesOf ps
  | memberPointer c t => c.leaves ++ t.leaves
  | t => [t]

/-- The parts of several types that have no parts. -/
def leavesOf : List Ty → List Ty
  | [] => []
  | t :: ts => t.leaves ++ leavesOf ts

end

theorem mem_leavesOf {ts : List Ty} {leaf : Ty} : leaf ∈ leavesOf ts ↔ ∃ t ∈ ts, leaf ∈ t.leaves := by
  induction ts with
  | nil => simp [leavesOf]
  | cons t ts ih => simp [leavesOf, ih]

/-- The numbers by which a type names function types. -/
def numbers (t : Ty) : List Nat :=
  t.leaves.filterMap fun
    | functionNamed number => some number
    | _ => none

theorem mem_numbers {t : Ty} {number : Nat} : number ∈ t.numbers ↔ functionNamed number ∈ t.leaves := by
  simp only [numbers, List.mem_filterMap]
  constructor
  · rintro ⟨leaf, hleaf, hnumber⟩
    split at hnumber
    · cases hnumber
      exact hleaf
    · cases hnumber
  · exact fun hleaf => ⟨_, hleaf, rfl⟩

end Ty

namespace TypeTable

/-- The type that a node describes whose parts are read within a bound. -/
def readNode (table : TypeTable) (within : List Nat) (bound : Nat) : TypeNode → Ty
  | .void => .void
  | .nullptr => .nullptr
  | .builtin k => .builtin k
  | .qualified t cv => .qualified (table.readWithin within bound t) cv
  | .pointer t => .pointer (table.readWithin within bound t)
  | .lvalueRef t => .lvalueRef (table.readWithin within bound t)
  | .rvalueRef t => .rvalueRef (table.readWithin within bound t)
  | .array t b => .array (table.readWithin within bound t) b
  | .function number =>
    if number ∈ within then .functionNamed number
    else
      match table.signatures[number]? with
      | some s =>
        let part := table.readWithin (number :: within) bound
        .function (part s.result) (s.params.map part) s.quals
      | none => .functionNamed number
  | .memberPointer cls t =>
    .memberPointer (table.readWithin within bound cls) (table.readWithin within bound t)
  | .record id => .record id
  | .enum id => .enum id

section

variable {table : TypeTable} {within : List Nat} {bound : Nat} {handle : TypeHandle} {n : TypeNode}

theorem readWithin_eq_readNode (hn : table.lookup? handle = some n) :
    table.readWithin within (bound + 1) handle = table.readNode within bound n := by
  rw [readWithin, hn]
  cases n <;> rfl

theorem readWithin_eq_unknown (hn : table.lookup? handle = none) :
    table.readWithin within bound handle = .unknown handle.number.toNat := by
  cases bound with
  | zero => rfl
  | succ bound => rw [readWithin, hn]

/-- A handle reads as what its node describes, or not at all. -/
theorem readWithin_cases (table : TypeTable) (within : List Nat) (bound : Nat)
    (handle : TypeHandle) :
    table.readWithin within bound handle = .unknown handle.number.toNat ∨
      ∃ b n, bound = b + 1 ∧ table.lookup? handle = some n ∧
        table.readWithin within bound handle = table.readNode within b n := by
  cases bound with
  | zero => exact .inl rfl
  | succ bound =>
    cases hn : table.lookup? handle with
    | none => exact .inl (readWithin_eq_unknown hn)
    | some n => exact .inr ⟨bound, n, rfl, rfl, readWithin_eq_readNode hn⟩

theorem readNode_ne_unknown (number : Nat) :
    table.readNode within bound n ≠ .unknown number := by
  cases n <;> simp only [readNode] <;> try split
  all_goals try split
  all_goals exact Ty.noConfusion

/-- A function node is only named, or has a signature. -/
theorem readNode_function_cases (table : TypeTable) (within : List Nat) (bound number : Nat) :
    table.readNode within bound (.function number) = .functionNamed number ∨
      ∃ s, table.signatures[number]? = some s ∧
        table.readNode within bound (.function number) =
          .function (table.readWithin (number :: within) bound s.result)
            (s.params.map (table.readWithin (number :: within) bound)) s.quals := by
  rw [readNode]
  split
  · exact .inl rfl
  · cases hs : table.signatures[number]? with
    | none => exact .inl rfl
    | some s => exact .inr ⟨s, rfl, rfl⟩

end

section Identity

variable {sharding : Sharding TypeNode} {table : TypeTable} {within within' : List Nat}
  {bound bound' : Nat}

theorem map_injective_of_forall {read read' : TypeHandle → Ty}
    (h : ∀ handle handle', read handle = read' handle' → handle = handle')
    {handles handles' : List TypeHandle} (heq : handles.map read = handles'.map read') :
    handles = handles' := by
  induction handles generalizing handles' with
  | nil => simpa [eq_comm] using heq
  | cons handle handles ih =>
    cases handles' with
    | nil => simp at heq
    | cons handle' handles' =>
      simp only [List.map_cons, List.cons.injEq] at heq
      rw [h _ _ heq.1, ih heq.2]

/-- Different function nodes describe different types, if different handles read differently. -/
theorem Distinct.readNode_function_injective (h : table.Distinct sharding)
    (hparts : ∀ within within' handle handle', table.readWithin within bound handle =
      table.readWithin within' bound' handle' → handle = handle') {number number' : Nat}
    (heq : table.readNode within bound (.function number) =
      table.readNode within' bound' (.function number')) : number = number' := by
  obtain hleft | ⟨s, hs, hleft⟩ := table.readNode_function_cases within bound number <;>
    obtain hright | ⟨s', hs', hright⟩ := table.readNode_function_cases within' bound' number' <;>
    rw [hleft, hright] at heq
  · exact Ty.functionNamed.inj heq
  · cases heq
  · cases heq
  · obtain ⟨hresult, hparams, hquals⟩ := Ty.function.inj heq
    refine (h.signature_eq_iff hs hs').2 ?_
    have hparams := map_injective_of_forall (hparts _ _) hparams
    have hresult := hparts _ _ _ _ hresult
    cases s; cases s'
    simp_all

/-- Different nodes describe different types, if different handles read differently. -/
theorem Distinct.readNode_injective (h : table.Distinct sharding)
    (hparts : ∀ within within' handle handle', table.readWithin within bound handle =
      table.readWithin within' bound' handle' → handle = handle') {n n' : TypeNode}
    (heq : table.readNode within bound n = table.readNode within' bound' n') : n = n' := by
  have hfunction := table.readNode_function_cases
  cases n <;> cases n'
  case function.function number number' =>
    rw [h.readNode_function_injective hparts heq]
  all_goals grind [readNode]

/-- Only the handle itself is not read as its own number. -/
theorem eq_of_readWithin_eq_unknown {handle handle' : TypeHandle}
    (heq : table.readWithin within bound handle = .unknown handle'.number.toNat) :
    handle = handle' := by
  obtain hself | ⟨b, n, -, -, hnode⟩ := table.readWithin_cases within bound handle
  · have hnumber := Ty.unknown.inj (hself.symm.trans heq)
    obtain ⟨number⟩ := handle
    obtain ⟨number'⟩ := handle'
    exact congrArg TypeHandle.mk (UInt32.toNat_inj.1 hnumber)
  · exact absurd (hnode.symm.trans heq) (readNode_ne_unknown _)

/-- Different handles read differently, within whatever bounds. -/
theorem Distinct.readWithin_injective (h : table.Distinct sharding) {handle handle' : TypeHandle}
    (heq : table.readWithin within bound handle = table.readWithin within' bound' handle') :
    handle = handle' := by
  -- The bounds are not the same, so each handle may be unknown, or read no further, on its own.
  induction bound generalizing within within' bound' handle handle' with
  | zero => exact (eq_of_readWithin_eq_unknown heq.symm).symm
  | succ bound ih =>
    obtain hleft | ⟨b, n, hb, hn, hleft⟩ := table.readWithin_cases within (bound + 1) handle
    · exact (eq_of_readWithin_eq_unknown (heq.symm.trans hleft)).symm
    · obtain hright | ⟨b', n', rfl, hn', hright⟩ :=
        table.readWithin_cases within' bound' handle'
      · exact eq_of_readWithin_eq_unknown (heq.trans hright)
      · obtain rfl : bound = b := Nat.succ.inj hb
        rw [hleft, hright] at heq
        obtain rfl := h.readNode_injective (fun _ _ _ _ => ih) heq
        exact h.handle_eq hn hn'

end Identity

section Growth

variable {later earlier : TypeTable}

/-- Whether no signature has arrived since whose number a function node had already. -/
def NumbersLast (later earlier : TypeTable) : Prop :=
  ∀ handle number, earlier.lookup? handle = some (.function number) →
    number < earlier.signatureCount ∨ later.signatureCount ≤ number

/-- Whether what a type mentions without its being known is not known later either. -/
def KeepsUnknown (later : TypeTable) (t : Ty) : Prop :=
  ∀ n, .unknown n ∈ t.leaves → later.lookup? ⟨.ofNat n⟩ = none

theorem KeepsUnknown.readWithin_eq {bound : Nat} {within : List Nat} {handle : TypeHandle}
    (hunknown : later.KeepsUnknown (.unknown handle.number.toNat)) :
    later.readWithin within bound handle = .unknown handle.number.toNat := by
  have hnone := hunknown handle.number.toNat (List.mem_singleton.2 rfl)
  rw [UInt32.ofNat_toNat] at hnone
  exact readWithin_eq_unknown hnone

/-- A function node describes the type that it did. -/
theorem Extends.readNode_function_eq (h : later.Extends earlier) {number : Nat}
    (hnumber : number < earlier.signatureCount ∨ later.signatureCount ≤ number) {bound bound' : Nat}
    (within : List Nat)
    (hparts : ∀ within handle, later.KeepsUnknown (earlier.readWithin within bound handle) →
      later.readWithin within bound' handle = earlier.readWithin within bound handle)
    (hunknown : later.KeepsUnknown (earlier.readNode within bound (.function number))) :
    later.readNode within bound' (.function number) =
      earlier.readNode within bound (.function number) := by
  rw [readNode] at hunknown
  rw [readNode, readNode]
  split
  · rfl
  · next hwithin =>
    rw [if_neg hwithin] at hunknown
    cases hs : earlier.signatures[number]? with
    | none =>
      have hsize : later.signatureCount ≤ number :=
        hnumber.resolve_left (Nat.not_lt.2 (Array.getElem?_eq_none_iff.1 hs))
      rw [Array.getElem?_eq_none_iff.2 hsize]
    | some s =>
      rw [hs] at hunknown
      have hresult := hparts (number :: within) s.result fun n hn =>
        hunknown n (List.mem_append_left _ hn)
      have hparams : s.params.map (later.readWithin (number :: within) bound') =
          s.params.map (earlier.readWithin (number :: within) bound) := by
        refine List.map_congr_left fun param hparam => hparts _ param fun n hn => ?_
        refine hunknown n (List.mem_append_right _ (Ty.mem_leavesOf.2 ⟨_, ?_, hn⟩))
        exact List.mem_map_of_mem hparam
      simp only [h.signature hs, hresult, hparams]

theorem KeepsUnknown.of_extends {t : Ty} (h : later.KeepsUnknown t) (hext : later.Extends earlier) :
    earlier.KeepsUnknown t := by
  intro n hn
  cases hfound : earlier.lookup? ⟨.ofNat n⟩ with
  | none => rfl
  | some node => exact (hext.lookup? hfound).symm.trans (h n hn)

/-- A handle reads as it did, within a bound that is no less. -/
theorem Extends.readWithin_eq (h : later.Extends earlier) (hnumbers : later.NumbersLast earlier)
    {bound bound' : Nat} (hbound : bound ≤ bound') (within : List Nat) (handle : TypeHandle)
    (hunknown : later.KeepsUnknown (earlier.readWithin within bound handle)) :
    later.readWithin within bound' handle = earlier.readWithin within bound handle := by
  -- A table that has grown is read within a greater bound; the induction is on the smaller one.
  induction bound generalizing bound' within handle with
  | zero => exact hunknown.readWithin_eq
  | succ bound ih =>
    cases hn : earlier.lookup? handle with
    | none =>
      rw [readWithin_eq_unknown hn] at hunknown ⊢
      exact hunknown.readWithin_eq
    | some n =>
      obtain ⟨bound', rfl⟩ := Nat.exists_eq_add_one_of_ne_zero (show bound' ≠ 0 by omega)
      have ih := @ih bound' (by omega)
      rw [readWithin_eq_readNode hn] at hunknown ⊢
      rw [readWithin_eq_readNode (h.lookup? hn)]
      cases n with
      | qualified t _ | pointer t | lvalueRef t | rvalueRef t | array t _ =>
        simp only [readNode, ih within t hunknown]
      | function number =>
        exact h.readNode_function_eq (hnumbers handle number hn) within ih hunknown
      | memberPointer cls t =>
        have hcls := ih within cls fun n hn => hunknown n (List.mem_append_left _ hn)
        have ht := ih within t fun n hn => hunknown n (List.mem_append_right _ hn)
        simp only [readNode, hcls, ht]
      | _ => rfl

/-- A handle goes on to read as it did. -/
theorem Extends.read_eq (h : later.Extends earlier) (hnumbers : later.NumbersLast earlier)
    {handle : TypeHandle} (hunknown : later.KeepsUnknown (earlier.read handle)) :
    later.read handle = earlier.read handle :=
  h.readWithin_eq hnumbers (Nat.add_le_add_right h.size_le 1) [] handle hunknown

end Growth

section Numbers

variable {sharding : Sharding TypeNode} {table : TypeTable} {numbers : List Nat}

/-- Whether each function node has a signature, or one of some numbers. -/
def NumbersWithin (table : TypeTable) (numbers : List Nat) : Prop :=
  ∀ handle number, table.lookup? handle = some (.function number) →
    number < table.signatureCount ∨ number ∈ numbers

theorem numbersWithin_fresh : NumbersWithin .fresh [] := by
  intro handle number hn
  obtain ⟨i, hi, -⟩ | ⟨shard, place, hplace, -⟩ := lookup?_cases hn
  · have hmem := List.mem_of_getElem? hi
    simp [TypeNode.predefined] at hmem
  · simp [fresh, Pool.shard_empty] at hplace

theorem NumbersWithin.mono (h : table.NumbersWithin numbers) {numbers' : List Nat}
    (hsub : ∀ number ∈ numbers, number < table.signatureCount ∨ number ∈ numbers') :
    table.NumbersWithin numbers' :=
  fun handle number hn => (h handle number hn).elim .inl (hsub number)

theorem NumbersWithin.intern (h : table.NumbersWithin numbers) {n : TypeNode}
    (hn : ∀ number, n = .function number → number < table.signatureCount ∨ number ∈ numbers) :
    (table.intern sharding n).2.NumbersWithin numbers := by
  obtain ⟨_, _, heq⟩ | ⟨_, _, heq⟩ | ⟨_, _, heq⟩ := intern_cases sharding table n <;> rw [heq]
  · exact h
  · exact h
  · intro handle number hfound
    rcases lookup?_push hfound with hfound | rfl
    · exact h handle number hfound
    · exact hn number rfl

theorem Extends.signatureCount_le {later earlier : TypeTable} (h : later.Extends earlier) :
    earlier.signatureCount ≤ later.signatureCount :=
  h.signatures.length_le

theorem NumbersWithin.internSignature (h : table.NumbersWithin numbers) (s : StoredSignature) :
    (table.internSignature s).2.NumbersWithin numbers := by
  intro handle number hn
  have hle := (internSignature_extends table s).signatureCount_le
  have hold : table.lookup? handle = some (.function number) := by
    rw [TypeTable.internSignature] at hn
    split at hn <;> exact hn
  exact (h handle number hold).imp_left fun hlt => Nat.lt_of_lt_of_le hlt hle

theorem internSignature_lt (table : TypeTable) (s : StoredSignature) :
    (table.internSignature s).1 < (table.internSignature s).2.signatureCount := by
  rw [TypeTable.internSignature]
  split
  · next number hnumber =>
    have hfound : table.signatures.toList.idxOf? s = some number := by
      rwa [← List.idxOf?_toArray]
    obtain ⟨hlt, -⟩ := List.idxOf?_eq_some_iff.1 hfound
    exact hlt
  · simp [signatureCount]

/-- Whether the numbers that name function types are those of signatures or among some numbers. -/
def NamesWithin (table : TypeTable) (numbers : List Nat) (leaves : List Ty) : Prop :=
  ∀ number, .functionNamed number ∈ leaves → number < table.signatureCount ∨ number ∈ numbers

theorem NamesWithin.extends {later : TypeTable} {leaves : List Ty}
    (h : table.NamesWithin numbers leaves) (hext : later.Extends table) :
    later.NamesWithin numbers leaves := fun number hnumber =>
  (h number hnumber).imp_left fun hlt => Nat.lt_of_lt_of_le hlt hext.signatureCount_le

theorem namesWithin_append {leaves leaves' : List Ty} :
    table.NamesWithin numbers (leaves ++ leaves') ↔
      table.NamesWithin numbers leaves ∧ table.NamesWithin numbers leaves' := by
  simp only [NamesWithin, List.mem_append, or_imp, forall_and]

theorem NumbersWithin.addAll {ts : List Ty} (h : table.NumbersWithin numbers)
    (hts : ∀ t ∈ ts, ∀ table : TypeTable, table.NumbersWithin numbers →
      table.NamesWithin numbers t.leaves → (table.add sharding t).2.NumbersWithin numbers)
    (hnames : table.NamesWithin numbers (Ty.leavesOf ts)) :
    (table.addAll sharding ts).2.NumbersWithin numbers := by
  induction ts generalizing table with
  | nil => exact h
  | cons t ts ih =>
    obtain ⟨ht, hrest⟩ := namesWithin_append.1 hnames
    rw [TypeTable.addAll]
    exact ih (hts t (by simp) table h ht) (fun u hu => hts u (by simp [hu]))
      (hrest.extends (add_extends t table))

/-- Entering a type enters no function node but for signatures and for the numbers that the type
mentions. -/
theorem NumbersWithin.add (t : Ty) (h : table.NumbersWithin numbers)
    (ht : table.NamesWithin numbers t.leaves) : (table.add sharding t).2.NumbersWithin numbers := by
  induction t using Ty.inductionOn generalizing table with
  | qualified t _ ih | array t _ ih | pointer t ih | lvalueRef t ih | rvalueRef t ih =>
    rw [TypeTable.add]
    exact (ih h ht).intern (by simp)
  | function r ps quals ihr ihps =>
    obtain ⟨hr, hps⟩ := namesWithin_append.1 ht
    rw [TypeTable.add]
    have hparams := (ihr h hr).addAll (fun p hp _ => ihps p hp) (hps.extends (add_extends r table))
    refine (hparams.internSignature _).intern fun number hnumber => .inl ?_
    obtain rfl := TypeNode.function.inj hnumber
    exact internSignature_lt ..
  | memberPointer c t ihc iht =>
    obtain ⟨hc, ht⟩ := namesWithin_append.1 ht
    rw [TypeTable.add]
    exact (iht (ihc h hc) (ht.extends (add_extends c table))).intern (by simp)
  | functionNamed number =>
    rw [TypeTable.add]
    refine h.intern fun number' hnumber => ?_
    obtain rfl := TypeNode.function.inj hnumber
    exact ht number (List.mem_singleton.2 rfl)
  | unknown _ => exact h
  | _ =>
    rw [TypeTable.add]
    exact h.intern (by simp)

end Numbers

section Naming

variable {sharding : Sharding TypeNode} {table : TypeTable} {handle : TypeHandle} {n : TypeNode}
  {number : Nat}

theorem size_intern_le (table : TypeTable) (n : TypeNode) :
    (table.intern sharding n).2.size ≤ table.size + 1 := by
  obtain ⟨_, _, heq⟩ | ⟨_, _, heq⟩ | ⟨_, _, heq⟩ := intern_cases sharding table n <;> rw [heq]
  · exact Nat.le_succ _
  · exact Nat.le_succ _
  · exact (Pool.size_push ..).le

theorem signatures_intern (table : TypeTable) (n : TypeNode) :
    (table.intern sharding n).2.signatures = table.signatures := by
  obtain ⟨_, _, heq⟩ | ⟨_, _, heq⟩ | ⟨_, _, heq⟩ := intern_cases sharding table n <;> rw [heq]
  rfl

theorem size_pos_of_lookup? (hn : table.lookup? handle = some n)
    (hstored : n.predefinedHandle? = none) : 0 < table.size := by
  obtain ⟨i, hi, -⟩ | ⟨shard, place, hplace, -⟩ := lookup?_cases hn
  · have hpredefined := TypeNode.predefinedHandle?_eq_some_iff.2 ⟨i, hi, rfl⟩
    simp [hstored] at hpredefined
  · obtain ⟨hlt, -⟩ := Array.getElem?_eq_some_iff.1 hplace
    exact (Nat.zero_lt_of_lt hlt).trans_le (table.nodes.shardSize_le_size shard)

theorem size_fresh : fresh.size = 0 := by simp [size, fresh, Pool.size, Pool.empty]

theorem lookup?_intern_fresh (n : TypeNode) :
    (fresh.intern sharding n).2.lookup? (fresh.intern sharding n).1 = some n := by
  have hsize : (fresh.intern sharding n).2.size ≤ fresh.size + 1 := size_intern_le fresh n
  rw [size_fresh] at hsize
  exact fresh_valid.toDistinct.lookup?_intern (hasRoom_of_size_le (hsize.trans (by decide)))

theorem readWithin_void (within : List Nat) (bound : Nat) :
    table.readWithin within (bound + 1) ⟨1⟩ = .void := by
  have hvoid : table.lookup? ⟨1⟩ = some .void := table.lookup?_predefined (i := 0) rfl
  simp only [readWithin, hvoid]

/-- A function type is only named while its signature is not known. -/
theorem read_functionNamed (hn : table.lookup? handle = some (.function number))
    (hs : table.signatures[number]? = none) : table.read handle = .functionNamed number := by
  simp only [read, readWithin_eq_readNode hn, readNode, hs, List.not_mem_nil, if_false]

theorem functionType_thunk (hs : table.signatures[number]? = some ⟨⟨1⟩, [], {}⟩) :
    table.functionType number = .function .void [] {} := by
  simp only [functionType, hs, readWithin_void, List.map_nil]

/-- From the moment the signature is known, its handle reads as the function type. -/
theorem read_thunk (hn : table.lookup? handle = some (.function number))
    (hs : table.signatures[number]? = some ⟨⟨1⟩, [], {}⟩) :
    table.read handle = .function .void [] {} := by
  have hstored : (TypeNode.function number).predefinedHandle? = none := by
    simp [TypeNode.predefinedHandle?, TypeNode.predefined]
  obtain ⟨size, hsize⟩ := Nat.exists_eq_add_one_of_ne_zero (size_pos_of_lookup? hn hstored).ne'
  simp only [read, hsize, readWithin_eq_readNode hn, readNode, hs, readWithin_void, List.map_nil,
    List.not_mem_nil, if_false]

end Naming

end TypeTable

end TypeTraits
