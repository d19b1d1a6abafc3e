import TypeTraits.Layout.Storage
import TypeTraits.Proofs.Layout.Unbounded
import TypeTraits.Proofs.Record.Layout

/-!
# Raw storage that fits

Storage for any of several types is as long and as strictly aligned as the most demanding of them,
and its size is its length rounded up to its alignment. On a target that a text describes, the
alignments of types are powers of two, so the greatest one is a multiple of all the others, and
storage is refused for no other reason than its length or its alignment being out of range. The
alignment that storage has by default is that of a candidate, the strictest one that its length
allows.
-/

namespace TypeTraits

open Layout

section DefaultAlignment

variable {target : Target} {length align : Nat} {align? : Option Nat} {storage : AlignedStorage}

theorem alignedStorage_eq_ok (h : alignedStorage target length align? = .ok storage) :
    length ≠ 0 ∧ storage.length = length ∧
      storage.align = align?.getD (AlignCandidate.defaultAlignment target length) ∧
      storage.align ≤ Limits.alignment ∧ storage.size = roundUp length storage.align ∧
      storage.size < limit := by
  rw [alignedStorage] at h
  split at h
  · cases h
  · next hlength =>
    dsimp only at h
    split at h
    · cases h
    · next halign =>
      split at h
      · cases h
      · next size hsize =>
        cases h
        obtain ⟨rfl, hlt⟩ := fits?_eq_some_iff.1 hsize
        simp only [Bool.or_eq_true, Bool.not_eq_true', decide_eq_true_eq, not_or] at halign
        exact ⟨hlength, rfl, rfl, Nat.not_lt.1 halign.2, rfl, hlt⟩

/-- Storage is refused only for its length, for its alignment or for its size. -/
theorem exists_alignedStorage (hlength : length ≠ 0) (hpower : align.isPowerOfTwo)
    (halign : align ≤ Limits.alignment) (hsize : roundUp length align < limit) :
    ∃ storage, alignedStorage target length (some align) = .ok storage := by
  have husable : ¬((!Layout.isPowerOfTwo align || decide (align > Limits.alignment)) = true) := by
    simp [isPowerOfTwo_iff.2 hpower, halign]
  rw [alignedStorage, if_neg hlength, Option.getD_some, if_neg husable]
  dsimp only
  rw [roundUp?, fits?_of_lt hsize]
  exact ⟨_, rfl⟩

/-- The default alignment is that of a candidate, the strictest one that is at most the length, if
there is any. -/
theorem defaultAlignment_spec (target : Target) (length : Nat) :
    AlignCandidate.defaultAlignment target length ∈ AlignCandidate.alignments target ∧
      (∀ n ∈ AlignCandidate.alignments target, n ≤ length →
        n ≤ AlignCandidate.defaultAlignment target length ∧
          AlignCandidate.defaultAlignment target length ≤ length) := by
  rw [AlignCandidate.defaultAlignment]
  cases hmax : ((AlignCandidate.alignments target).filter (· ≤ length)).max? with
  | some n =>
    obtain ⟨hmem, hgreatest⟩ := List.max?_eq_some_iff.1 hmax
    obtain ⟨hmem, hle⟩ := List.mem_filter.1 hmem
    refine ⟨hmem, fun m hm hml => ⟨?_, by simpa using hle⟩⟩
    exact hgreatest m (List.mem_filter.2 ⟨hm, by simpa using hml⟩)
  | none =>
    have hnone := List.filter_eq_nil_iff.1 (List.max?_eq_none_iff.1 hmax)
    obtain ⟨n, hmin⟩ : ∃ n, (AlignCandidate.alignments target).min? = some n := ⟨_, rfl⟩
    rw [hmin, Option.none_or, Option.getD_some]
    exact ⟨(List.min?_eq_some_iff.1 hmin).1, fun m hm hml => absurd hml (by simpa using hnone m hm)⟩

end DefaultAlignment

namespace Program

variable {p : Program}

/-- What several types have of something that not every type has. -/
def amounts (types : List Ty) (amount : Ty → Option Nat) : Set Nat :=
  {n | ∃ t ∈ types, amount t = some n}

theorem amounts_cons {types : List Ty} {amount : Ty → Option Nat} {t : Ty} {n : Nat}
    (h : amount t = some n) : amounts (t :: types) amount = insert n (amounts types amount) := by
  ext m
  simp [amounts, h, eq_comm]

theorem isGreatest_insert_max {m n greatest : Nat} {s : Set Nat}
    (h : IsGreatest (insert (max m n) s) greatest) :
    IsGreatest (insert m (insert n s)) greatest := by
  obtain ⟨hmem, hle⟩ := h
  rw [mem_upperBounds, Set.forall_mem_insert] at hle
  refine ⟨?_, ?_⟩
  · rcases hmem with rfl | hmem
    · rcases max_choice m n with h | h <;> simp [h]
    · exact Or.inr (Or.inr hmem)
  · rw [mem_upperBounds, Set.forall_mem_insert, Set.forall_mem_insert]
    exact ⟨by omega, by omega, hle.2⟩

/-- What storage of at least a length needs for an object of any of several types: all of them have
layouts, none of which is larger or more strictly aligned. -/
structure Needs (p : Program) (length : Nat) (types : List Ty) (need : Layout) : Prop where
  laidOut : ∀ t ∈ types, ∃ l, p.layoutOf t = some l
  size : IsGreatest (insert length (amounts types p.sizeOf)) need.size
  align : IsGreatest (amounts types p.alignOf) need.align

theorem Needs.unique {length : Nat} {types : List Ty} {need need' : Layout}
    (h : p.Needs length types need) (h' : p.Needs length types need') : need = need' := by
  have hsize := h.size.unique h'.size
  have halign := h.align.unique h'.align
  cases need
  cases need'
  simp_all

/-- What is needed for the types so far and one more. -/
def needStep (p : Program) (need : Nat × Nat) (t : Ty) : Except TraitError (Nat × Nat) :=
  match p.layoutOf t with
  | some l => .ok (max need.1 l.size, max need.2 l.align)
  | none => .error (.unsized (p.spell t))

/-- Storage for several types is storage for what they need together. -/
theorem alignedUnion_eq {types : List Ty} (h : types ≠ []) (p : Program) (length : Nat) :
    p.alignedUnion length types = (types.foldlM p.needStep (length, 1)).bind fun need =>
      alignedStorage p.target need.1 (some need.2) := by
  rw [alignedUnion, if_neg (by simp [h])]
  rfl

/-- A run gives the greatest of what there is at the start and of what the types have. -/
theorem greatest_of_foldlM {types : List Ty} {start need : Nat × Nat}
    (h : types.foldlM p.needStep start = .ok need) :
    (∀ t ∈ types, ∃ l, p.layoutOf t = some l) ∧
      IsGreatest (insert start.1 (amounts types p.sizeOf)) need.1 ∧
      IsGreatest (insert start.2 (amounts types p.alignOf)) need.2 := by
  induction types generalizing start with
  | nil =>
    cases h
    simp [amounts]
  | cons t types ih =>
    rw [List.foldlM_cons, needStep] at h
    cases hl : p.layoutOf t with
    | none =>
      rw [hl] at h
      cases h
    | some l =>
      rw [hl] at h
      obtain ⟨hlaid, hsize, halign⟩ := ih h
      rw [amounts_cons (show p.sizeOf t = some l.size by rw [sizeOf, hl, Option.map_some]),
        amounts_cons (show p.alignOf t = some l.align by rw [alignOf, hl, Option.map_some])]
      exact ⟨List.forall_mem_cons.2 ⟨⟨l, hl⟩, hlaid⟩, isGreatest_insert_max hsize,
        isGreatest_insert_max halign⟩

theorem exists_foldlM_needStep {types : List Ty} (h : ∀ t ∈ types, ∃ l, p.layoutOf t = some l)
    (start : Nat × Nat) : ∃ need, types.foldlM p.needStep start = .ok need := by
  refine exists_foldlM (fun t ht need => ?_) start
  obtain ⟨l, hl⟩ := h t ht
  exact ⟨_, by rw [needStep, hl]; rfl⟩

/-- On a target that a text describes, what a run from alignment one gives is what the types
need, and its alignment is a power of two that those of the types divide. -/
theorem needs_of_foldlM (htarget : p.target.IsDescribed) (hrecords : p.AlignsRecords)
    {types : List Ty} (hne : types ≠ []) {length : Nat} {need : Nat × Nat}
    (h : types.foldlM p.needStep (length, 1) = .ok need) :
    p.Needs length types ⟨need.1, need.2⟩ := by
  obtain ⟨hlaid, hsize, hmem, hle⟩ := greatest_of_foldlM h
  rw [mem_upperBounds, Set.forall_mem_insert] at hle
  refine ⟨hlaid, hsize, ?_, hle.2⟩
  rcases hmem with hone | hmem
  · -- Nothing is more strictly aligned than one byte, so the first type is aligned like that.
    obtain ⟨t, types, rfl⟩ := List.exists_cons_of_ne_nil hne
    obtain ⟨l, hl⟩ := hlaid t List.mem_cons_self
    have hpos := Nat.pos_of_isPowerOfTwo
      (isPowerOfTwo_layoutWithin htarget.alignsScalars hrecords (Option.join_eq_some_iff.mp hl))
    have hamount : l.align ∈ amounts (t :: types) p.alignOf :=
      ⟨t, List.mem_cons_self, by rw [alignOf, hl, Option.map_some]⟩
    have hone' : need.2 = l.align := by
      have := hle.2 l.align hamount
      simp only at hone this
      omega
    exact hone' ▸ hamount
  · exact hmem

theorem Needs.align_isPowerOfTwo (htarget : p.target.IsDescribed) (hrecords : p.AlignsRecords)
    {length : Nat} {types : List Ty} {need : Layout} (h : p.Needs length types need) :
    need.align.isPowerOfTwo ∧ ∀ t ∈ types, ∀ n, p.alignOf t = some n → n ∣ need.align := by
  have hpower : ∀ t n, p.alignOf t = some n → n.isPowerOfTwo := by
    intro t n hn
    obtain ⟨l, hl, rfl⟩ := Option.map_eq_some_iff.1 hn
    exact isPowerOfTwo_layoutWithin htarget.alignsScalars hrecords (Option.join_eq_some_iff.mp hl)
  obtain ⟨⟨u, -, hu⟩, hle⟩ := h.align
  exact ⟨hpower u _ hu, fun t ht n hn =>
    dvd_of_isPowerOfTwo_of_le (hpower t n hn) (hpower u _ hu) (hle ⟨t, ht, hn⟩)⟩

section Union

variable (htarget : p.target.IsDescribed) (hrecords : p.AlignsRecords) {length : Nat}
  {types : List Ty}

include htarget hrecords

/-- Storage for several types is what they need together. -/
theorem alignedUnion_eq_ok {storage : AlignedStorage}
    (h : p.alignedUnion length types = .ok storage) :
    types ≠ [] ∧ p.Needs length types ⟨storage.length, storage.align⟩ ∧ storage.length ≠ 0 ∧
      storage.align ≤ Limits.alignment ∧
      storage.size = roundUp storage.length storage.align ∧ storage.size < limit := by
  have hne : types ≠ [] := by
    rintro rfl
    cases h
  rw [alignedUnion_eq hne] at h
  cases hfold : types.foldlM p.needStep (length, 1) with
  | error e =>
    rw [hfold] at h
    cases h
  | ok need =>
    rw [hfold] at h
    obtain ⟨hpos, hlength, halign, hlimit, hsize, hlt⟩ := alignedStorage_eq_ok h
    have hneeds := needs_of_foldlM htarget hrecords hne hfold
    rw [Option.getD_some] at halign
    rw [← hlength] at hpos hsize
    rw [← hlength, ← halign] at hneeds
    exact ⟨hne, hneeds, hpos, hlimit, hsize, hlt⟩

/-- There is storage for what several types need, if that is not nothing and in range. -/
theorem exists_alignedUnion (hne : types ≠ []) {need : Layout} (h : p.Needs length types need)
    (hpos : need.size ≠ 0) (halign : need.align ≤ Limits.alignment)
    (hlt : roundUp need.size need.align < limit) :
    ∃ storage, p.alignedUnion length types = .ok storage := by
  obtain ⟨need', hfold⟩ := exists_foldlM_needStep h.laidOut (length, 1)
  have heq := h.unique (needs_of_foldlM htarget hrecords hne hfold)
  obtain ⟨hpower, -⟩ := h.align_isPowerOfTwo htarget hrecords
  rw [alignedUnion_eq hne, hfold]
  subst heq
  exact exists_alignedStorage hpos hpower halign hlt

end Union

end Program

namespace Development

variable {d : Development}

/-- Raw storage fits. Storage for several types is to be had if and only if there is a type, all
types have layouts, and what they need is not nothing and in range; it then is as strictly aligned
and as long as they need, and its size is the least multiple of the alignment that is as long. The
default alignment of storage is that of a candidate, the strictest one that is at most the length if
there is any. -/
theorem storage_fits (h : d.Reachable) (htarget : d.program.target.IsDescribed) :
    (∀ length types, (∃ storage, d.program.alignedUnion length types = .ok storage) ↔
      types ≠ [] ∧ ∃ need, d.program.Needs length types need ∧ need.size ≠ 0 ∧
        need.align ≤ Limits.alignment ∧ roundUp need.size need.align < limit) ∧
    (∀ length types storage, d.program.alignedUnion length types = .ok storage →
      d.program.Needs length types ⟨storage.length, storage.align⟩ ∧
      (∀ t ∈ types, ∀ n, d.program.alignOf t = some n → n ∣ storage.align) ∧
      storage.align ∣ storage.size ∧ storage.length ≤ storage.size ∧
      storage.size < storage.length + storage.align) ∧
    ∀ length storage, alignedStorage d.program.target length none = .ok storage →
      storage.align ∈ AlignCandidate.alignments d.program.target ∧
      ∀ n ∈ AlignCandidate.alignments d.program.target, n ≤ length →
        n ≤ storage.align ∧ storage.align ≤ length := by
  have hrecords : d.program.AlignsRecords :=
    fun id r hr hc => (h.isLaidOut htarget id r hr hc).align
  refine ⟨fun length types => ⟨?_, ?_⟩, ?_, ?_⟩
  · rintro ⟨storage, hstorage⟩
    obtain ⟨hne, hneeds, hpos, halign, hsize, hlt⟩ :=
      Program.alignedUnion_eq_ok htarget hrecords hstorage
    exact ⟨hne, _, hneeds, hpos, halign, hsize ▸ hlt⟩
  · rintro ⟨hne, need, hneeds, hpos, halign, hlt⟩
    exact Program.exists_alignedUnion htarget hrecords hne hneeds hpos halign hlt
  · intro length types storage hstorage
    obtain ⟨-, hneeds, -, -, hsize, -⟩ := Program.alignedUnion_eq_ok htarget hrecords hstorage
    obtain ⟨hpower, hdvd⟩ := hneeds.align_isPowerOfTwo htarget hrecords
    have hpos : 0 < storage.align := Nat.pos_of_isPowerOfTwo hpower
    have hround := roundUp_lt storage.length storage.align
    rw [Nat.max_eq_left hpos] at hround
    rw [hsize]
    exact ⟨hneeds, hdvd, dvd_roundUp hpos _, le_roundUp _ _, hround⟩
  · intro length storage hstorage
    obtain ⟨-, -, halign, -⟩ := alignedStorage_eq_ok hstorage
    rw [halign]
    exact defaultAlignment_spec d.program.target length

theorem eq_ok_of_toOption {ε α : Type} {x : Except ε α} {a : α} (h : x.toOption = some a) :
    x = .ok a := by
  cases x with
  | error e => cases h
  | ok b =>
    cases h
    rfl

/-- Storage of ten bytes for a class of eight that is aligned to four, and three bytes with the
default alignment. -/
theorem storage_fits_shapes : shapes.Reachable ∧ shapes.program.target.IsDescribed ∧
    (∃ storage, shapes.program.alignedUnion 10 [.builtin .char, .record ⟨2⟩] = .ok storage ∧
      storage.length = 10 ∧ storage.align = 4 ∧ 4 ∣ storage.size ∧ storage.length ≤ storage.size ∧
      storage.size < storage.length + 4) ∧
    ∃ storage, alignedStorage shapes.program.target 3 none = .ok storage ∧ storage.align = 2 ∧
      ∀ n ∈ AlignCandidate.alignments shapes.program.target, n ≤ 3 → n ≤ storage.align := by
  have hlp64 : shapes.program.target = .lp64 := by decide +kernel
  have htarget : shapes.program.target.IsDescribed := hlp64 ▸ Target.isDescribed_lp64
  obtain ⟨-, hunion, hdefault⟩ := storage_fits reachable_shapes htarget
  refine ⟨reachable_shapes, htarget, ?_, ?_⟩
  · have hresult : ((shapes.program.alignedUnion 10 [.builtin .char, .record ⟨2⟩]).toOption.any
        fun storage => storage.length == 10 && storage.align == 4) = true := by decide +kernel
    obtain ⟨storage, hstorage, hvalues⟩ := (Option.any_eq_true _ _).1 hresult
    simp only [Bool.and_eq_true, beq_iff_eq] at hvalues
    have hok := eq_ok_of_toOption hstorage
    obtain ⟨-, -, hdvd, hle, hlt⟩ := hunion _ _ _ hok
    rw [hvalues.2] at hdvd hlt
    exact ⟨storage, hok, hvalues.1, hvalues.2, hdvd, hle, hlt⟩
  · have hresult : ((alignedStorage shapes.program.target 3 none).toOption.any
        fun storage => storage.align == 2) = true := by decide +kernel
    obtain ⟨storage, hstorage, halign⟩ := (Option.any_eq_true _ _).1 hresult
    have hok := eq_ok_of_toOption hstorage
    exact ⟨storage, hok, beq_iff_eq.1 halign,
      fun n hn hle => ((hdefault _ _ hok).2 n hn hle).1⟩

end Development

end TypeTraits
