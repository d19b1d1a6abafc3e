import Mathlib.Data.List.Perm.Subperm
import Mathlib.Logic.Relation
import TypeTraits.Proofs.Program.Development

/-!
# Where layout queries end

The layout of a type is found by going through references, qualifiers and arrays, and from an
enumeration on to its underlying type; whether a type has a unique representation is found the same
way. The first part ends, since types are finite. The last ends unless an enumeration leads back to
itself: an underlying type may be any type, even that of an enumeration which is only declared then.
-/

namespace TypeTraits

section Recursion

/-! ### Recursions that make one call at most -/

variable {α : Type} {next : α → Option α}

/-- Whether answering for `a` takes an answer for `b`. -/
def CalledBy (next : α → Option α) (b a : α) : Prop := next a = some b

/-- What answering for `a` takes answers for, up to a number of calls. -/
def trail (next : α → Option α) : Nat → α → List α
  | 0, _ => []
  | n + 1, a =>
    match next a with
    | none => []
    | some b => b :: trail next n b

variable {a b : α} {n : Nat}

theorem trail_of_none (h : next a = none) : trail next n a = [] := by
  cases n <;> simp [trail, h]

theorem trail_of_some (h : next a = some b) : trail next (n + 1) a = b :: trail next n b := by
  simp [trail, h]

theorem transGen_of_mem_trail (h : b ∈ trail next n a) : Relation.TransGen (CalledBy next) b a := by
  induction n generalizing a with
  | zero => cases h
  | succ n ih =>
    cases hnext : next a with
    | none => simp [trail_of_none hnext] at h
    | some c =>
      rw [trail_of_some hnext] at h
      rcases List.mem_cons.1 h with rfl | h
      · exact .single hnext
      · exact (ih h).tail hnext

/-- A recursion that ends does not come back to where it started. -/
theorem not_transGen_of_acc (h : Acc (CalledBy next) a) :
    ¬Relation.TransGen (CalledBy next) a a := by
  intro hloop
  induction h.transGen with
  | intro a _ ih => exact ih a hloop h hloop

theorem not_exists_loop_of_acc (h : Acc (CalledBy next) a) :
    ¬∃ b, Relation.TransGen (CalledBy next) b a ∧ Relation.TransGen (CalledBy next) b b := by
  rintro ⟨b, hba, hbb⟩
  exact not_transGen_of_acc (h.inv_of_transGen hba) hbb

theorem nodup_trail_of_acc (h : Acc (CalledBy next) a) : (trail next n a).Nodup := by
  induction h generalizing n with
  | intro a h ih =>
    cases n with
    | zero => exact List.nodup_nil
    | succ n =>
      cases hnext : next a with
      | none => simp [trail_of_none hnext]
      | some b =>
        rw [trail_of_some hnext]
        exact List.nodup_cons.2
          ⟨fun hb => not_transGen_of_acc (h b hnext) (transGen_of_mem_trail hb), ih b hnext⟩

/-- CalledBy that do not use up the number allowed have come to an end. -/
theorem acc_of_length_trail_lt (h : (trail next n a).length < n) : Acc (CalledBy next) a := by
  induction n generalizing a with
  | zero => cases h
  | succ n ih =>
    refine Acc.intro a fun b hnext => ih ?_
    rw [trail_of_some hnext, List.length_cons] at h
    omega

/-- A call that is made twice is made again and again. -/
theorem exists_loop_of_not_nodup (h : ¬(trail next n a).Nodup) :
    ∃ b, Relation.TransGen (CalledBy next) b a ∧ Relation.TransGen (CalledBy next) b b := by
  induction n generalizing a with
  | zero => exact absurd List.nodup_nil h
  | succ n ih =>
    cases hnext : next a with
    | none => simp [trail_of_none hnext] at h
    | some b =>
      rw [trail_of_some hnext, List.nodup_cons, not_and_or, not_not] at h
      rcases h with hb | h
      · exact ⟨b, .single hnext, transGen_of_mem_trail hb⟩
      · obtain ⟨c, hcb, hcc⟩ := ih h
        exact ⟨c, hcb.tail hnext, hcc⟩

variable {β : Type} {step : (α → Option β) → α → Option β}

/-- The answers of a recursion that makes a number of calls at most; `none` means that it would
take more. -/
def within (step : (α → Option β) → α → Option β) : Nat → α → Option β
  | 0 => step fun _ => none
  | n + 1 => step (within step n)

/-- Whether each step of a recursion asks for one answer at most, and has its own if it gets it. -/
structure Asks (next : α → Option α) (step : (α → Option β) → α → Option β) : Prop where
  congr : ∀ f g a, (∀ b, next a = some b → f b = g b) → step f a = step g a
  isSome_iff : ∀ f a, (step f a).isSome = true ↔ ∀ b, next a = some b → (f b).isSome = true

namespace Asks

variable (h : Asks next step)

include h

theorem isSome_within_iff (n : Nat) (a : α) :
    (within step n a).isSome = true ↔ (trail next (n + 1) a).length ≤ n := by
  induction n generalizing a with
  | zero =>
    rw [within, h.isSome_iff]
    cases hnext : next a <;> simp [trail, hnext]
  | succ n ih =>
    rw [within, h.isSome_iff]
    cases hnext : next a with
    | none => simp [trail_of_none hnext]
    | some b => simp [trail_of_some hnext, ih]

/-- An answer that is found is found with more calls, too. -/
theorem within_succ (hsome : (within step n a).isSome = true) :
    within step (n + 1) a = within step n a := by
  induction n generalizing a with
  | zero =>
    refine h.congr _ _ a fun b hb => ?_
    have hb := (h.isSome_iff _ a).1 hsome b hb
    cases hb
  | succ n ih => exact h.congr _ _ a fun b hb => ih ((h.isSome_iff _ a).1 hsome b hb)

end Asks

section Finite

variable {calls : List α} (hcalls : ∀ a b, next a = some b → b ∈ calls)

include hcalls

theorem trail_subset : trail next n a ⊆ calls := by
  induction n generalizing a with
  | zero => exact List.nil_subset _
  | succ n ih =>
    cases hnext : next a with
    | none => simp [trail_of_none hnext]
    | some b =>
      rw [trail_of_some hnext]
      exact List.cons_subset.2 ⟨hcalls a b hnext, ih⟩

theorem length_trail_le (h : (trail next n a).Nodup) : (trail next n a).length ≤ calls.length :=
  (List.subperm_of_subset h (trail_subset hcalls)).length_le

/-- Where only so many calls can be made, as many are enough if the recursion ends at all. -/
theorem Asks.isSome_within_iff_acc (h : Asks next step) (hn : calls.length ≤ n) :
    (within step n a).isSome = true ↔ Acc (CalledBy next) a := by
  rw [h.isSome_within_iff]
  constructor
  · exact fun hlength => acc_of_length_trail_lt (Nat.lt_succ_of_le hlength)
  · exact fun hacc => Nat.le_trans (length_trail_le hcalls (nodup_trail_of_acc hacc)) hn

/-- Then the answers are those of the recursion without a bound. -/
theorem Asks.within_eq_step (h : Asks next step) (hn : calls.length ≤ n)
    (hacc : Acc (CalledBy next) a) : within step n a = step (within step n) a :=
  (h.within_succ ((h.isSome_within_iff_acc hcalls hn).2 hacc)).symm

/-- Where only so many calls can be made, a recursion that does not end comes to one that leads to
itself. -/
theorem acc_iff_not_exists_loop : Acc (CalledBy next) a ↔
    ¬∃ b, Relation.TransGen (CalledBy next) b a ∧ Relation.TransGen (CalledBy next) b b := by
  refine ⟨not_exists_loop_of_acc, fun hloop => ?_⟩
  have hnodup : (trail next (calls.length + 1) a).Nodup := by
    by_contra h
    exact hloop (exists_loop_of_not_nodup h)
  exact acc_of_length_trail_lt (Nat.lt_succ_of_le (length_trail_le hcalls hnodup))

end Finite

end Recursion

/-- The enumeration that the layout of a type leads to. -/
def Ty.layoutEnum? : Ty → Option EnumId
  | .lvalueRef t | .rvalueRef t | .array t _ => t.layoutEnum?
  | .qualified t _ =>
    match t with
    | .qualified .. | .lvalueRef _ | .rvalueRef _ => none
    | t => t.layoutEnum?
  | .enum id => some id
  | _ => none

theorem Ty.layoutEnum?_of_element {id : EnumId} (t : Ty) (h : t.element.enumId? = some id) :
    t.layoutEnum? = some id := by
  induction t using Ty.inductionOn with
  | qualified t cv =>
    cases t with
    | enum _ => exact h
    | _ => cases h
  | array t b ih => exact ih h
  | enum _ => exact h
  | _ => cases h

namespace Program

variable {p : Program} {t u : Ty}

/-! ### The calls of layout queries -/

variable (p) in
/-- The type that the layout of a type is asked for next: what a reference refers to, the type
without its qualifiers, the element of an array, or the underlying type of an enumeration. -/
def layoutCall? : Ty → Option Ty
  | .lvalueRef t | .rvalueRef t | .array t _ => some t
  | .qualified t _ =>
    match t with
    | .qualified .. | .lvalueRef _ | .rvalueRef _ => none
    | t => some t
  | .enum id => (p.enum? id).map (·.underlying p.target)
  | _ => none

variable (p) in
/-- The type that is asked next for whether it has a unique representation: the underlying type of
an enumeration, or of one that is the element of an array. -/
def uniqueCall? (t : Ty) : Option Ty :=
  (t.element.enumId?.bind p.enum?).map (·.underlying p.target)

variable (p) in
/-- The underlying type that the layout of a type leads to. -/
def layoutNext? (t : Ty) : Option Ty :=
  (t.layoutEnum?.bind p.enum?).map (·.underlying p.target)

variable (p) in
/-- The underlying types of the enumerations, which queries can go on with. -/
def underlyings : List Ty := p.enums.toList.map (·.underlying p.target)

theorem length_underlyings_le : p.underlyings.length ≤ p.enums.size + 1 := by simp [underlyings]

theorem mem_underlyings {id : Option EnumId} {t : Ty}
    (h : (id.bind p.enum?).map (·.underlying p.target) = some t) : t ∈ p.underlyings := by
  obtain ⟨e, he, rfl⟩ := Option.map_eq_some_iff.1 h
  obtain ⟨id, -, he⟩ := Option.bind_eq_some_iff.1 he
  rw [enum?] at he
  split at he
  · cases he
  · exact List.mem_map_of_mem (Array.mem_toList_iff.2 (Array.mem_of_getElem? he))

variable (p) in
/-- One step of finding a layout, with the answers for underlying types. -/
def layoutRound (answer : Ty → Option (Option Layout)) : Ty → Option (Option Layout) :=
  p.layoutStep fun e => answer (e.underlying p.target)

variable (p) in
def uniqueRound (answer : Ty → Option Bool) : Ty → Option Bool :=
  p.uniqueStep fun e => answer (e.underlying p.target)

theorem layoutWithin_eq (n : Nat) : p.layoutWithin n = within p.layoutRound n := by
  induction n with
  | zero => rfl
  | succ n ih => rw [layoutWithin, ih, within, layoutRound]

theorem uniqueWithin_eq (n : Nat) : p.uniqueWithin n = within p.uniqueRound n := by
  induction n with
  | zero => rfl
  | succ n ih => rw [uniqueWithin, ih, within, uniqueRound]

theorem layoutStep_congr {underlying underlying' : Enumeration → Option (Option Layout)}
    (h : ∀ e, t.layoutEnum?.bind p.enum? = some e → underlying e = underlying' e) :
    p.layoutStep underlying t = p.layoutStep underlying' t := by
  induction t using Ty.inductionOn with
  | qualified t cv ih =>
    cases t with
    | qualified _ _ | lvalueRef _ | rvalueRef _ => rfl
    | _ => exact ih h
  | lvalueRef t ih | rvalueRef t ih => exact ih h
  | array t b ih => rw [layoutStep, layoutStep, ih h]
  | enum id =>
    rw [Ty.layoutEnum?, Option.bind_some] at h
    rw [layoutStep, layoutStep]
    cases he : p.enum? id with
    | none => rfl
    | some e => exact h e he
  | _ => rfl

theorem layoutStep_eq_none_iff {underlying : Enumeration → Option (Option Layout)} :
    p.layoutStep underlying t = none ↔
      ∃ e, t.layoutEnum?.bind p.enum? = some e ∧ underlying e = none := by
  induction t using Ty.inductionOn with
  | qualified t cv ih =>
    cases t with
    | qualified _ _ | lvalueRef _ | rvalueRef _ => simp [layoutStep, Ty.layoutEnum?]
    | _ => exact ih
  | lvalueRef t ih | rvalueRef t ih => exact ih
  | array t b ih =>
    rw [Ty.layoutEnum?, ← ih, layoutStep]
    cases p.layoutStep underlying t <;> simp
  | enum id =>
    rw [layoutStep, Ty.layoutEnum?, Option.bind_some]
    cases p.enum? id <;> simp
  | _ => simp [layoutStep, Ty.layoutEnum?]

theorem asks_layoutRound : Asks p.layoutNext? p.layoutRound where
  congr f g t h := layoutStep_congr fun e he => h _ (by rw [layoutNext?, he, Option.map_some])
  isSome_iff f t := by
    rw [← Option.ne_none_iff_isSome, ne_eq, layoutRound, layoutStep_eq_none_iff, layoutNext?]
    cases t.layoutEnum?.bind p.enum? <;> simp [Option.isSome_iff_ne_none]

theorem asks_uniqueRound : Asks p.uniqueCall? p.uniqueRound where
  congr f g t h := by
    rw [uniqueCall?, Ty.enumId?] at h
    rw [uniqueRound, uniqueRound, uniqueStep, uniqueStep]
    cases hcore : t.element.core with
    | enum id =>
      cases he : p.enum? id with
      | none => simp [he]
      | some e =>
        have hanswer : f (e.underlying p.target) = g (e.underlying p.target) :=
          h _ (by simp [hcore, he])
        simp [he, hanswer]
    | _ => rfl
  isSome_iff f t := by
    rw [uniqueRound, uniqueStep, uniqueCall?, Ty.enumId?]
    cases t.element.core with
    | enum id => cases he : p.enum? id <;> simp [he]
    | _ => simp

theorem transGen_of_layoutNext? (h : p.layoutNext? t = some u) :
    Relation.TransGen (CalledBy p.layoutCall?) u t := by
  induction t using Ty.inductionOn with
  | qualified t cv ih =>
    cases t with
    | qualified _ _ | lvalueRef _ | rvalueRef _ => cases h
    | _ => exact (ih h).tail rfl
  | lvalueRef t ih | rvalueRef t ih | array t b ih => exact (ih h).tail rfl
  | enum id => exact .single h
  | _ => cases h

/-- Going through references, qualifiers and arrays ends. -/
theorem acc_of_layoutNext? (h : ∀ u, p.layoutNext? t = some u → Acc (CalledBy p.layoutCall?) u) :
    Acc (CalledBy p.layoutCall?) t := by
  induction t using Ty.inductionOn with
  | qualified t cv ih =>
    cases t with
    | qualified _ _ | lvalueRef _ | rvalueRef _ => exact Acc.intro _ fun u hu => nomatch hu
    | _ =>
      refine Acc.intro _ fun u hu => ?_
      cases hu
      exact ih h
  | lvalueRef t ih | rvalueRef t ih | array t b ih =>
    refine Acc.intro _ fun u hu => ?_
    cases hu
    exact ih h
  | enum id => exact Acc.intro _ h
  | _ => exact Acc.intro _ fun u hu => nomatch hu

theorem acc_layoutCall?_iff : Acc (CalledBy p.layoutCall?) t ↔ Acc (CalledBy p.layoutNext?) t := by
  constructor
  · intro h
    have hsub : ∀ {u t}, CalledBy p.layoutNext? u t →
        Relation.TransGen (CalledBy p.layoutCall?) u t := transGen_of_layoutNext?
    exact Subrelation.accessible hsub h.transGen
  · intro h
    induction h with
    | intro t _ ih => exact acc_of_layoutNext? ih

variable (p) in
/-- Whether finding the layout of a type ends. -/
def LayoutEnds (t : Ty) : Prop := Acc (CalledBy p.layoutCall?) t

variable (p) in
/-- Whether finding out if a type has a unique representation ends. -/
def UniqueEnds (t : Ty) : Prop := Acc (CalledBy p.uniqueCall?) t

/-- Where the layout is found, so is whether the representation is unique: the one goes on with the
same underlying types as the other, but not through references. -/
theorem LayoutEnds.uniqueEnds (h : p.LayoutEnds t) : p.UniqueEnds t := by
  have hsub : ∀ {u t}, CalledBy p.uniqueCall? u t → CalledBy p.layoutNext? u t := by
    intro u t hu
    obtain ⟨e, he, hu⟩ := Option.map_eq_some_iff.1 hu
    obtain ⟨id, hid, he⟩ := Option.bind_eq_some_iff.1 he
    simp [CalledBy, layoutNext?, t.layoutEnum?_of_element hid, he, hu]
  exact Subrelation.accessible hsub (acc_layoutCall?_iff.1 h)

theorem layoutNext?_mem (t u : Ty) (h : p.layoutNext? t = some u) : u ∈ p.underlyings :=
  mem_underlyings h

theorem uniqueCall?_mem (t u : Ty) (h : p.uniqueCall? t = some u) : u ∈ p.underlyings :=
  mem_underlyings h

theorem isSome_layoutWithin_iff :
    (p.layoutWithin (p.enums.size + 1) t).isSome = true ↔ p.LayoutEnds t := by
  rw [layoutWithin_eq, asks_layoutRound.isSome_within_iff_acc layoutNext?_mem length_underlyings_le]
  exact acc_layoutCall?_iff.symm

theorem isSome_uniqueWithin_iff :
    (p.uniqueWithin (p.enums.size + 1) t).isSome = true ↔ p.UniqueEnds t := by
  rw [uniqueWithin_eq, asks_uniqueRound.isSome_within_iff_acc uniqueCall?_mem length_underlyings_le]
  exact Iff.rfl

theorem layoutWithin_eq_some (h : p.LayoutEnds t) :
    p.layoutWithin (p.enums.size + 1) t = some (p.layoutOf t) := by
  obtain ⟨l, hl⟩ := Option.isSome_iff_exists.1 (isSome_layoutWithin_iff.2 h)
  rw [layoutOf, hl, Option.join_some]

theorem uniqueWithin_eq_some (h : p.UniqueEnds t) :
    p.uniqueWithin (p.enums.size + 1) t = some (p.hasUniqueRepresentation t) := by
  obtain ⟨answer, hanswer⟩ := Option.isSome_iff_exists.1 (isSome_uniqueWithin_iff.2 h)
  rw [hasUniqueRepresentation, hanswer, Option.getD_some]

/-- The layout that is found is that of the recursion without a bound. -/
theorem LayoutEnds.layoutOf_eq (h : p.LayoutEnds t) :
    some (p.layoutOf t) = p.layoutStep (fun e => some (p.layoutOf (e.underlying p.target))) t := by
  have hnext := acc_layoutCall?_iff.1 h
  rw [← layoutWithin_eq_some h, layoutWithin_eq,
    asks_layoutRound.within_eq_step layoutNext?_mem length_underlyings_le hnext, ← layoutWithin_eq]
  exact asks_layoutRound.congr _ (fun u => some (p.layoutOf u)) t fun u hu =>
    layoutWithin_eq_some (acc_layoutCall?_iff.2 (hnext.inv hu))

theorem UniqueEnds.hasUniqueRepresentation_eq (h : p.UniqueEnds t) :
    some (p.hasUniqueRepresentation t) =
      p.uniqueStep (fun e => some (p.hasUniqueRepresentation (e.underlying p.target))) t := by
  rw [← uniqueWithin_eq_some h, uniqueWithin_eq,
    asks_uniqueRound.within_eq_step uniqueCall?_mem length_underlyings_le h, ← uniqueWithin_eq]
  exact asks_uniqueRound.congr _ (fun u => some (p.hasUniqueRepresentation u)) t fun u hu =>
    uniqueWithin_eq_some (h.inv hu)

/-- A query ends exactly if it does not come to a type that leads back to itself, which takes
enumerations whose underlying types lead to one another; and the bound on the enumerations gone
through is enough exactly if it ends. -/
theorem layout_queries_end_iff (p : Program) (t : Ty) :
    (p.LayoutEnds t ↔ ¬∃ u, Relation.TransGen (CalledBy p.layoutCall?) u t ∧
      Relation.TransGen (CalledBy p.layoutCall?) u u) ∧
    (p.UniqueEnds t ↔ ¬∃ u, Relation.TransGen (CalledBy p.uniqueCall?) u t ∧
      Relation.TransGen (CalledBy p.uniqueCall?) u u) ∧
    ((p.layoutWithin (p.enums.size + 1) t).isSome = true ↔ p.LayoutEnds t) ∧
    ((p.uniqueWithin (p.enums.size + 1) t).isSome = true ↔ p.UniqueEnds t) := by
  refine ⟨⟨not_exists_loop_of_acc, fun hloop => acc_layoutCall?_iff.2 ?_⟩,
    acc_iff_not_exists_loop uniqueCall?_mem, isSome_layoutWithin_iff, isSome_uniqueWithin_iff⟩
  refine (acc_iff_not_exists_loop layoutNext?_mem).2 fun ⟨u, hut, huu⟩ => hloop ⟨u, ?_, ?_⟩
  · exact hut.lift' id fun _ _ => transGen_of_layoutNext?
  · exact huu.lift' id fun _ _ => transGen_of_layoutNext?

end Program

/-! ### Enumerations over those before them -/

/-- Whether the fixed underlying type leads to none but the first `n` enumerations. -/
def Enumeration.LeadsWithin (e : Enumeration) (n : Nat) : Prop :=
  ∀ t id, e.fixedUnderlying = some t → t.layoutEnum? = some id → id.index ≤ n

/-- An underlying type that is not fixed is an integer type, which leads nowhere. -/
theorem Enumeration.LeadsWithin.index_le {e : Enumeration} {n : Nat} {target : Target} {id : EnumId}
    (h : e.LeadsWithin n) (hid : (e.underlying target).layoutEnum? = some id) : id.index ≤ n := by
  rw [underlying] at hid
  cases hfixed : e.fixedUnderlying with
  | none =>
    rw [hfixed] at hid
    dsimp only at hid
    split at hid <;> cases hid
  | some t =>
    rw [hfixed] at hid
    exact h t id hfixed hid

/-- The number of the enumeration that the layout of a type leads to; without one, zero. -/
def Ty.layoutRank (t : Ty) : Nat := (t.layoutEnum?.map (·.index)).getD 0

namespace Program

variable {p : Program} {t u : Ty}

/-- Whether the underlying type of each enumeration leads only to those declared before it. -/
def DeclaresInOrder (p : Program) : Prop :=
  ∀ (n : Nat) (e : Enumeration), p.enums[n]? = some e → e.LeadsWithin n

/-- Going on from an enumeration to its underlying type comes to one declared before it. -/
theorem DeclaresInOrder.layoutRank_lt (h : p.DeclaresInOrder) (hu : p.layoutNext? t = some u) :
    u.layoutRank < t.layoutRank := by
  obtain ⟨e, he, rfl⟩ := Option.map_eq_some_iff.1 hu
  obtain ⟨id, hid, he⟩ := Option.bind_eq_some_iff.1 he
  rw [enum?] at he
  split at he
  · cases he
  · have hrank : t.layoutRank = id.index := by simp [Ty.layoutRank, hid]
    have hle : (e.underlying p.target).layoutRank ≤ id.index - 1 := by
      cases hnext : (e.underlying p.target).layoutEnum? with
      | none => simp [Ty.layoutRank, hnext]
      | some id' => simpa [Ty.layoutRank, hnext] using (h _ e he).index_le hnext
    omega

theorem DeclaresInOrder.layoutEnds (h : p.DeclaresInOrder) (t : Ty) : p.LayoutEnds t := by
  have hdrop : ∀ {u t}, CalledBy p.layoutNext? u t → u.layoutRank < t.layoutRank := h.layoutRank_lt
  exact acc_layoutCall?_iff.2 (Subrelation.accessible hdrop ((measure Ty.layoutRank).wf.apply t))

end Program

namespace Development

variable {d : Development} {a : Action}

theorem enums_perform (d : Development) (a : Action) :
    (d.perform a).program.enums =
      match a with
      | .enumeration e => d.program.enums.push { e with id := ⟨d.program.enums.size + 1⟩ }
      | _ => d.program.enums := by
  cases a with
  | finish id =>
    rcases perform_finish d id with ⟨hp, -⟩ | ⟨_, _, _, r, _, _, _, _, hp, -⟩
    · rw [hp]
    · rw [hp, Program.enums_defineRecord]
  | _ => rfl

/-- Developments in which each enumeration is declared over those before it. -/
inductive InOrder : Development → Prop
  | fresh (target : Target) : InOrder { program := { target } }
  | perform {d : Development} {a : Action} : InOrder d → a.IsWritten →
    (∀ e, a = .enumeration e → e.LeadsWithin d.program.enums.size) → InOrder (d.perform a)

theorem declaresInOrder_perform (h : d.program.DeclaresInOrder)
    (ha : ∀ e, a = .enumeration e → e.LeadsWithin d.program.enums.size) :
    (d.perform a).program.DeclaresInOrder := by
  intro n e he
  rw [enums_perform] at he
  cases a with
  | enumeration new =>
    rw [Array.getElem?_push] at he
    split at he
    · next hn =>
      cases he
      exact hn ▸ ha new rfl
    · exact h n e he
  | _ => exact h n e he

theorem InOrder.declaresInOrder (h : d.InOrder) : d.program.DeclaresInOrder := by
  induction h with
  | fresh target => intro n e he; simp at he
  | perform _ _ ha ih => exact declaresInOrder_perform ih ha

/-- All queries end if each enumeration is declared over those before it. -/
theorem InOrder.queries_end (h : d.InOrder) (t : Ty) :
    d.program.LayoutEnds t ∧ d.program.UniqueEnds t := by
  have hends := h.declaresInOrder.layoutEnds t
  exact ⟨hends, hends.uniqueEnds⟩

/-- The program `enum E : E \x7b \x7d;`. -/
def selfUnderlying : Development :=
  .run .lp64 [.enumeration
    { id := ⟨0⟩, name := "E", isScoped := false, fixedUnderlying := some (.enum ⟨1⟩), least := 0,
      greatest := 0 }]

/-- The layout of an enumeration over itself is never found. -/
theorem layout_queries_end_iff_selfUnderlying : selfUnderlying.Reachable ∧
    ¬selfUnderlying.program.LayoutEnds (.enum ⟨1⟩) ∧
    ¬selfUnderlying.program.UniqueEnds (.enum ⟨1⟩) := by
  obtain ⟨hlayout, hunique, -⟩ :=
    Program.layout_queries_end_iff selfUnderlying.program (.enum ⟨1⟩)
  have hcall : selfUnderlying.program.layoutCall? (.enum ⟨1⟩) = some (.enum ⟨1⟩) := by
    decide +kernel
  have hcall' : selfUnderlying.program.uniqueCall? (.enum ⟨1⟩) = some (.enum ⟨1⟩) := by
    decide +kernel
  refine ⟨?_, fun h => hlayout.1 h ⟨_, .single hcall, .single hcall⟩,
    fun h => hunique.1 h ⟨_, .single hcall', .single hcall'⟩⟩
  refine reachable_run fun a ha => ?_
  cases List.mem_singleton.1 ha
  intro t ht
  cases ht
  rfl

end Development

end TypeTraits
