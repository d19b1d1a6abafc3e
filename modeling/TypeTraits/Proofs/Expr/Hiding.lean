import Mathlib.Data.Finset.Max
import Mathlib.Data.Prod.Lex
import TypeTraits.Proofs.Expr.Resolution
import TypeTraits.Proofs.Hierarchy.Reachability

/-!
# Conversion functions that hide others

The conversion functions of a class and its bases are listed class by class, and each signature is
taken where it is met first. So a function is hidden by any function of its signature that is listed
before it, whether or not the class of that one derives from its own. Where only functions of
derived classes, and earlier ones of the same class, hide others, the visible functions are those
that no function of their signature outranks, whatever the order of the list.
-/

namespace TypeTraits

/-! ### The first element of each key -/

section Firsts

variable {α κ : Type} [DecidableEq κ] {key : α → κ} {seen : List κ} {l : List α} {a b : α}

/-- The elements whose key was not seen before. -/
def firsts (key : α → κ) (seen : List κ) : List α → List α
  | [] => []
  | a :: l => if key a ∈ seen then firsts key seen l else a :: firsts key (key a :: seen) l

theorem firsts_cons : firsts key seen (a :: l) =
    if key a ∈ seen then firsts key seen l else a :: firsts key (key a :: seen) l := rfl

theorem firsts_sublist (seen : List κ) (l : List α) : (firsts key seen l).Sublist l := by
  induction l generalizing seen with
  | nil => exact .refl _
  | cons a l ih =>
    rw [firsts_cons]
    split
    · exact (ih seen).cons a
    · exact (ih _).cons_cons a

theorem foldl_eq_firsts [∀ (k : κ) (seen : List κ), Decidable (k ∈ seen)] (seen : List κ)
    (out l : List α) :
    (l.foldl (fun (seen, out) a =>
      if key a ∈ seen then (seen, out) else (key a :: seen, a :: out)) (seen, out)).2 =
      (firsts key seen l).reverse ++ out := by
  induction l generalizing seen out with
  | nil => rfl
  | cons a l ih =>
    rw [List.foldl_cons, firsts_cons]
    dsimp only
    by_cases hseen : key a ∈ seen
    · rw [if_pos hseen, if_pos hseen]
      exact ih seen out
    · rw [if_neg hseen, if_neg hseen, ih, List.reverse_cons, List.append_assoc]
      rfl

/-- An element comes first if its key was neither seen nor stands before it. -/
theorem mem_firsts_iff {before after : List α} (hnodup : (before ++ a :: after).Nodup) :
    a ∈ firsts key seen (before ++ a :: after) ↔ key a ∉ seen ∧ ∀ b ∈ before, key b ≠ key a := by
  induction before generalizing seen with
  | nil =>
    have hafter : a ∉ after := (List.nodup_cons.mp hnodup).1
    rw [List.nil_append, firsts_cons]
    split
    · rename_i hseen
      have hnot : a ∉ firsts key seen after := fun h => hafter ((firsts_sublist seen after).mem h)
      simp [hnot, hseen]
    · rename_i hseen
      simp [hseen]
  | cons b before ih =>
    obtain ⟨hb, hnodup⟩ := List.nodup_cons.mp hnodup
    have hne : a ≠ b := by
      rintro rfl
      exact hb (by simp)
    rw [List.cons_append, firsts_cons]
    split
    · rename_i hseen
      rw [ih hnodup, List.forall_mem_cons]
      refine and_congr_right fun ha => ⟨fun h => ⟨?_, h⟩, And.right⟩
      intro heq
      exact ha (heq ▸ hseen)
    · rw [List.mem_cons, ih hnodup, List.forall_mem_cons, List.mem_cons, not_or]
      simp only [hne, false_or]
      constructor
      · rintro ⟨⟨hkey, ha⟩, h⟩
        exact ⟨ha, Ne.symm hkey, h⟩
      · rintro ⟨ha, hkey, h⟩
        exact ⟨⟨Ne.symm hkey, ha⟩, h⟩

theorem not_mem_seen_of_mem_firsts (h : a ∈ firsts key seen l) : key a ∉ seen := by
  induction l generalizing seen with
  | nil => cases h
  | cons b l ih =>
    rw [firsts_cons] at h
    split at h
    · exact ih h
    · rename_i hb
      rcases List.mem_cons.mp h with rfl | h
      · exact hb
      · exact fun ha => ih h (List.mem_cons_of_mem _ ha)

/-- Each key comes first once. -/
theorem eq_of_mem_firsts (ha : a ∈ firsts key seen l) (hb : b ∈ firsts key seen l)
    (h : key a = key b) : a = b := by
  induction l generalizing seen with
  | nil => cases ha
  | cons c l ih =>
    rw [firsts_cons] at ha hb
    split at ha
    · rename_i hc
      rw [if_pos hc] at hb
      exact ih ha hb
    · rename_i hc
      rw [if_neg hc] at hb
      rcases List.mem_cons.mp ha with rfl | ha <;> rcases List.mem_cons.mp hb with rfl | hb
      · rfl
      · exact absurd (h ▸ List.mem_cons_self) (not_mem_seen_of_mem_firsts hb)
      · exact absurd (h ▸ List.mem_cons_self) (not_mem_seen_of_mem_firsts ha)
      · exact ih ha hb

end Firsts

/-! ### The conversion functions of a class and its bases -/

/-- The signature by which conversion functions hide one another. -/
def FunctionDecl.conversionSignature (f : FunctionDecl) : Program.ConversionSignature :=
  (f.result, f.cv, f.ref)

/-- The signature of the candidate's function. -/
def Candidate.signature (c : Candidate) : Program.ConversionSignature :=
  c.function.conversionSignature

namespace Record

variable {r : Record} {set : FunctionSet} {mode : InitMode} {object : Option Ty} {c : Candidate}

/-- A candidate is named by the place of its function. -/
theorem place_of_mem_candidates (h : c ∈ r.candidates set mode object) :
    c.id.record = r.id ∧ (r.functions set)[c.id.index]? = some c.function := by
  obtain ⟨⟨f, i⟩, hmem, hc⟩ := List.mem_filterMap.mp h
  dsimp only at hc
  split at hc <;> cases hc
  exact ⟨rfl, List.mem_zipIdx_iff_getElem?.mp hmem⟩

/-- A function that is not hidden is a candidate, an explicit one in direct initialization. -/
theorem mem_candidates_of_function {i : Nat} {f : FunctionDecl}
    (hf : (r.functions set)[i]? = some f) (hhidden : f.hidden = false)
    (hexplicit : mode = .copy → f.explicit = false) :
    { id := ⟨r.id, set, i⟩, function := f, object } ∈ r.candidates set mode object := by
  refine List.mem_filterMap.mpr ⟨(f, i), List.mem_zipIdx_iff_getElem?.mpr hf, ?_⟩
  cases mode with
  | copy => simp [hhidden, hexplicit rfl]
  | direct => simp [hhidden]

/-- Candidates stand in the order of their functions. -/
theorem pairwise_candidates (r : Record) (set : FunctionSet) (mode : InitMode)
    (object : Option Ty) :
    (r.candidates set mode object).Pairwise fun a b => a.id.index < b.id.index := by
  have hplaces : (r.functions set).zipIdx.Pairwise fun a b => a.2 < b.2 := by
    refine List.Pairwise.of_map (S := (· < ·)) Prod.snd (fun _ _ h => h) ?_
    rw [List.zipIdx_map_snd]
    exact List.pairwise_lt_range'
  refine hplaces.filterMap _ ?_
  rintro ⟨f, i⟩ ⟨f', i'⟩ hlt c hc c' hc'
  dsimp only at hc hc'
  split at hc <;> cases hc
  split at hc' <;> cases hc'
  exact hlt

end Record

namespace Program

variable (p : Program)

/-- The conversion functions that take part in an initialization from an object of the type, class
by class. -/
def offered (t : Ty) (mode : InitMode) : List Candidate :=
  (p.conversionOwners t).flatMap fun owner =>
    owner.2.candidates .conversion mode (some owner.1)

/-- The conversion functions that one class offers. -/
def offeredBy (mode : InitMode) (cls : Ty) : List Candidate :=
  (p.completeRecord? cls).elim [] fun r => r.candidates .conversion mode (some cls)

theorem offered_eq (t : Ty) (mode : InitMode) :
    p.offered t mode = (p.completeRecord? t).elim [] fun r =>
      r.candidates .conversion mode (some t.unqualified) ++
        (p.allBases t.unqualified).flatMap (p.offeredBy mode) := by
  rw [offered, conversionOwners]
  cases p.completeRecord? t with
  | none => rfl
  | some r =>
    rw [Option.elim_some, List.flatMap_cons]
    congr 1
    induction p.allBases t.unqualified with
    | nil => rfl
    | cons base bases ih =>
      rw [List.flatMap_cons, ← ih, List.filterMap_cons, offeredBy]
      cases p.completeRecord? base <;> rfl

/-- The conversion functions that an initialization from an object of the type considers. -/
def considered (t : Ty) (mode : InitMode) : List Candidate :=
  visibleConversions mode (p.conversionOwners t)

theorem considered_eq (t : Ty) (mode : InitMode) :
    p.considered t mode = firsts Candidate.signature [] (p.offered t mode) := by
  rw [considered, visibleConversions, ← List.reverse_reverse (firsts _ _ _)]
  congr 1
  exact (@foldl_eq_firsts _ _ _ Candidate.signature _ [] [] (p.offered t mode)).trans
    (List.append_nil _)

/-- A function comes before another one of its signature by rank: its class derives from that of
the other one, or both are of one class and it was declared before. -/
def Outranks (a c : Candidate) : Prop :=
  a.signature = c.signature ∧
    ((∃ path ≠ [], Hierarchy.Leads p (.record a.id.record) path (.record c.id.record)) ∨
      a.id.record = c.id.record ∧ a.id.index < c.id.index)

/-- Functions are hidden only by functions that outrank them. -/
def HidesByRank : Prop :=
  ∀ t mode, ∀ c ∈ p.offered t mode,
    c ∈ p.considered t mode ∨ ∃ a ∈ p.offered t mode, p.Outranks a c

variable {p} {t : Ty} {mode : InitMode} {c : Candidate} {rank : Ty → Nat}

open Hierarchy

theorem Outranks.lt (hranked : Ranked p rank) {a : Candidate} (h : p.Outranks a c) :
    toLex (rank (.record c.id.record), OrderDual.toDual c.id.index) <
      toLex (rank (.record a.id.record), OrderDual.toDual a.id.index) := by
  rw [Prod.Lex.toLex_lt_toLex]
  obtain ⟨path, hne, hpath⟩ | ⟨hrecord, hindex⟩ := h.2
  · have hlower := hpath.length_add_rank_le hranked
    have hpos := List.length_pos_iff.mpr hne
    exact Or.inl (by dsimp only; omega)
  · exact Or.inr ⟨by rw [hrecord], OrderDual.toDual_lt_toDual.mpr hindex⟩

/-- Where functions are hidden only by rank, those are considered that nothing outranks. -/
theorem HidesByRank.mem_considered_iff (h : p.HidesByRank) (hranked : Ranked p rank) :
    c ∈ p.considered t mode ↔
      c ∈ p.offered t mode ∧ ∀ a ∈ p.offered t mode, ¬p.Outranks a c := by
  have hoffered : c ∈ p.considered t mode → c ∈ p.offered t mode := by
    rw [considered_eq]
    exact fun hc => (firsts_sublist _ _).mem hc
  constructor
  · intro hc
    refine ⟨hoffered hc, ?_⟩
    -- The function of its signature that stands highest is outranked by none, so it is considered.
    obtain ⟨top, htop, hhighest⟩ := Finset.exists_max_image
      ((p.offered t mode).toFinset.filter (·.signature = c.signature))
      (fun a => toLex (rank (.record a.id.record), OrderDual.toDual a.id.index))
      ⟨c, by simpa using hoffered hc⟩
    simp only [Finset.mem_filter, List.mem_toFinset] at htop hhighest
    obtain ⟨htop, hsignature⟩ := htop
    have hfree : ∀ a ∈ p.offered t mode, ¬p.Outranks a top := fun a ha houtranks =>
      absurd (houtranks.lt hranked) (not_lt_of_ge (hhighest a ⟨ha, houtranks.1.trans hsignature⟩))
    have hconsidered : top ∈ p.considered t mode := by
      refine (h t mode top htop).resolve_right ?_
      rintro ⟨a, ha, houtranks⟩
      exact hfree a ha houtranks
    rw [considered_eq] at hc hconsidered
    rwa [eq_of_mem_firsts hc hconsidered hsignature.symm]
  · rintro ⟨hc, hfree⟩
    refine (h t mode c hc).resolve_right ?_
    rintro ⟨a, ha, houtranks⟩
    exact hfree a ha houtranks

end Program

namespace Development

open Hierarchy

variable {d : Development} {t : Ty} {mode : InitMode}

/-- An owner of conversion functions is a complete record, and a path from the type leads to it. -/
theorem Valid.owner (h : d.Valid) {owner : Ty × Record}
    (howner : owner ∈ d.program.conversionOwners t) :
    owner.1 = .record owner.2.id ∧ d.program.completeRecord? owner.1 = some owner.2 := by
  simp only [Program.conversionOwners] at howner
  split at howner
  · cases howner
  · rename_i r hr
    obtain ⟨id, hid, hrecord, _⟩ := Program.completeRecord?_eq_some.mp hr
    rcases List.mem_cons.mp howner with rfl | howner
    · have hplain : t.unqualified = .record r.id := by
        rw [h.id id r hrecord]
        exact Ty.unqualified_of_recordId? hid
      refine ⟨hplain, ?_⟩
      rw [← hr, hplain, h.id id r hrecord]
      simp only [Program.completeRecord?, Program.recordOf?, hid]
      rfl
    · obtain ⟨base, hbase, howner⟩ := List.mem_filterMap.mp howner
      obtain ⟨s, hs, rfl⟩ := Option.map_eq_some_iff.mp howner
      refine ⟨?_, hs⟩
      have hplain : ∃ id, base = .record id := by
        refine @forall_mem_collect d.program _ _ _ (fun t => ∃ id, t = .record id) ?_ [] (by simp)
          base hbase
        intro source e he
        obtain ⟨id, htype, _⟩ := h.class?_of_mem_edges he
        exact ⟨id, htype⟩
      obtain ⟨id, rfl⟩ := hplain
      obtain ⟨_, hid, hs, _⟩ := Program.completeRecord?_eq_some.mp hs
      cases hid
      rw [h.id _ s hs]

/-- A class is not among its own bases. -/
theorem Valid.not_mem_allBases (h : d.Valid) : t.unqualified ∉ d.program.allBases t := by
  intro hmem
  obtain ⟨path, hne, hpath⟩ := exists_path_of_mem_allBases hmem
  have hlower := hpath.length_add_rank_le h.ranked
  have hpos := List.length_pos_iff.mpr hne
  omega

/-- Each owner is listed once. -/
theorem Valid.nodup_owners (h : d.Valid) (t : Ty) :
    ((d.program.conversionOwners t).map (·.2.id)).Nodup := by
  have htypes : ((d.program.conversionOwners t).map (·.1)).Nodup := by
    simp only [Program.conversionOwners]
    split
    · exact List.nodup_nil
    · rename_i r hr
      obtain ⟨id, hid, _⟩ := Program.completeRecord?_eq_some.mp hr
      have hplain : t.unqualified.unqualified = t.unqualified := by
        rw [Ty.unqualified_of_recordId? hid]
        rfl
      have hnot : t.unqualified ∉ d.program.allBases t.unqualified := by
        have hnot := @Valid.not_mem_allBases d t.unqualified h
        rwa [hplain] at hnot
      have hfound : ∀ base b, ((d.program.completeRecord? base).map (base, ·)).map (·.1) = some b →
          b = base := by
        intro base b hb
        obtain ⟨owner, howner, rfl⟩ := Option.map_eq_some_iff.mp hb
        obtain ⟨s, -, rfl⟩ := Option.map_eq_some_iff.mp howner
        rfl
      rw [List.map_cons, List.map_filterMap, List.nodup_cons]
      constructor
      · intro hmem
        obtain ⟨base, hbase, hb⟩ := List.mem_filterMap.mp hmem
        obtain rfl : base = t.unqualified := (hfound base _ hb).symm
        exact hnot hbase
      · apply nodup_collect.filterMap
        intro a b u ha hb
        exact (hfound a u ha).symm.trans (hfound b u hb)
  have hsame : (d.program.conversionOwners t).map (·.1) =
      ((d.program.conversionOwners t).map (·.2.id)).map Ty.record := by
    rw [List.map_map]
    exact List.map_congr_left fun owner howner => (h.owner howner).1
  rw [hsame] at htypes
  exact List.Nodup.of_map _ htypes

/-- A class that a path leads to is an owner, as long as the walks are not denied. -/
theorem Valid.mem_conversionOwners (h : d.Valid) {derived owner : RecordId} {s r : Record}
    (hderived : t.recordId? = some derived) (hs : d.program.record? derived = some s)
    (hcomplete : s.complete = true) (hlimits : WithinLimits d.program (.record derived))
    {path : List Edge} (hpath : Leads d.program (.record derived) path (.record owner))
    (hr : d.program.record? owner = some r) :
    (.record owner, r) ∈ d.program.conversionOwners t := by
  have hsource : d.program.completeRecord? t = some s :=
    Program.completeRecord?_eq_some.mpr ⟨derived, hderived, hs, hcomplete⟩
  have hplain : t.unqualified = .record derived := Ty.unqualified_of_recordId? hderived
  rw [Program.conversionOwners, hsource, hplain]
  cases path with
  | nil =>
    cases hpath
    rw [hs] at hr
    cases hr
    exact List.mem_cons_self
  | cons e path =>
    obtain ⟨_, hid, hclass⟩ := h.class?_of_leads hpath (by simp)
    cases hid
    obtain ⟨b, hb⟩ := Option.isSome_iff_exists.mp hclass
    obtain ⟨_, hid, hrecord, hc, -⟩ := Program.class?_eq_some.mp hb
    cases hid
    rw [hr] at hrecord
    cases hrecord
    have hfound : d.program.completeRecord? (.record owner) = some r :=
      Program.completeRecord?_eq_some.mpr ⟨owner, rfl, hr, hc⟩
    have hbase : Ty.record owner ∈ d.program.allBases (.record derived) :=
      (hlimits.mem_allBases h.ranked rfl).mpr ⟨e :: path, by simp, hpath⟩
    exact List.mem_cons_of_mem _
      (List.mem_filterMap.mpr ⟨.record owner, hbase, by rw [hfound, Option.map_some]⟩)

/-- The functions of each class are listed in declaration order. -/
theorem Valid.pairwise_offered (h : d.Valid) (t : Ty) (mode : InitMode) :
    (d.program.offered t mode).Pairwise fun a c =>
      a.id.record = c.id.record → a.id.index < c.id.index := by
  rw [Program.offered, List.pairwise_flatMap]
  constructor
  · intro owner _
    refine (owner.2.pairwise_candidates .conversion mode (some owner.1)).imp ?_
    intro a c hlt _
    exact hlt
  · refine (List.pairwise_map.mp (h.nodup_owners t)).imp ?_
    intro owner other hne a ha c hc hsame
    refine absurd ?_ hne
    rw [← (Record.place_of_mem_candidates ha).1, hsame, (Record.place_of_mem_candidates hc).1]

theorem Valid.nodup_offered (h : d.Valid) (t : Ty) (mode : InitMode) :
    (d.program.offered t mode).Nodup := by
  refine (h.pairwise_offered t mode).imp ?_
  rintro a _ hlt rfl
  exact absurd (hlt rfl) (Nat.lt_irrefl _)

end Development
end TypeTraits
