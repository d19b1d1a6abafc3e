import TypeTraits.Proofs.Program.SpecifierOrder
import TypeTraits.Proofs.Trait.DerivedConversions

/-!
# Which conversion functions are hidden

The conversion functions of a class and its bases are told apart by one list of the signatures met
so far, so a function is hidden by any function of its signature that is met before it. Mostly that
one belongs to a derived class, or to the same class. A sibling or a virtual base that is met first
hides as well, though a choice between siblings is ambiguous, and then the order in which a class
names its bases decides how it converts. Otherwise conversions do not depend on this order.
-/

namespace TypeTraits

open Hierarchy

namespace Program

/-- A derived owner declares a function of the candidate's signature, or its own class declares one
before it. Whether that function takes part in the initialization does not matter. -/
def Shadowed (p : Program) (t : Ty) (c : Candidate) : Prop :=
  ∃ owner ∈ p.conversionOwners t, ∃ i f, owner.2.conversions[i]? = some f ∧
    f.conversionSignature = c.signature ∧
      ((∃ path ≠ [], Leads p (.record owner.2.id) path (.record c.id.record)) ∨
        owner.2.id = c.id.record ∧ i < c.id.index)

variable {p q : Program} {t u : Ty} {mode : InitMode} {a c : Candidate}

theorem Outranks.shadowed (h : p.Outranks a c) (ha : a ∈ p.offered t mode) : p.Shadowed t c := by
  obtain ⟨owner, howner, hmem⟩ := List.mem_flatMap.mp ha
  obtain ⟨hrecord, hfunction⟩ := Record.place_of_mem_candidates hmem
  refine ⟨owner, howner, a.id.index, a.function, hfunction, h.1, ?_⟩
  rw [← hrecord]
  exact h.2

/-- No check of the conversion between the types is denied for the number of steps. -/
def ConvertsWithinLimits (p : Program) (t u : Ty) : Prop :=
  ∀ source ∈ (Expr.declval t).toOption, (p.copyInit u source).InLimits (.fresh .initialization)

instance (p : Program) (t u : Ty) : Decidable (p.ConvertsWithinLimits t u) :=
  inferInstanceAs (Decidable (∀ source ∈ _, Check.InLimits _ _))

/-- Programs that convert alike answer the same to both questions about a conversion. -/
theorem ConvertsAlike.isConvertible_eq (h : p.ConvertsAlike q) {s : Solver} (hs : s.program = p)
    (hlimits : p.ConvertsWithinLimits t u) :
    Solver.isConvertible { s with program := q } t u = s.isConvertible t u ∧
    Solver.isNothrowConvertible { s with program := q } t u = s.isNothrowConvertible t u := by
  have hresult : ∀ source, Expr.declval t = .ok source →
      (q.copyInit u source).result = (s.program.copyInit u source).result := by
    intro source hsource
    rw [hs]
    have hsteps := hlimits source (by simp [hsource, Except.toOption])
    exact congrArg Prod.fst ((h.matches_copyInit u source).run_eq hsteps)
  have hconvertible : Solver.isConvertible { s with program := q } t u = s.isConvertible t u := by
    rw [Solver.isConvertible_eq_converts, Solver.isConvertible_eq_converts, Solver.converts,
      Solver.converts]
    cases hsource : Expr.declval t with
    | error _ => rfl
    | ok source => simp only [hresult source hsource]
  refine ⟨hconvertible, ?_⟩
  rw [Solver.isNothrowConvertible, Solver.isNothrowConvertible, hconvertible]
  cases hsource : Expr.declval t with
  | error _ => rfl
  | ok source =>
    simp only [hresult source hsource]
    rfl

end Program

/-! ### Programs of a few records -/

namespace Program

theorem exists_number_of_record? {p : Program} {id : RecordId} {r : Record}
    (h : p.record? id = some r) : ∃ n < p.records.size, id = ⟨n + 1⟩ := by
  obtain ⟨index⟩ := id
  obtain ⟨hpos, hle⟩ := record?_lt h
  dsimp only at hpos hle
  exact ⟨index - 1, by omega, by rw [Nat.sub_add_cancel hpos]⟩

/-- Whether functions are hidden only by rank is told by the records. -/
theorem hidesByRank_of_records {p : Program}
    (h : ∀ n < p.records.size, ∀ mode ∈ [InitMode.copy, .direct],
      ∀ c ∈ p.offered (.record ⟨n + 1⟩) mode, c ∈ p.considered (.record ⟨n + 1⟩) mode ∨
        ∃ a ∈ p.offered (.record ⟨n + 1⟩) mode, a.signature = c.signature ∧
          c.id.record ≠ a.id.record ∧
            p.isBaseOf (.record c.id.record) (.record a.id.record) = true) : p.HidesByRank := by
  intro t mode c hc
  cases hr : p.completeRecord? t with
  | none =>
    rw [offered_eq, hr] at hc
    cases hc
  | some r =>
    obtain ⟨id, hid, hrecord, -⟩ := completeRecord?_eq_some.mp hr
    obtain ⟨n, hn, rfl⟩ := exists_number_of_record? hrecord
    have howners : p.conversionOwners t = p.conversionOwners (.record ⟨n + 1⟩) := by
      have hsame : p.completeRecord? (.record ⟨n + 1⟩) = p.completeRecord? t := by
        simp only [completeRecord?, recordOf?, hid]
        rfl
      rw [conversionOwners, conversionOwners, hsame, Ty.unqualified_of_recordId? hid]
      rfl
    rw [offered, howners] at hc ⊢
    rw [considered, howners]
    have hmode : mode ∈ [InitMode.copy, .direct] := by cases mode <;> simp
    refine (h n hn mode hmode c hc).imp_right ?_
    rintro ⟨a, ha, hsignature, hne, hbase⟩
    obtain ⟨path, hpath⟩ := exists_path_of_isBaseOf hne hbase
    refine ⟨a, ha, hsignature, Or.inl ⟨path, ?_, hpath⟩⟩
    rintro rfl
    exact hne (Ty.record.inj hpath.endpoint_eq).symm

theorem isCompleteRecord_eq_of_records {p q : Program} (hsize : q.records.size = p.records.size)
    (h : ∀ n < p.records.size, q.isCompleteRecord ⟨n + 1⟩ = p.isCompleteRecord ⟨n + 1⟩)
    (id : RecordId) : q.isCompleteRecord id = p.isCompleteRecord id := by
  cases hp : p.record? id with
  | some r =>
    obtain ⟨n, hn, rfl⟩ := exists_number_of_record? hp
    exact h n hn
  | none =>
    cases hq : q.record? id with
    | some r =>
      obtain ⟨n, hn, rfl⟩ := exists_number_of_record? hq
      exact h n (hsize ▸ hn)
    | none => rw [isCompleteRecord, isCompleteRecord, hp, hq]

end Program

theorem Development.Valid.walksWithinLimits_of_records {d : Development} (h : d.Valid)
    (hfew : ∀ n < d.program.records.size, d.rank (.record ⟨n + 1⟩) ≤ Limits.hierarchyDepth ∧
      (pathsFrom d.program Limits.hierarchyDepth (.record ⟨n + 1⟩)).length ≤
        Limits.guardIterations) : WalksWithinLimits d.program := by
  intro id
  cases hclass : d.program.class? (.record id) with
  | none => exact .of_edges_eq_nil (edges_of_class?_eq_none hclass)
  | some r =>
    obtain ⟨_, hid, hrecord, -⟩ := Program.class?_eq_some.mp hclass
    cases hid
    obtain ⟨n, hn, rfl⟩ := Program.exists_number_of_record? hrecord
    obtain ⟨hrank, hpaths⟩ := hfew n hn
    exact h.withinLimits_of_rank_le hrank hpaths

namespace Development

variable {d : Development}

/-- Every conversion function of a class and its bases is offered, but for those that are hidden as
such and, in copy initialization, the explicit ones. -/
theorem Valid.exists_offered (h : d.Valid) {t : Ty} {mode : InitMode} {derived owner : RecordId}
    {s r : Record} {path : List Edge} {i : Nat} {f : FunctionDecl}
    (hderived : t.recordId? = some derived) (hs : d.program.record? derived = some s)
    (hcomplete : s.complete = true) (hlimits : WithinLimits d.program (.record derived))
    (hpath : Leads d.program (.record derived) path (.record owner))
    (hr : d.program.record? owner = some r) (hf : r.conversions[i]? = some f)
    (hhidden : f.hidden = false) (hexplicit : mode = .copy → f.explicit = false) :
    ∃ before c after, d.program.offered t mode = before ++ c :: after ∧
      c.id = ⟨owner, .conversion, i⟩ ∧ c.function = f := by
  have hmem : { id := ⟨r.id, .conversion, i⟩, function := f, object := some (.record owner) } ∈
      d.program.offered t mode := by
    apply List.mem_flatMap.mpr
    exact ⟨(.record owner, r), h.mem_conversionOwners hderived hs hcomplete hlimits hpath hr,
      Record.mem_candidates_of_function hf hhidden hexplicit⟩
  obtain ⟨before, after, hoffered⟩ := List.append_of_mem hmem
  exact ⟨before, _, after, hoffered, by rw [h.id owner r hr], rfl⟩

section Offered

variable {t : Ty} {mode : InitMode} {before after : List Candidate} {a c : Candidate}

/-- A function is considered unless one of its signature is met before it. -/
theorem Valid.mem_considered_iff (h : d.Valid)
    (hoffered : d.program.offered t mode = before ++ c :: after) :
    c ∈ d.program.considered t mode ↔ ∀ a ∈ before, a.signature ≠ c.signature := by
  have hnodup := h.nodup_offered t mode
  rw [hoffered] at hnodup
  rw [Program.considered_eq, hoffered, mem_firsts_iff hnodup]
  simp

/-- A function of the same signature that is met before outranks the other one, or its class is
another one and no path leads from it to that of the other. -/
theorem Valid.outranks_or_unrelated (h : d.Valid)
    (hoffered : d.program.offered t mode = before ++ c :: after) (ha : a ∈ before)
    (hsignature : a.signature = c.signature) :
    d.program.Outranks a c ∨ a.id.record ≠ c.id.record ∧
      ¬∃ path, Leads d.program (.record a.id.record) path (.record c.id.record) := by
  have hordered := h.pairwise_offered t mode
  rw [hoffered] at hordered
  by_cases hrecord : a.id.record = c.id.record
  · have hindex := (List.pairwise_append.mp hordered).2.2 a ha c List.mem_cons_self hrecord
    exact Or.inl ⟨hsignature, Or.inr ⟨hrecord, hindex⟩⟩
  · by_cases hpath : ∃ path, Leads d.program (.record a.id.record) path (.record c.id.record)
    · obtain ⟨path, hleads⟩ := hpath
      refine Or.inl ⟨hsignature, Or.inl ⟨path, ?_, hleads⟩⟩
      rintro rfl
      exact hrecord (Ty.record.inj hleads.endpoint_eq)
    · exact Or.inr ⟨hrecord, hpath⟩

/-- A function that nothing shadows is hidden only by a function of a class that does not derive
from its own. -/
theorem Valid.not_considered_iff (h : d.Valid)
    (hoffered : d.program.offered t mode = before ++ c :: after)
    (hshadowed : ¬d.program.Shadowed t c) :
    c ∉ d.program.considered t mode ↔ ∃ a ∈ before, a.signature = c.signature ∧
      a.id.record ≠ c.id.record ∧
        ¬∃ path, Leads d.program (.record a.id.record) path (.record c.id.record) := by
  rw [h.mem_considered_iff hoffered]
  constructor
  · intro hhidden
    obtain ⟨a, ha, hsignature⟩ : ∃ a ∈ before, a.signature = c.signature := by
      simpa using hhidden
    refine ⟨a, ha, hsignature, ?_⟩
    have hmem : a ∈ d.program.offered t mode := by simp [hoffered, ha]
    apply (h.outranks_or_unrelated hoffered ha hsignature).resolve_left
    exact fun houtranks => hshadowed (houtranks.shadowed hmem)
  · rintro ⟨a, ha, hsignature, -⟩ hfree
    exact hfree a ha hsignature

end Offered

/-- Which conversion functions are considered, and when the order of base specifiers tells nothing.
Within the limits of the walks every conversion function of a complete class and its bases takes
part in an initialization, unless it is hidden as such or explicit in copy initialization. It is
considered unless a function of its signature is met before it. So it can be hidden without being
shadowed, just if one is met in a class that does not derive from its own. Where functions are
hidden only by rank, class bodies that name the same bases in two orders lead to the same
conversions from every type, if the same classes are complete after both and no check is denied for
the number of steps. -/
theorem conversions_hidden_in_order (h : d.Reachable) :
    (∀ t mode derived s owner r path i f, t.recordId? = some derived →
      d.program.record? derived = some s → s.complete = true →
      WithinLimits d.program (.record derived) →
      Leads d.program (.record derived) path (.record owner) →
      d.program.record? owner = some r → r.conversions[i]? = some f → f.hidden = false →
      (mode = .copy → f.explicit = false) →
      ∃ before c after, d.program.offered t mode = before ++ c :: after ∧
        c.id = ⟨owner, .conversion, i⟩ ∧ c.function = f) ∧
    (∀ t mode before c after, d.program.offered t mode = before ++ c :: after →
      (c ∈ d.program.considered t mode ↔ ∀ a ∈ before, a.signature ≠ c.signature) ∧
      (¬(c ∈ d.program.considered t mode ∨ d.program.Shadowed t c) ↔
        ¬d.program.Shadowed t c ∧
          ∃ a ∈ before, a.signature = c.signature ∧ a.id.record ≠ c.id.record ∧
            ¬∃ path, Leads d.program (.record a.id.record) path (.record c.id.record))) ∧
    ∀ id steps steps' actions, RecordStep.SameSpecifiers steps steps' →
      (∀ a ∈ steps.map (.write id) ++ actions, a.IsWritten) →
      let one := d.performAll (steps.map (.write id))
      let other := d.performAll (steps'.map (.write id))
      let p := (one.performAll actions).program
      let q := (other.performAll actions).program
      (∀ id, q.isCompleteRecord id = p.isCompleteRecord id) → WalksWithinLimits p →
        one.CompletesWithinLimits actions → other.CompletesWithinLimits actions →
        p.HidesByRank → q.HidesByRank →
        ∀ (s : Solver) (t u : Ty), s.program = p → p.ConvertsWithinLimits t u →
          Solver.isConvertible { s with program := q } t u = s.isConvertible t u ∧
          Solver.isNothrowConvertible { s with program := q } t u = s.isNothrowConvertible t u := by
  refine ⟨?_, ?_, ?_⟩
  · intro t mode derived s owner r path i f hderived hs hcomplete hlimits hpath hr hf hhidden
      hexplicit
    exact h.valid.exists_offered hderived hs hcomplete hlimits hpath hr hf hhidden hexplicit
  · intro t mode before c after hoffered
    refine ⟨h.valid.mem_considered_iff hoffered, ?_⟩
    rw [not_or, and_comm]
    exact and_congr_right (h.valid.not_considered_iff hoffered)
  · intro id steps steps' actions hsame hwritten one other p q hcomplete hwalks hone hother hhides
      hhides' s t u hs hlimits
    have halike : p.ConvertsAlike q :=
      h.convertsAlike_of_sameSpecifiers hsame hwritten hcomplete hwalks hone hother hhides hhides'
    exact halike.isConvertible_eq hs hlimits

/-- Two unrelated classes that convert to `int`, the first one without throwing, as bases of a
third. -/
def rivals : Development :=
  run .lp64
    [.start "First" .struct,
      .write ⟨1⟩ (.conversion (.declare [] (.builtin .int) [.noexcept])),
      .finish ⟨1⟩,
      .start "Second" .struct,
      .write ⟨2⟩ (.conversion (.declare [] (.builtin .int) [])),
      .finish ⟨2⟩,
      .start "Both" .struct,
      .write ⟨3⟩ (.base (.record ⟨1⟩)),
      .write ⟨3⟩ (.base (.record ⟨2⟩)),
      .finish ⟨3⟩]

theorem reachable_rivals : rivals.Reachable := by
  refine (Reachable.fresh .lp64).performAll ?_
  intro a ha
  simp only [List.mem_cons, List.not_mem_nil, or_false] at ha
  rcases ha with rfl | rfl | rfl | rfl | rfl | rfl | rfl | rfl | rfl | rfl
  all_goals first
    | trivial
    | exact RecordStep.isWritten_of_types rfl (by decide)
    | exact RecordStep.isWritten_of_declare rfl (by decide)

/-- Both rivals are offered, and their functions have one signature. -/
theorem offered_rivals : ∃ a c, rivals.program.offered (.record ⟨3⟩) .copy = [a, c] ∧
    a.id = ⟨⟨1⟩, .conversion, 0⟩ ∧ c.id = ⟨⟨2⟩, .conversion, 0⟩ ∧ a.signature = c.signature := by
  have hplaces : (rivals.program.offered (.record ⟨3⟩) .copy).map (fun c => (c.id, c.signature)) =
      [(⟨⟨1⟩, .conversion, 0⟩, .builtin .int, ∅, .none),
        (⟨⟨2⟩, .conversion, 0⟩, .builtin .int, ∅, .none)] := by
    decide +kernel
  obtain ⟨a, c, hoffered⟩ := List.length_eq_two.mp (by simpa using congrArg List.length hplaces)
  rw [hoffered] at hplaces
  simp only [List.map_cons, List.map_nil, List.cons.injEq, Prod.mk.injEq, and_true] at hplaces
  obtain ⟨⟨ha, hasignature⟩, hc, hcsignature⟩ := hplaces
  exact ⟨a, c, hoffered, ha, hc, hasignature.trans hcsignature.symm⟩

/-- Nothing shadows the second rival. -/
theorem not_shadowed_rivals {c : Candidate} (hc : c.id = ⟨⟨2⟩, .conversion, 0⟩) :
    ¬rivals.program.Shadowed (.record ⟨3⟩) c := by
  have howners : ∀ owner ∈ rivals.program.conversionOwners (.record ⟨3⟩),
      owner.2.conversions = [] ∨ edges rivals.program (.record owner.2.id) = [] := by
    decide +kernel
  rintro ⟨owner, howner, i, f, hf, -, ⟨path, hne, hpath⟩ | ⟨-, hlt⟩⟩
  · rcases howners owner howner with hnone | hroot
    · simp [hnone] at hf
    · exact hne (hpath.eq_nil hroot)
  · simp [hc] at hlt

/-- A class that converts to `int` in a way of its own, and two classes to be its bases, which
convert to `int` and to `long`. -/
def overrider : Development :=
  run .lp64
    [.start "First" .struct,
      .write ⟨1⟩ (.conversion (.declare [] (.builtin .int) [])),
      .finish ⟨1⟩,
      .start "Second" .struct,
      .write ⟨2⟩ (.conversion (.declare [] (.builtin .long) [])),
      .finish ⟨2⟩,
      .start "Both" .struct,
      .write ⟨3⟩ (.conversion (.declare [] (.builtin .int) [.noexcept]))]

theorem reachable_overrider : overrider.Reachable := by
  refine (Reachable.fresh .lp64).performAll ?_
  intro a ha
  simp only [List.mem_cons, List.not_mem_nil, or_false] at ha
  rcases ha with rfl | rfl | rfl | rfl | rfl | rfl | rfl | rfl
  all_goals first
    | trivial
    | exact RecordStep.isWritten_of_declare rfl (by decide)

/-- The body of the overrider names its bases in two orders. -/
theorem sameSpecifiers_overrider : RecordStep.SameSpecifiers
    [.base (.record ⟨1⟩), .base (.record ⟨2⟩)] [.base (.record ⟨2⟩), .base (.record ⟨1⟩)] :=
  ⟨.swap _ _ _, rfl⟩

/-- The overrider with its bases in the order of their declaration. -/
def inOrder : Development :=
  (overrider.performAll ([.base (.record ⟨1⟩), .base (.record ⟨2⟩)].map (.write ⟨3⟩))).performAll
    [.finish ⟨3⟩]

/-- The overrider with its bases in the opposite order. -/
def outOfOrder : Development :=
  (overrider.performAll ([.base (.record ⟨2⟩), .base (.record ⟨1⟩)].map (.write ⟨3⟩))).performAll
    [.finish ⟨3⟩]

theorem written_inOrder : ∀ a ∈ [RecordStep.base (.record ⟨1⟩), .base (.record ⟨2⟩)].map
    (Action.write ⟨3⟩) ++ [.finish ⟨3⟩], a.IsWritten := by
  intro a ha
  simp only [List.map_cons, List.map_nil, List.cons_append, List.nil_append, List.mem_cons,
    List.not_mem_nil, or_false] at ha
  rcases ha with rfl | rfl | rfl
  all_goals first | trivial | exact RecordStep.isWritten_of_types rfl (by decide)

theorem reachable_inOrder : inOrder.Reachable := by
  obtain ⟨hsteps, hactions⟩ := List.forall_mem_append.mp written_inOrder
  exact (reachable_overrider.performAll hsteps).performAll hactions

theorem walksWithinLimits_inOrder : WalksWithinLimits inOrder.program :=
  reachable_inOrder.valid.walksWithinLimits_of_records (by decide +kernel)

theorem hidesByRank_inOrder : inOrder.program.HidesByRank :=
  Program.hidesByRank_of_records (by decide +kernel)

theorem hidesByRank_outOfOrder : outOfOrder.program.HidesByRank :=
  Program.hidesByRank_of_records (by decide +kernel)

theorem isCompleteRecord_outOfOrder (id : RecordId) :
    outOfOrder.program.isCompleteRecord id = inOrder.program.isCompleteRecord id :=
  Program.isCompleteRecord_eq_of_records (by decide +kernel) (by decide +kernel) id

/-- Of two rivals the first one hides the second, though no path leads from its class to the other
one's. An overrider hides the function of a base, and its bases may stand in either order. -/
theorem conversions_hidden_in_order_rivals :
    (rivals.Reachable ∧ ∃ a c, rivals.program.offered (.record ⟨3⟩) .copy = [a, c] ∧
      a.signature = c.signature ∧
      ¬(c ∈ rivals.program.considered (.record ⟨3⟩) .copy ∨
        rivals.program.Shadowed (.record ⟨3⟩) c)) ∧
    overrider.Reachable ∧ WalksWithinLimits inOrder.program ∧ inOrder.program.HidesByRank ∧
      outOfOrder.program.HidesByRank ∧
      inOrder.program.ConvertsWithinLimits (.record ⟨3⟩) (.builtin .int) ∧
      Solver.isNothrowConvertible { program := inOrder.program } (.record ⟨3⟩) (.builtin .int) =
        true ∧
      Solver.isNothrowConvertible { program := outOfOrder.program } (.record ⟨3⟩)
        (.builtin .int) = true := by
  constructor
  · obtain ⟨a, c, hoffered, ha, hc, hsignature⟩ := offered_rivals
    refine ⟨reachable_rivals, a, c, hoffered, hsignature, ?_⟩
    apply ((conversions_hidden_in_order reachable_rivals).2.1 _ _ [a] c [] hoffered).2.mpr
    refine ⟨not_shadowed_rivals hc, a, List.mem_singleton_self a, hsignature, by simp [ha, hc], ?_⟩
    rw [ha, hc]
    rintro ⟨path, hpath⟩
    obtain rfl := hpath.eq_nil (by decide +kernel)
    cases hpath.endpoint_eq
  · have hlimits : inOrder.program.ConvertsWithinLimits (.record ⟨3⟩) (.builtin .int) := by
      decide +kernel
    have hconverts : Solver.isNothrowConvertible { program := inOrder.program } (.record ⟨3⟩)
        (.builtin .int) = true := by
      decide +kernel
    have hs : Solver.program { program := inOrder.program } = inOrder.program := by
      dsimp only
    refine ⟨reachable_overrider, walksWithinLimits_inOrder, hidesByRank_inOrder,
      hidesByRank_outOfOrder, hlimits, hconverts, ?_⟩
    have hsame := (conversions_hidden_in_order reachable_overrider).2.2 ⟨3⟩ _ _ [.finish ⟨3⟩]
      sameSpecifiers_overrider written_inOrder isCompleteRecord_outOfOrder walksWithinLimits_inOrder
      (by decide +kernel) (by decide +kernel) hidesByRank_inOrder hidesByRank_outOfOrder
      { program := inOrder.program } (.record ⟨3⟩) (.builtin .int) hs hlimits
    exact hsame.2.trans hconverts

end Development
end TypeTraits
