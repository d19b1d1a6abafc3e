import TypeTraits.Proofs.Pool.Reading
import TypeTraits.Proofs.Trait.Memory
import TypeTraits.Session

/-!
# A session that remembers

Queries are put to a session with handles for their types, while further types are formed and
nothing is declared. As long as nothing arrives that was mentioned before it was known, each query
gets the answer that it would get without a memory, in whatever order the queries come.
-/

namespace TypeTraits

/-- A query as it is put to a session, with handles for its types. -/
structure Inquiry where
  kind : TraitKind
  type : TypeHandle
  args : List TypeHandle := []
  deriving DecidableEq, Repr, Inhabited

namespace Inquiry

/-- The handles of an inquiry. -/
def handles (i : Inquiry) : List TypeHandle := i.type :: i.args

/-- The query that an inquiry comes to, by what its handles read as. -/
def query (i : Inquiry) (table : TypeTable) : Query :=
  { kind := i.kind, type := table.read i.type, args := i.args.map table.read }

/-- The inquiries answered so far, after the result of one more. -/
def record (i : Inquiry) (known : List Inquiry) : Except TraitError Answer → List Inquiry
  | .ok _ => i :: known
  | .error _ => known

theorem query_congr {i : Inquiry} {table table' : TypeTable}
    (h : ∀ handle ∈ i.handles, table.read handle = table'.read handle) :
    i.query table = i.query table' := by
  rw [query, query, h i.type (List.mem_cons_self ..),
    List.map_congr_left fun handle hhandle => h handle (List.mem_cons_of_mem _ hhandle)]

/-- Different inquiries come to different queries. -/
theorem query_injective {sharding : Sharding TypeNode} {table : TypeTable}
    (h : table.Distinct sharding) : Function.Injective (query · table) := by
  rintro ⟨kind, type, args⟩ ⟨kind', type', args'⟩ heq
  simp only [query, Query.mk.injEq] at heq
  obtain ⟨rfl, htype, hargs⟩ := heq
  have hread : ∀ handle handle', table.read handle = table.read handle' → handle = handle' :=
    fun _ _ => h.readWithin_injective
  rw [hread _ _ htype, TypeTable.map_injective_of_forall hread hargs]

end Inquiry

namespace Session

/-- One thing that is done to a session while nothing is declared. -/
inductive Use where
  /-- Forms a type. What the evaluation of a query forms on its way is formed by uses of its own. -/
  | form (t : Ty)
  | ask (i : Inquiry)
  | askTraced (i : Inquiry)
  | clear
  deriving DecidableEq

/-- What a use gives back: the result of a query, and the events that are reported. -/
structure Reply where
  result? : Option (Except TraitError Answer) := none
  events : List QueryEvent := []

/-- The inquiry that a use makes. -/
def Use.inquiry? : Use → Option Inquiry
  | .ask i | .askTraced i => some i
  | .form _ | .clear => none

/-- The handles that a use asks about. -/
def Use.handles (u : Use) : List TypeHandle := u.inquiry?.elim [] Inquiry.handles

/-- The session when the function types that a type names wait for their signatures. -/
def await (s : Session) (t : Ty) : Session :=
  { s with pending := t.numbers.filter (s.table.signatureCount ≤ ·) ++ s.pending }

/-- Serves a use. -/
def serve (s : Session) : Use → Reply × Session
  | .form t => ({}, (s.await t).form t)
  | .ask i =>
    let (result, next) := s.ask (i.query s.table)
    ({ result? := some result }, next)
  | .askTraced i =>
    let ((result, events), next) := s.askTraced (i.query s.table)
    ({ result? := some result, events }, next)
  | .clear => ({}, { s with memo := ∅ })

/-- What a use comes to. -/
def respond (s : Session) (u : Use) : Reply × Session := s.perform (·.serve u)

/-- The sessions that uses lead to, whatever is declared in between and whichever solver is chosen
anew. -/
inductive Reached : Session → Prop
  | start (program : Program) (capabilities : Capabilities) (provider : Provider) :
      Reached { program, capabilities, provider }
  | respond {s : Session} (u : Use) : Reached s → Reached (s.respond u).2
  | declare {s : Session} (program : Program) (names : Std.HashMap String Ty)
      (drafts : Std.HashMap String Draft) : Reached s → Reached { s with program, names, drafts }
  | renew {s : Session} (capabilities : Capabilities) (provider : Provider) :
      Reached s → Reached { s with capabilities, provider, memo := ∅ }

/-- The inquiries answered since the memory was last cleared, after one more use. -/
def Use.record (known : List Inquiry) (reply : Reply) : Use → List Inquiry
  | .ask i | .askTraced i => reply.result?.elim known (i.record known)
  | .form _ => known
  | .clear => []

/-- A session in use, with the inquiries answered since its memory was last cleared. -/
structure Course where
  session : Session
  answered : List Inquiry := []

/-- A course after one more use. -/
def Course.next (c : Course) (u : Use) : Course :=
  { session := (c.session.respond u).2, answered := u.record c.answered (c.session.respond u).1 }

/-- The course that uses take, one after the other. -/
def after (s : Session) (uses : List Use) : Course := uses.foldl Course.next { session := s }

theorem after_snoc (s : Session) (uses : List Use) (u : Use) :
    s.after (uses ++ [u]) = (s.after uses).next u := List.foldl_append

/-- Whether no signature arrives that a function type has been waiting for. -/
def NamesNothingLater (s : Session) (uses : List Use) : Prop :=
  ∀ first u, first ++ [u] <+: uses → ∀ number ∈ ((s.after first).session.serve u).2.pending,
    ((s.after first).session.serve u).2.table.signatureCount ≤ number

/-- Whether each type, when it is first asked about, can be read to its end, but for handles that stay
unknown. -/
def AsksAboutKnown (s : Session) (uses : List Use) : Prop :=
  ∀ first u, first ++ [u] <+: uses → ∀ handle ∈ u.handles, (∀ v ∈ first, handle ∉ v.handles) →
    (s.after uses).session.table.KeepsUnknown ((s.after first).session.table.read handle)

/-- Whether a session remembers the solver's answers to what has been answered, by what it reads as
in a table. -/
def Course.Recalls (c : Course) (table : TypeTable) : Prop :=
  c.session.memo.Recalls c.session.solver (c.answered.map (·.query table))

/-- What holds of a session between uses. -/
structure IsOrderly (s : Session) : Prop where
  distinct : s.table.Distinct .byHash
  numbers : s.table.NumbersWithin s.pending

/-- What a session keeps while nothing that it waits for arrives. -/
structure Follows (later earlier : Session) : Prop where
  table : later.table.Extends earlier.table
  pending : earlier.pending ⊆ later.pending

section Step

variable {s : Session}

theorem Follows.refl (s : Session) : s.Follows s := ⟨.refl _, List.Subset.refl _⟩

theorem Follows.trans {last later earlier : Session} (h : last.Follows later)
    (h' : later.Follows earlier) : last.Follows earlier :=
  ⟨h.table.trans h'.table, List.Subset.trans h'.pending h.pending⟩

theorem serve_follows (s : Session) (u : Use) : (s.serve u).2.Follows s := by
  cases u with
  | form t => exact ⟨TypeTable.add_extends t s.table, List.subset_append_right _ _⟩
  | _ => exact ⟨.refl _, List.Subset.refl _⟩

theorem IsOrderly.serve (h : s.IsOrderly) (u : Use) : (s.serve u).2.IsOrderly := by
  cases u with
  | form t =>
    refine ⟨h.distinct.add t, TypeTable.NumbersWithin.add t ?_ fun number hnumber => ?_⟩
    · exact h.numbers.mono fun number hnumber => .inr (List.mem_append_right _ hnumber)
    · rcases Nat.lt_or_ge number s.table.signatureCount with hlt | hge
      · exact .inl hlt
      · refine .inr (List.mem_append_left _ (List.mem_filter.2 ⟨Ty.mem_numbers.2 hnumber, ?_⟩))
        simpa using hge
  | _ => exact ⟨h.distinct, h.numbers⟩

/-- A session in which the signatures of a table have become known is as orderly as the one that
the table is from. -/
theorem IsOrderly.settle {later : Session} (h : later.IsOrderly) (s : Session)
    (hpending : s.pending = later.pending) : (s.settle later.table).IsOrderly where
  distinct := h.distinct
  numbers := by
    refine h.numbers.mono fun number hnumber => ?_
    rcases Nat.lt_or_ge number later.table.signatureCount with hlt | hge
    · exact .inl hlt
    · refine .inr (List.mem_filter.2 ⟨hpending ▸ hnumber, ?_⟩)
      simpa using hge

/-- Nothing is done anew where nothing arrives that has been waited for. -/
theorem perform_eq {α : Type} {operation : Session → α × Session}
    (h : ∀ number ∈ (operation s).2.pending, (operation s).2.table.signatureCount ≤ number) :
    s.perform operation = operation s := by
  unfold perform
  exact if_neg (by simpa using h)

/-- What has been waited for is known when the operation is done anew. -/
theorem perform_anew {α : Type} {operation : Session → α × Session} {number : Nat}
    (hnumber : number ∈ (operation s).2.pending)
    (hlt : number < (operation s).2.table.signatureCount) :
    s.perform operation = operation
      ({ s with pending := (operation s).2.pending }.settle (operation s).2.table) := by
  unfold perform
  exact if_pos (List.any_eq_true.2 ⟨number, hnumber, by simpa using hlt⟩)

theorem perform_cases {α : Type} (s : Session) (operation : Session → α × Session) :
    s.perform operation = operation s ∨
      s.perform operation = operation
        ({ s with pending := (operation s).2.pending }.settle (operation s).2.table) := by
  by_cases hknown : ∀ number ∈ (operation s).2.pending,
      (operation s).2.table.signatureCount ≤ number
  · exact .inl (perform_eq hknown)
  · push Not at hknown
    obtain ⟨number, hnumber, hlt⟩ := hknown
    exact .inr (perform_anew hnumber hlt)

theorem IsOrderly.respond (h : s.IsOrderly) (u : Use) : (s.respond u).2.IsOrderly := by
  obtain heq | heq := s.perform_cases (·.serve u)
  · rw [Session.respond, heq]
    exact h.serve u
  · rw [Session.respond, heq]
    exact ((h.serve u).settle { s with pending := (s.serve u).2.pending } rfl).serve u

theorem Reached.isOrderly (h : s.Reached) : s.IsOrderly := by
  induction h with
  | start => exact ⟨TypeTable.fresh_valid.toDistinct, TypeTable.numbersWithin_fresh⟩
  | respond u _ ih => exact ih.respond u
  | declare program names drafts _ ih => exact ⟨ih.distinct, ih.numbers⟩
  | renew capabilities provider _ ih => exact ⟨ih.distinct, ih.numbers⟩

end Step

section Memory

variable {c : Course} {table : TypeTable} {u : Use} {i : Inquiry}

/-- An inquiry is answered the same, traced or not. -/
theorem serve_of_inquiry (s : Session) (hi : u.inquiry? = some i) :
    (s.serve u).1.result? = some (s.ask (i.query s.table)).1 ∧
      (s.serve u).2 = (s.ask (i.query s.table)).2 := by
  cases u <;> cases hi <;> exact ⟨rfl, rfl⟩

theorem Use.record_of_inquiry {known : List Inquiry} {reply : Reply}
    {result : Except TraitError Answer} (u : Use) (hi : u.inquiry? = some i)
    (hresult : reply.result? = some result) : u.record known reply = i.record known result := by
  cases u <;> cases hi <;> simp only [record, hresult, Option.elim_some]

/-- What is answered is remembered from then on, and what is rejected is not. -/
theorem Course.Recalls.ask (h : c.Recalls table)
    (hquery : i.query c.session.table = i.query table) :
    Course.Recalls
      { session := (c.session.ask (i.query c.session.table)).2
        answered := i.record c.answered (c.session.ask (i.query c.session.table)).1 } table := by
  rw [hquery]
  cases hanswer : Memo.answerOf c.session.solver (i.query table) with
  | ok answer =>
    obtain ⟨hresult, hrecalls⟩ := Memo.Recalls.ask_ok h hanswer
    simp only [Session.ask, hresult]
    exact hrecalls
  | error e =>
    simp only [Session.ask, Memo.Recalls.ask_error h hanswer]
    exact h

/-- A use keeps the memory one of what has been answered. -/
theorem Course.Recalls.next (h : c.Recalls table) (hserve : c.session.respond u = c.session.serve u)
    (hquery : ∀ i, u.inquiry? = some i → i.query c.session.table = i.query table) :
    (c.next u).Recalls table := by
  rw [Course.next, hserve]
  cases hi : u.inquiry? with
  | some i =>
    obtain ⟨hresult, hlater⟩ := serve_of_inquiry c.session hi
    rw [u.record_of_inquiry hi hresult, hlater]
    exact h.ask (hquery i hi)
  | none =>
    cases u with
    | form t => exact h
    | clear => exact Memo.recalls_empty c.session.solver
    | _ => cases hi

/-- A memory holds one answer to each inquiry that has been answered. -/
theorem Course.Recalls.size_eq (h : c.Recalls table) (hdistinct : table.Distinct .byHash) :
    c.session.memo.size = c.answered.dedup.length := by
  rw [Memo.Recalls.size h, List.dedup_map_of_injective (Inquiry.query_injective hdistinct),
    List.length_map]

theorem Course.Recalls.contains_eq (h : c.Recalls table) (hdistinct : table.Distinct .byHash)
    (i : Inquiry) : c.session.memo.contains (i.query table) = decide (i ∈ c.answered) := by
  rw [Bool.eq_iff_iff, Memo.Recalls.contains_iff h,
    List.mem_map_of_injective (Inquiry.query_injective hdistinct), decide_eq_true_iff]

/-- What a traced inquiry reports. -/
theorem Course.Recalls.events_eq (h : c.Recalls table) (hdistinct : table.Distinct .byHash)
    (hquery : i.query c.session.table = i.query table) :
    (c.session.serve (.askTraced i)).1.events =
      [.start i.kind, match Memo.answerOf c.session.solver (i.query c.session.table) with
        | .ok answer => .finished i.kind answer (i ∈ c.answered)
        | .error e => .rejected i.kind e] := by
  simp only [serve, Session.askTraced, Memo.askTraced_eq, Memo.Recalls.ask_eq h, hquery,
    h.contains_eq hdistinct]
  rfl

end Memory

section Run

variable {s : Session} {uses first rest : List Use} {u v : Use}

theorem snoc_prefix_cons_iff :
    first ++ [u] <+: v :: rest ↔
      first = [] ∧ u = v ∨ ∃ tail, first = v :: tail ∧ tail ++ [u] <+: rest := by
  cases first with
  | nil => simp [List.cons_prefix_cons]
  | cons w first => simp [List.cons_prefix_cons, eq_comm, and_assoc]

theorem IsOrderly.after (h : s.IsOrderly) (uses : List Use) : (s.after uses).session.IsOrderly := by
  induction uses using List.reverseRecOn with
  | nil => exact h
  | append_singleton uses u ih =>
    rw [after_snoc]
    exact ih.respond u

theorem NamesNothingLater.mono (h : s.NamesNothingLater uses) (hfirst : first <+: uses) :
    s.NamesNothingLater first := fun _ _ hstart => h _ _ (hstart.trans hfirst)

theorem NamesNothingLater.respond_eq (h : s.NamesNothingLater uses) (hfirst : first ++ [u] <+: uses) :
    (s.after first).session.respond u = (s.after first).session.serve u :=
  perform_eq (h first u hfirst)

theorem NamesNothingLater.follows (h : s.NamesNothingLater uses) (hfirst : first <+: uses) :
    (s.after uses).session.Follows (s.after first).session := by
  obtain ⟨rest, rfl⟩ := hfirst
  induction rest using List.reverseRecOn with
  | nil =>
    rw [List.append_nil]
    exact .refl _
  | append_singleton rest u ih =>
    rw [← List.append_assoc] at h ⊢
    have hstep := h.respond_eq List.prefix_rfl
    rw [after_snoc, Course.next, hstep]
    exact (serve_follows _ u).trans (ih (h.mono (List.prefix_append _ _)))

/-- What a session waits for after some uses, it still waits for. -/
theorem NamesNothingLater.le_of_mem_pending (h : s.NamesNothingLater uses) (hne : uses ≠ [])
    {number : Nat} (hnumber : number ∈ (s.after uses).session.pending) :
    (s.after uses).session.table.signatureCount ≤ number := by
  obtain ⟨first, u, rfl⟩ := (List.eq_nil_or_concat' uses).resolve_left hne
  have hlast := h.respond_eq List.prefix_rfl
  rw [after_snoc, Course.next, hlast] at hnumber ⊢
  exact h first u List.prefix_rfl number hnumber

/-- Nothing is waited for as long as no function type is named by a number. -/
theorem pending_serve (hpending : s.pending = []) (hu : ∀ t, u = .form t → t.numbers = []) :
    (s.serve u).2.pending = [] := by
  cases u with
  | form t => simp [serve, await, form, hu t rfl, hpending]
  | _ => exact hpending

theorem namesNothingLater_of_numbers_eq_nil (hpending : s.pending = [])
    (hforms : ∀ t, .form t ∈ uses → t.numbers = []) : s.NamesNothingLater uses := by
  have hserve : ∀ first u, first ++ [u] <+: uses → (s.after first).session.pending = [] →
      ((s.after first).session.serve u).2.pending = [] := by
    intro first u hfirst hbefore
    have hmem : u ∈ uses := hfirst.subset (List.mem_append_right _ (List.mem_singleton_self u))
    exact pending_serve hbefore fun t ht => hforms t (ht ▸ hmem)
  have hafter : ∀ first, first <+: uses → (s.after first).session.pending = [] := by
    intro first hfirst
    induction first using List.reverseRecOn with
    | nil => exact hpending
    | append_singleton first u ih =>
      have hu := hserve first u hfirst (ih ((List.prefix_append _ _).trans hfirst))
      rw [after_snoc, Course.next, respond, perform_eq (by simp [hu])]
      exact hu
  intro first u hfirst number hnumber
  rw [hserve first u hfirst (hafter first ((List.prefix_append _ _).trans hfirst))] at hnumber
  cases hnumber

/-- A type in normal form that has been formed reads back. -/
theorem read_respond_form (hvalid : s.table.Valid .byHash) (hpending : s.pending = []) {t : Ty}
    (hnormal : t.isNormal = true) (hnumbers : t.numbers = [])
    (hroom : (s.table.add .byHash t).2.HasRoom) :
    (s.respond (.form t)).2.table.read (s.table.add .byHash t).1 = t := by
  have hserve : (s.serve (.form t)).2.pending = [] := pending_serve hpending (by simpa using hnumbers)
  rw [respond, perform_eq (by simp [hserve])]
  exact hvalid.read_add hnormal hroom

/-- No number that a function node has is one whose signature arrives with the uses. -/
theorem NamesNothingLater.numbersLast (h : s.NamesNothingLater uses) (hs : s.IsOrderly)
    (hfirst : first <+: uses) :
    (s.after uses).session.table.NumbersLast (s.after first).session.table := by
  intro handle number hn
  cases uses with
  | nil =>
    rw [List.prefix_nil.1 hfirst]
    exact Nat.lt_or_ge _ _
  | cons v rest =>
    have hwithin := (hs.after first).numbers handle number hn
    refine hwithin.imp_right fun hpending => ?_
    exact h.le_of_mem_pending (List.cons_ne_nil v rest) ((h.follows hfirst).pending hpending)

/-- What is asked about is asked about for the first time at some point. -/
theorem exists_first_asked {handle : TypeHandle} (hhandle : handle ∈ u.handles) (first : List Use) :
    ∃ earlier v, earlier <+: first ∧ earlier ++ [v] <+: first ++ [u] ∧ handle ∈ v.handles ∧
      ∀ w ∈ earlier, handle ∉ w.handles := by
  have hasked : ((first ++ [u]).find? (handle ∈ ·.handles)).isSome := by simp [hhandle]
  obtain ⟨v, hv⟩ := Option.isSome_iff_exists.1 hasked
  obtain ⟨hv, earlier, rest, heq, hbefore⟩ := List.find?_eq_some_iff_append.1 hv
  have hstart : earlier ++ [v] <+: first ++ [u] := ⟨rest, by simp [heq]⟩
  have hlength : earlier.length ≤ first.length := by simpa using hstart.length_le
  have hearlier : earlier <+: first :=
    List.prefix_of_prefix_length_le ((List.prefix_append _ _).trans hstart)
      (List.prefix_append _ _) hlength
  exact ⟨earlier, v, hearlier, hstart, by simpa using hv, by simpa using hbefore⟩

/-- What a query is about reads, whenever the query comes, as it does in the end. -/
theorem AsksAboutKnown.read_eq (hknown : s.AsksAboutKnown uses) (hlater : s.NamesNothingLater uses)
    (hs : s.IsOrderly) (hfirst : first ++ [u] <+: uses) {handle : TypeHandle}
    (hhandle : handle ∈ u.handles) :
    (s.after first).session.table.read handle = (s.after uses).session.table.read handle := by
  -- What was read when the handle was first asked about is read now and in the end.
  obtain ⟨earlier, v, hearlier, hstart, hv, hbefore⟩ := exists_first_asked hhandle first
  have hfirst' : first <+: uses := (List.prefix_append _ _).trans hfirst
  have hkeeps := hknown earlier v (hstart.trans hfirst) handle hv hbefore
  have hlast := (hlater.follows (hearlier.trans hfirst')).table.read_eq
    (hlater.numbersLast hs (hearlier.trans hfirst')) hkeeps
  have hthen := ((hlater.mono hfirst').follows hearlier).table.read_eq
    ((hlater.mono hfirst').numbersLast hs hearlier)
    (hkeeps.of_extends (hlater.follows hfirst').table)
  exact hthen.trans hlast.symm

theorem AsksAboutKnown.query_eq (hknown : s.AsksAboutKnown uses) (hlater : s.NamesNothingLater uses)
    (hs : s.IsOrderly) (hfirst : first ++ [u] <+: uses) {i : Inquiry} (hi : u.inquiry? = some i) :
    i.query (s.after first).session.table = i.query (s.after uses).session.table :=
  Inquiry.query_congr fun _ hhandle =>
    hknown.read_eq hlater hs hfirst (by rwa [Use.handles, hi])

/-- The uses leave a session that remembers the solver's answers to what has been answered. -/
theorem recalls_after (hs : s.IsOrderly) (hclear : s.memo = ∅) (hlater : s.NamesNothingLater uses)
    (hknown : s.AsksAboutKnown uses) (hfirst : first <+: uses) :
    (s.after first).Recalls (s.after uses).session.table := by
  -- The induction is on the uses so far; what they asked is read in the table of the end throughout.
  induction first using List.reverseRecOn with
  | nil =>
    rw [after, List.foldl_nil, Course.Recalls, hclear]
    exact Memo.recalls_empty s.solver
  | append_singleton first u ih =>
    have hbefore := ih ((List.prefix_append _ _).trans hfirst)
    rw [after_snoc]
    exact hbefore.next (hlater.respond_eq hfirst) fun i hi =>
      hknown.query_eq hlater hs hfirst hi

/-- As long as nothing is named before it is known, a memory makes no difference but for what is
reported. At every point it holds one answer to each inquiry that has been answered since it was
last cleared; an inquiry gets the solver's own answer, and leaves the memory as it was if that is
a rejection; and a traced one reports its start and its end. -/
theorem memory_transparent (hs : s.Reached) (hclear : s.memo = ∅)
    (hlater : s.NamesNothingLater uses) (hknown : s.AsksAboutKnown uses) :
    (∀ first, first <+: uses →
      (s.after first).session.memo.size = (s.after first).answered.dedup.length) ∧
    ∀ first u i, first ++ [u] <+: uses → u.inquiry? = some i →
      let before := s.after first
      let read := before.session.table.read
      let anew := before.session.solver.query i.kind (read i.type) (i.args.map read)
      let outcome := before.session.respond u
      outcome.1.result? = some anew ∧
      ((∃ e, anew = .error e) → outcome.2.memo = before.session.memo) ∧
      outcome.1.events =
        if u = .askTraced i then
          [.start i.kind, match anew with
            | .ok answer => .finished i.kind answer (i ∈ before.answered)
            | .error e => .rejected i.kind e]
        else [] := by
  have hdistinct := (hs.isOrderly.after uses).distinct
  have hrecalls : ∀ first, first <+: uses → (s.after first).Recalls (s.after uses).session.table :=
    fun _ => recalls_after hs.isOrderly hclear hlater hknown
  refine ⟨fun first hfirst => (hrecalls first hfirst).size_eq hdistinct,
    fun first u i hfirst hi => ?_⟩
  have hbefore := hrecalls first ((List.prefix_append _ _).trans hfirst)
  have hquery := hknown.query_eq hlater hs.isOrderly hfirst hi
  intro before read anew outcome
  obtain ⟨hresult, hlater'⟩ := serve_of_inquiry before.session hi
  have houtcome : outcome = before.session.serve u := hlater.respond_eq hfirst
  rw [houtcome]
  refine ⟨?_, fun ⟨e, he⟩ => ?_, ?_⟩
  · rw [hresult, Session.ask, Memo.Recalls.ask_eq hbefore]
    rfl
  · rw [hlater', Session.ask, Memo.Recalls.ask_error hbefore he]
  · cases u with
    | ask => rfl
    | askTraced j =>
      obtain rfl := Option.some.inj hi
      rw [if_pos rfl]
      exact hbefore.events_eq hdistinct hquery
    | _ => cases hi

/-- A query about a pointer that comes again, traced, after a reference has been formed. -/
theorem memory_transparent_pointer :
    ∃ (s : Session) (i : Inquiry) (first : List Use), i.kind = .isPointer ∧
      first = [.form (.pointer .void), .ask i, .form (.lvalueRef (.pointer .void))] ∧
      (s.after first).session.memo.size = 1 ∧
      ((s.after first).session.respond (.askTraced i)).1.events =
        [.start .isPointer, .finished .isPointer (.bool true) true] := by
  let s : Session := { program := { target := .lp64 } }
  have hreached : s.Reached := .start ..
  let t : Ty := .pointer .void
  obtain ⟨pointer, hread⟩ : ∃ pointer, (s.after [.form t]).session.table.read pointer = t := by
    have hroom : (s.table.add .byHash t).2.HasRoom := by
      have hvoid : (TypeTable.fresh.add .byHash .void).2.size ≤ TypeTable.fresh.size + 1 :=
        TypeTable.size_intern_le _ _
      rw [TypeTable.size_fresh] at hvoid
      refine TypeTable.hasRoom_of_size_le ((TypeTable.size_intern_le _ _).trans ?_)
      exact (Nat.add_le_add_right hvoid 1).trans (by decide)
    exact ⟨_, read_respond_form TypeTable.fresh_valid rfl (by decide) rfl hroom⟩
  let i : Inquiry := { kind := .isPointer, type := pointer }
  let first : List Use := [.form t, .ask i, .form (.lvalueRef t)]
  let uses : List Use := first ++ [.askTraced i]
  have hlast : first ++ [Use.askTraced i] <+: uses := List.prefix_rfl
  have hfirst : [Use.form t] ++ [Use.ask i] <+: uses :=
    ⟨[Use.form (.lvalueRef t), Use.askTraced i], rfl⟩
  have hlater : s.NamesNothingLater uses := by
    refine namesNothingLater_of_numbers_eq_nil rfl fun u hu => ?_
    have hforms : u = t ∨ u = .lvalueRef t := by simpa [uses, first] using hu
    obtain rfl | rfl := hforms <;> rfl
  have hknown : s.AsksAboutKnown uses := by
    intro first' u hstart handle hhandle hnone
    simp only [uses, first, List.cons_append, List.nil_append, snoc_prefix_cons_iff] at hstart
    obtain ⟨-, rfl⟩ | ⟨_, rfl, ⟨rfl, rfl⟩ | ⟨_, rfl, ⟨-, rfl⟩ | ⟨_, rfl, ⟨rfl, rfl⟩ | hnil⟩⟩⟩ :=
      hstart
    · cases hhandle
    · rw [List.mem_singleton.1 hhandle, hread]
      intro n hn
      simp [t, Ty.leaves] at hn
    · cases hhandle
    · exact absurd hhandle (hnone (.ask i) (by simp))
    · simp at hnil
  obtain ⟨hsize, hserved⟩ := memory_transparent hreached rfl hlater hknown
  have hanswered : (s.after first).answered = [i] := by
    have hasked := (hserved _ _ i hfirst rfl).1
    show (Use.ask i).record [] ((s.after [.form t]).session.respond (.ask i)).1 = [i]
    rw [Use.record, hasked, show i.type = pointer from rfl, hread]
    rfl
  have hread' : (s.after first).session.table.read pointer = t := by
    have hmem : pointer ∈ i.handles := List.mem_cons_self ..
    exact (hknown.read_eq hlater hreached.isOrderly hlast hmem).trans
      ((hknown.read_eq hlater hreached.isOrderly hfirst hmem).symm.trans hread)
  refine ⟨s, i, first, rfl, rfl, ?_, ?_⟩
  · rw [hsize first (List.prefix_append _ _), hanswered]
    rfl
  · have hagain := (hserved _ _ i hlast rfl).2.2
    rw [hanswered, show i.type = pointer from rfl, hread', if_pos rfl,
      decide_eq_true (List.mem_singleton_self i)] at hagain
    exact hagain

end Run

section Waiting

/-- Whether a session waits for its first signature, with a handle for the function type. -/
structure Waits (s : Session) (named : TypeHandle) : Prop where
  pending : s.pending = [0]
  signatures : s.table.signatures = #[]
  lookup? : s.table.lookup? named = some (.function 0)

variable {s : Session} {named : TypeHandle}

/-- A function type can be named before anything is formed. -/
theorem exists_waits (htable : s.table = .fresh) (hpending : s.pending = []) :
    ∃ named, (s.respond (.form (.functionNamed 0))).2.Waits named ∧
      (s.respond (.form (.functionNamed 0))).2.memo = s.memo := by
  let table := (TypeTable.fresh.intern .byHash (.function 0)).2
  have hsignatures : table.signatures = #[] := TypeTable.signatures_intern ..
  have hform : (s.serve (.form (.functionNamed 0))).2 = { s with table, pending := [0] } := by
    simp only [serve, await, form, htable, hpending, TypeTable.add]
    rfl
  have hrespond : (s.respond (.form (.functionNamed 0))).2 = { s with table, pending := [0] } := by
    rw [respond, perform_eq, hform]
    rw [hform]
    simp [TypeTable.signatureCount, hsignatures]
  rw [hrespond]
  exact ⟨_, ⟨rfl, hsignatures, TypeTable.lookup?_intern_fresh _⟩, rfl⟩

/-- While it waits, no reference to the function type can be formed. -/
theorem Waits.ask (h : s.Waits named) (hmemo : s.memo = ∅) :
    let later := (s.respond (.ask ⟨.isReferenceable, named, []⟩)).2
    later.Waits named ∧
      later.memo =
        (∅ : Memo).insert ⟨.isReferenceable, .functionNamed 0, []⟩ (.bool false) := by
  have hread : s.table.read named = .functionNamed 0 :=
    TypeTable.read_functionNamed h.lookup? (by simp [h.signatures])
  have hrespond : s.respond (.ask ⟨.isReferenceable, named, []⟩) =
      s.serve (.ask ⟨.isReferenceable, named, []⟩) := by
    refine perform_eq fun number _ => ?_
    simp [serve, Session.ask, TypeTable.signatureCount, h.signatures]
  rw [hrespond]
  refine ⟨⟨h.pending, h.signatures, h.lookup?⟩, ?_⟩
  simp only [serve, Session.ask, Memo.ask, Inquiry.query, hread, hmemo,
    Std.HashMap.getElem?_empty]
  rfl

theorem Waits.signature_add (h : s.Waits named) :
    (s.table.add .byHash (.function .void [] {})).2.signatures[0]? = some ⟨⟨1⟩, [], {}⟩ := by
  have hvoid : s.table.intern .byHash .void = (⟨1⟩, s.table) := by
    have hpredefined : TypeNode.void.predefinedHandle? = some ⟨1⟩ := by decide
    simp only [TypeTable.intern, hpredefined]
  have hformed : (s.table.add .byHash (.function .void [] {})).2 =
      (TypeTable.intern .byHash { s.table with signatures := #[⟨⟨1⟩, [], {}⟩] }
        (.function 0)).2 := by
    simp [TypeTable.add, TypeTable.addAll, TypeTable.internSignature, hvoid, h.signatures]
  rw [hformed, TypeTable.signatures_intern]
  rfl

/-- The signature arrives, and what was answered before is now an answer about the function type. -/
theorem Waits.form (h : s.Waits named)
    (hmemo : s.memo = (∅ : Memo).insert ⟨.isReferenceable, .functionNamed 0, []⟩ (.bool false))
    {later : Session} (hlater : later = (s.respond (.form (.function .void [] {}))).2) :
    later.pending = [] ∧ later.table.lookup? named = some (.function 0) ∧
      later.table.read named = .function .void [] {} ∧
      later.memo =
        (∅ : Memo).insert ⟨.isReferenceable, .function .void [] {}, []⟩ (.bool false) := by
  let shape : Ty := .function .void [] {}
  let table := (s.table.add .byHash shape).2
  have hpending : (s.serve (.form shape)).2.pending = [0] := h.pending
  have hsignature : table.signatures[0]? = some ⟨⟨1⟩, [], {}⟩ := h.signature_add
  have hcount : 0 < table.signatureCount := (Array.getElem?_eq_some_iff.1 hsignature).1
  replace hlater : later = (({ s with pending := [0] }.settle table).serve (.form shape)).2 := by
    have hanew : s.respond (.form shape) = _ := perform_anew (by simp [hpending]) hcount
    rw [hpending] at hanew
    exact hlater.trans (congrArg Prod.snd hanew)
  have hext : later.table.Extends table := by
    rw [hlater]
    exact (serve_follows _ _).table
  have hnamed := hext.lookup? ((TypeTable.add_extends shape s.table).lookup? h.lookup?)
  refine ⟨?_, hnamed, TypeTable.read_thunk hnamed (hext.signature hsignature), ?_⟩
  · have hsettled : ({ s with pending := [0] }.settle table).pending = [] :=
      List.filter_eq_nil_iff.2 (by simpa using hcount)
    rw [hlater]
    exact pending_serve hsettled fun t ht => Use.form.inj ht ▸ rfl
  · have hknown : (Ty.functionNamed 0).resolve table.functionType = shape := by
      rw [Ty.resolve, TypeTable.functionType_thunk hsignature]
    rw [hlater]
    show Memo.mapTypes (Ty.resolve table.functionType) s.memo = _
    rw [hmemo, Memo.mapTypes_singleton]
    simp only [Query.mapTypes, hknown]
    rfl

/-- It is not enough that what is asked about is known by a handle: a function type whose signature
arrives after it has been asked about goes on to get the answer that it got before. -/
theorem memory_not_transparent :
    ¬ ∀ (s : Session) (uses : List Use), s.Reached → s.memo = ∅ →
      (∀ first u, first ++ [u] <+: uses → ∀ handle ∈ u.handles,
        ((s.after first).session.table.lookup? handle).isSome) →
      ∀ first u i, first ++ [u] <+: uses → u.inquiry? = some i →
        let before := (s.after first).session
        let read := before.table.read
        (before.respond u).1.result? =
          some (before.solver.query i.kind (read i.type) (i.args.map read)) := by
  intro h
  let s : Session := { program := { target := .lp64 } }
  obtain ⟨named, hwaits, hmemo⟩ := exists_waits (s := s) rfl rfl
  let i : Inquiry := ⟨.isReferenceable, named, []⟩
  let shape : Ty := .function .void [] {}
  let first : List Use := [.form (.functionNamed 0), .ask i, .form shape]
  -- Named, asked about, and only then given its signature.
  obtain ⟨hasked, hmemo⟩ := hwaits.ask hmemo
  obtain ⟨later, hlater⟩ : ∃ later, later = (s.after first).session := ⟨_, rfl⟩
  have hform : later = (((s.respond (.form (.functionNamed 0))).2.respond (.ask i)).2.respond
      (.form shape)).2 := by
    rw [hlater]
    simp only [first, after, List.foldl_cons, List.foldl_nil, Course.next]
  obtain ⟨hpending, hnamed, hread, hmemo⟩ := hasked.form hmemo hform
  have hinterned : ∀ first' u, first' ++ [u] <+: first ++ [Use.ask i] → ∀ handle ∈ u.handles,
      ((s.after first').session.table.lookup? handle).isSome := by
    intro first' u hstart handle hhandle
    simp only [first, List.cons_append, List.nil_append, snoc_prefix_cons_iff] at hstart
    obtain ⟨-, rfl⟩ | ⟨_, rfl, ⟨rfl, rfl⟩ | ⟨_, rfl, ⟨-, rfl⟩ | ⟨_, rfl, ⟨rfl, rfl⟩ | hnil⟩⟩⟩ :=
      hstart
    · cases hhandle
    · rw [List.mem_singleton.1 hhandle]
      exact Option.isSome_of_mem hwaits.lookup?
    · cases hhandle
    · rw [List.mem_singleton.1 hhandle, ← hlater]
      exact Option.isSome_of_mem hnamed
    · simp at hnil
  have hresult := h s _ (.start ..) rfl hinterned first (.ask i) i List.prefix_rfl rfl
  have hstale : (later.respond (.ask i)).1.result? = some (.ok (.bool false)) := by
    rw [respond, perform_eq (by simp [serve, Session.ask, hpending])]
    simp [serve, Session.ask, Memo.ask, Inquiry.query, i, hread, hmemo]
  simp only [← hlater, hstale, i, hread] at hresult
  cases hresult

end Waiting

end Session

end TypeTraits
