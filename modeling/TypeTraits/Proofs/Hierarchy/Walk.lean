import TypeTraits.Proofs.Hierarchy.Path

/-!
# Walks that are never denied

Where classes are ranked below those that derive from them no walk meets a class again, so with room
for every path the guard of a walk denies nothing. The walks over base classes then visit exactly
the listed paths: one asks whether any of them ends at a class, the other folds over them.
-/

namespace TypeTraits
namespace Hierarchy

/-- Every base has a lower rank than the classes that name it. -/
def Ranked (p : Program) (rank : Ty → Nat) : Prop :=
  ∀ source, ∀ e ∈ edges p source, rank e.base.type < rank source

/-- With this guard a walk below `source` is neither too deep nor meets a class that it is in. -/
structure Room (p : Program) (rank : Ty → Nat) (fuel : Nat) (source : Ty) (g : Guard Ty) :
    Prop where
  limits : g.limits = .hierarchy
  depth : g.depth + fuel = Limits.hierarchyDepth
  length : ∀ path target, Leads p source path target → path.length ≤ fuel
  visiting : ∀ t ∈ g.visiting, rank source ≤ rank t

variable {p : Program} {rank : Ty → Nat} {fuel : Nat} {source target : Ty} {g : Guard Ty} {e : Edge}

theorem Leads.length_add_rank_le (hranked : Ranked p rank) {path : List Edge}
    (h : Leads p source path target) : path.length + rank target ≤ rank source := by
  induction h with
  | nil => simp
  | @cons source _ e _ he _ ih =>
    have hlower := hranked source e he
    simp only [List.length_cons]
    omega

namespace Room

theorem withIterations (h : Room p rank fuel source g) (n : Nat) :
    Room p rank fuel source { g with iterations := n } :=
  ⟨h.limits, h.depth, h.length, h.visiting⟩

theorem edges_eq_nil (h : Room p rank 0 source g) : edges p source = [] := by
  cases hedges : edges p source with
  | nil => rfl
  | cons e es =>
    have := h.length [e] e.base.type (.cons (hedges ▸ List.mem_cons_self) .nil)
    simp at this

/-- A walk with room may enter every base. -/
theorem entered (hranked : Ranked p rank) (h : Room p rank (fuel + 1) source g)
    (he : e ∈ edges p source) :
    e.base.type ∉ g.visiting ∧ Room p rank fuel e.base.type (g.entered e.base.type) := by
  have hlower := hranked source e he
  refine ⟨fun hmem => ?_, h.limits, ?_, fun path target hpath => ?_, fun t ht => ?_⟩
  · have := h.visiting _ hmem
    omega
  · have := h.depth
    simp only [Guard.entered]
    omega
  · have := h.length (e :: path) target (.cons he hpath)
    simpa using this
  · rcases List.mem_cons.mp ht with rfl | ht
    · exact Nat.le_refl _
    · have := h.visiting t ht
      omega

/-- A scope that has room runs, and leaves only its steps behind. -/
theorem scopeD {α : Type} (otherwise : α) {result : α} {body : Walk α} {steps : Nat}
    (hranked : Ranked p rank) (h : Room p rank (fuel + 1) source g) (he : e ∈ edges p source)
    (hiterations : g.iterations < Limits.guardIterations)
    (hbody : body (g.entered e.base.type) =
      (result, { g.entered e.base.type with iterations := steps })) :
    Guard.scopeD otherwise e.base.type body g = (result, { g with iterations := steps }) := by
  have hdepth : g.depth < g.limits.depth := by
    have := h.depth
    rw [h.limits]
    change g.depth < Limits.hierarchyDepth
    omega
  have hiterations : g.iterations < g.limits.iterations := by
    rw [h.limits]
    exact hiterations
  have hscope := @Guard.scope_of_room _ _ _ e.base.type body g hiterations hdepth
    (h.entered hranked he).1
  rw [hbody] at hscope
  have hleave : Guard.leave { g.entered e.base.type with iterations := steps } e.base.type =
      { g with iterations := steps } := by
    simp [Guard.leave, Guard.entered]
  rw [hleave] at hscope
  simp only [Guard.scopeD, bind, StateT.bind, hscope]
  rfl

end Room

section Asking

/-- Asking each edge of a class in turn, first what the edge alone tells and then what is asked
deeper. -/
def askEdges (found : List Edge → Bool) (deeper : Edge → Walk Bool) (es : List Edge) : Walk Bool :=
  es.anyM fun e =>
    if found [e] then return true else Guard.scopeD false e.base.type (deeper e)

theorem exists_of_anyM {f : Edge → Walk Bool} {es : List Edge} (h : (es.anyM f g).1 = true) :
    ∃ e ∈ es, ∃ g', (f e g').1 = true := by
  induction es generalizing g with
  | nil => cases h
  | cons e es ih =>
    simp only [List.anyM_cons, bind, StateT.bind] at h
    rcases hfirst : f e g with ⟨_ | _, g'⟩ <;> rw [hfirst] at h
    · obtain ⟨e', he', hrest⟩ := ih h
      exact ⟨e', List.mem_cons_of_mem _ he', hrest⟩
    · exact ⟨e, List.mem_cons_self, g, by rw [hfirst]⟩

theorem exists_of_scopeD {key : Ty} {body : Walk Bool}
    (h : (Guard.scopeD false key body g).1 = true) : ∃ g', (body g').1 = true := by
  simp only [Guard.scopeD, Guard.scope, bind, StateT.bind] at h
  rcases henter : g.enter key with ⟨_ | _, g'⟩ <;> rw [henter] at h
  · exact ⟨g', h⟩
  · cases h

/-- Whatever its guard denies, a walk finds only what an edge tells, or what is found deeper. -/
theorem exists_of_askEdges {found : List Edge → Bool} {deeper : Edge → Walk Bool} {es : List Edge}
    (h : (askEdges found deeper es g).1 = true) :
    ∃ e ∈ es, found [e] = true ∨ ∃ g', (deeper e g').1 = true := by
  obtain ⟨e, he, g', h⟩ := exists_of_anyM h
  split at h
  · rename_i hfound
    exact ⟨e, he, Or.inl hfound⟩
  · exact ⟨e, he, Or.inr (exists_of_scopeD h)⟩

/-- Asking along some edges of a class, where the paths below it answer each deeper question. -/
theorem askEdges_eq (hranked : Ranked p rank) {found : List Edge → Bool} {deeper : Edge → Walk Bool}
    (hdeeper : ∀ {g : Guard Ty} {e : Edge}, Room p rank fuel e.base.type g →
      g.iterations + (pathsFrom p fuel e.base.type).length ≤ Limits.guardIterations →
      ∃ steps ≤ g.iterations + (pathsFrom p fuel e.base.type).length,
        deeper e g = ((pathsFrom p fuel e.base.type).any fun path => found (e :: path),
          { g with iterations := steps }))
    {es : List Edge} (hes : ∀ e ∈ es, e ∈ edges p source)
    (hroom : Room p rank (fuel + 1) source g)
    (hiterations : g.iterations +
      (es.flatMap fun e => throughEdge e (pathsFrom p fuel e.base.type)).length ≤
        Limits.guardIterations) :
    ∃ steps ≤ g.iterations +
        (es.flatMap fun e => throughEdge e (pathsFrom p fuel e.base.type)).length,
      askEdges found deeper es g =
        ((es.flatMap fun e => throughEdge e (pathsFrom p fuel e.base.type)).any found,
          { g with iterations := steps }) := by
  unfold askEdges
  induction es generalizing g with
  | nil => exact ⟨g.iterations, Nat.le_refl _, rfl⟩
  | cons e es ih =>
    have he := hes e List.mem_cons_self
    simp only [List.flatMap_cons, List.length_append, length_throughEdge] at hiterations ⊢
    simp only [List.anyM_cons, bind, StateT.bind]
    cases hfound : found [e] with
    | true =>
      refine ⟨g.iterations, by omega, ?_⟩
      simp [hfound, throughEdge]
      rfl
    | false =>
      have hdepth : Room p rank fuel e.base.type (g.entered e.base.type) :=
        (hroom.entered hranked he).2
      obtain ⟨steps, hsteps, hanswer⟩ := hdeeper hdepth (by simp only [Guard.entered]; omega)
      simp only [Guard.entered] at hsteps
      have hscope := hroom.scopeD false hranked he (by omega) hanswer
      have hthrough : (throughEdge e (pathsFrom p fuel e.base.type)).any found =
          (pathsFrom p fuel e.base.type).any fun path => found (e :: path) := by
        rw [throughEdge, List.any_cons, List.any_map, hfound, Bool.false_or]
        rfl
      rw [if_neg Bool.false_ne_true, hscope, List.any_append, hthrough]
      cases hany : (pathsFrom p fuel e.base.type).any fun path => found (e :: path) with
      | true => exact ⟨steps, by omega, rfl⟩
      | false =>
        obtain ⟨last, hlast, hrest⟩ := ih (fun e he => hes e (List.mem_cons_of_mem _ he))
          (hroom.withIterations steps) (by dsimp only; omega)
        exact ⟨last, by dsimp only at hlast; omega, hrest⟩

theorem reachStep_eq (deeper : Ty → Walk Bool) (source : Ty) :
    reachStep p target deeper source =
      askEdges (endpoint source · == target) (fun e => deeper e.base.type) (edges p source) := by
  unfold reachStep askEdges
  cases hr : p.class? source with
  | none =>
    rw [edges_of_class?_eq_none hr]
    rfl
  | some r =>
    dsimp only
    rw [← edges_eq hr]
    simp only [endpoint, beq_iff_eq]
    induction edges p source with
    | nil => rfl
    | cons e es ih => rw [List.map_cons, List.anyM_cons, List.anyM_cons, ih]

/-- Whatever its guard denies, a walk finds only what a path leads to. -/
theorem reaches_sound (h : (reaches p target fuel source g).1 = true) :
    ∃ path, path ≠ [] ∧ Leads p source path target := by
  have hend : ∀ {source : Ty} {e : Edge}, e ∈ edges p source →
      (endpoint source [e] == target) = true → ∃ path, path ≠ [] ∧ Leads p source path target := by
    intro source e he htarget
    have htarget : e.base.type = target := beq_iff_eq.mp htarget
    exact ⟨[e], by simp, .cons he (htarget ▸ .nil)⟩
  induction fuel generalizing source g with
  | zero =>
    rw [reaches, reachStep_eq] at h
    obtain ⟨e, he, htarget | ⟨_, h⟩⟩ := exists_of_askEdges h
    · exact hend he htarget
    · cases h
  | succ fuel ih =>
    rw [reaches, reachStep_eq] at h
    obtain ⟨e, he, htarget | ⟨_, h⟩⟩ := exists_of_askEdges h
    · exact hend he htarget
    · obtain ⟨path, _, hpath⟩ := ih h
      exact ⟨e :: path, by simp, .cons he hpath⟩

/-- A walk with room finds out whether a path leads to the target. -/
theorem reaches_eq (hranked : Ranked p rank) (hroom : Room p rank fuel source g)
    (hiterations : g.iterations + (pathsFrom p fuel source).length ≤ Limits.guardIterations) :
    ∃ steps ≤ g.iterations + (pathsFrom p fuel source).length,
      reaches p target fuel source g =
        ((pathsFrom p fuel source).any (endpoint source · == target),
          { g with iterations := steps }) := by
  induction fuel generalizing source g with
  | zero =>
    rw [reaches, reachStep_eq, hroom.edges_eq_nil]
    exact ⟨g.iterations, Nat.le_refl _, rfl⟩
  | succ fuel ih =>
    rw [reaches, reachStep_eq]
    exact askEdges_eq hranked (fun hroom hiterations => ih hroom hiterations) (fun _ he => he) hroom
      hiterations

/-- Whether a path from `source` ends at the target with a virtual edge on it, or before it. -/
def endsVirtually (target source : Ty) (seen : Bool) (path : List Edge) : Bool :=
  endpoint source path == target && (seen || path.any (·.base.isVirtual))

variable {seen : Bool}

theorem endsVirtually_cons (e : Edge) (path : List Edge) :
    endsVirtually target source seen (e :: path) =
      endsVirtually target e.base.type (seen || e.base.isVirtual) path := by
  rw [endsVirtually, endsVirtually, List.any_cons, Bool.or_assoc]
  rfl

theorem virtualStep_eq (deeper : Ty → Bool → Walk Bool) (source : Ty) (seen : Bool) :
    virtualStep p target deeper source seen =
      askEdges (endsVirtually target source seen)
        (fun e => deeper e.base.type (seen || e.base.isVirtual)) (edges p source) := by
  unfold virtualStep askEdges
  cases hr : p.class? source with
  | none =>
    rw [edges_of_class?_eq_none hr]
    rfl
  | some r =>
    dsimp only
    rw [← edges_eq hr]
    simp only [endsVirtually, endpoint, List.any_cons, List.any_nil, Bool.or_false,
      Bool.and_eq_true, decide_eq_true_eq, beq_iff_eq]
    induction edges p source with
    | nil => rfl
    | cons e es ih => rw [List.map_cons, List.anyM_cons, List.anyM_cons, ih]

/-- Whatever its guard denies, a walk finds only what a path with a virtual edge leads to. -/
theorem reachesVirtually_sound (h : (reachesVirtually p target fuel source seen g).1 = true) :
    ∃ path, path ≠ [] ∧ Leads p source path target ∧
      (seen || path.any (·.base.isVirtual)) = true := by
  have hend : ∀ {source : Ty} {seen : Bool} {e : Edge}, e ∈ edges p source →
      endsVirtually target source seen [e] = true → ∃ path, path ≠ [] ∧
        Leads p source path target ∧ (seen || path.any (·.base.isVirtual)) = true := by
    intro source seen e he hfound
    obtain ⟨htarget, hvirtual⟩ := Bool.and_eq_true_iff.mp hfound
    have htarget : e.base.type = target := beq_iff_eq.mp htarget
    exact ⟨[e], by simp, .cons he (htarget ▸ .nil), hvirtual⟩
  induction fuel generalizing source seen g with
  | zero =>
    rw [reachesVirtually, virtualStep_eq] at h
    obtain ⟨e, he, hfound | ⟨_, h⟩⟩ := exists_of_askEdges h
    · exact hend he hfound
    · cases h
  | succ fuel ih =>
    rw [reachesVirtually, virtualStep_eq] at h
    obtain ⟨e, he, hfound | ⟨_, h⟩⟩ := exists_of_askEdges h
    · exact hend he hfound
    · obtain ⟨path, _, hpath, hvirtual⟩ := ih h
      rw [Bool.or_assoc] at hvirtual
      exact ⟨e :: path, by simp, .cons he hpath, hvirtual⟩

/-- A walk with room finds out whether a path with a virtual edge leads to the target. -/
theorem reachesVirtually_eq (hranked : Ranked p rank) (hroom : Room p rank fuel source g)
    (hiterations : g.iterations + (pathsFrom p fuel source).length ≤ Limits.guardIterations) :
    ∃ steps ≤ g.iterations + (pathsFrom p fuel source).length,
      reachesVirtually p target fuel source seen g =
        ((pathsFrom p fuel source).any (endsVirtually target source seen),
          { g with iterations := steps }) := by
  induction fuel generalizing source seen g with
  | zero =>
    rw [reachesVirtually, virtualStep_eq, hroom.edges_eq_nil]
    exact ⟨g.iterations, Nat.le_refl _, rfl⟩
  | succ fuel ih =>
    rw [reachesVirtually, virtualStep_eq]
    refine askEdges_eq hranked (fun hroom hiterations => ?_) (fun _ he => he) hroom hiterations
    simp only [endsVirtually_cons]
    exact ih hroom hiterations

end Asking

/-- Following some edges of a class one after the other, where each follows the paths through it. -/
theorem foldlM_edges {α : Type} {visit : α → List Edge → α} {body : α → Edge → Walk α}
    (hbody : ∀ {g : Guard Ty} {acc : α} {e : Edge}, e ∈ edges p source →
      Room p rank (fuel + 1) source g →
      g.iterations + (throughEdge e (pathsFrom p fuel e.base.type)).length ≤
        Limits.guardIterations →
      body acc e g = ((throughEdge e (pathsFrom p fuel e.base.type)).foldl visit acc,
        { g with iterations :=
            g.iterations + (throughEdge e (pathsFrom p fuel e.base.type)).length }))
    {es : List Edge} {acc : α} (hes : ∀ e ∈ es, e ∈ edges p source)
    (hroom : Room p rank (fuel + 1) source g)
    (hiterations : g.iterations +
      (es.flatMap fun e => throughEdge e (pathsFrom p fuel e.base.type)).length ≤
        Limits.guardIterations) :
    es.foldlM body acc g =
      ((es.flatMap fun e => throughEdge e (pathsFrom p fuel e.base.type)).foldl visit acc,
        { g with iterations := g.iterations +
          (es.flatMap fun e => throughEdge e (pathsFrom p fuel e.base.type)).length }) := by
  induction es generalizing g acc with
  | nil => rfl
  | cons e es ih =>
    simp only [List.flatMap_cons, List.length_append] at hiterations ⊢
    have hfirst := @hbody g acc e (hes e List.mem_cons_self) hroom (by omega)
    have hrest := @ih { g with iterations := g.iterations +
        (throughEdge e (pathsFrom p fuel e.base.type)).length }
      ((throughEdge e (pathsFrom p fuel e.base.type)).foldl visit acc)
      (fun e he => hes e (List.mem_cons_of_mem _ he)) (hroom.withIterations _)
      (by dsimp only; omega)
    rw [List.foldlM_cons, List.foldl_append, ← Nat.add_assoc]
    exact (congrArg (fun r => es.foldlM (m := Walk) body r.1 r.2) hfirst).trans hrest

section Collect

/-- Adds where a path from `source` ends to a list of classes, unless it is there. -/
def collectEnd (source : Ty) (seen : List Ty) (path : List Edge) : List Ty :=
  if endpoint source path ∈ seen then seen else seen ++ [endpoint source path]

theorem mem_collectEnd {seen : List Ty} {path : List Edge} {t : Ty} :
    t ∈ collectEnd source seen path ↔ t ∈ seen ∨ endpoint source path = t := by
  unfold collectEnd
  split
  · rename_i hmem
    exact ⟨Or.inl, fun h => h.elim id fun heq => heq ▸ hmem⟩
  · simp [eq_comm]

theorem nodup_collectEnd {seen : List Ty} (h : seen.Nodup) (path : List Edge) :
    (collectEnd source seen path).Nodup := by
  unfold collectEnd
  split
  · exact h
  · rename_i hmem
    refine List.nodup_append.mpr ⟨h, List.pairwise_singleton _ _, ?_⟩
    rintro t ht u hu rfl
    exact hmem (List.mem_singleton.mp hu ▸ ht)

theorem mem_foldl_collectEnd {t : Ty} {seen : List Ty} {paths : List (List Edge)} :
    t ∈ paths.foldl (collectEnd source) seen ↔
      t ∈ seen ∨ ∃ path ∈ paths, endpoint source path = t := by
  induction paths generalizing seen with
  | nil => simp
  | cons path paths ih =>
    rw [List.foldl_cons, ih, mem_collectEnd, or_assoc]
    simp

theorem foldl_collectEnd_throughEdge (e : Edge) (paths : List (List Edge)) (seen : List Ty) :
    (throughEdge e paths).foldl (collectEnd source) seen =
      paths.foldl (collectEnd e.base.type) (collectEnd source seen [e]) := by
  rw [throughEdge, List.foldl_cons, List.foldl_map]
  rfl

theorem collectStep_eq (deeper : Ty → List Ty → Walk (List Ty)) (seen : List Ty) :
    collectStep p deeper source seen = (edges p source).foldlM (fun seen e =>
      Guard.scopeD (collectEnd source seen [e]) e.base.type
        (deeper e.base.type (collectEnd source seen [e]))) seen := by
  unfold collectStep
  cases hr : p.class? source with
  | none =>
    rw [edges_of_class?_eq_none hr]
    rfl
  | some r =>
    dsimp only
    rw [← edges_eq hr, List.foldlM_map]
    rfl

/-- A walk with room collects the ends of all paths. -/
theorem collect_eq (hranked : Ranked p rank) (hroom : Room p rank fuel source g)
    (hiterations : g.iterations + (pathsFrom p fuel source).length ≤ Limits.guardIterations)
    (seen : List Ty) :
    collect p fuel source seen g = ((pathsFrom p fuel source).foldl (collectEnd source) seen,
      { g with iterations := g.iterations + (pathsFrom p fuel source).length }) := by
  induction fuel generalizing source seen g with
  | zero =>
    rw [collect, collectStep_eq, hroom.edges_eq_nil]
    rfl
  | succ fuel ih =>
    rw [collect, collectStep_eq]
    refine foldlM_edges ?_ (fun _ he => he) hroom hiterations
    intro g seen e he hroom hiterations
    rw [length_throughEdge] at hiterations ⊢
    have hcollect := @ih _ _ (hroom.entered hranked he).2
      (by simp only [Guard.entered]; omega) (collectEnd source seen [e])
    have hscope := hroom.scopeD (collectEnd source seen [e]) hranked he (by omega) hcollect
    rw [foldl_collectEnd_throughEdge, hscope]
    simp only [Guard.entered, Nat.add_assoc, Nat.add_comm 1]

/-- What holds of a list, and of it with a base added that a class of the walk names, holds of what
is collected, whatever the guard of the walk denies. -/
theorem collect_preserves {good : Ty → Prop} {inv : List Ty → Prop}
    (hgood : ∀ source, good source → ∀ e ∈ edges p source, good e.base.type)
    (hinv : ∀ source, good source → ∀ e ∈ edges p source, ∀ seen, inv seen →
      inv (collectEnd source seen [e]))
    {seen : List Ty} (hsource : good source) (hseen : inv seen) :
    inv (collect p fuel source seen g).1 := by
  have hstep : ∀ (deeper : Ty → List Ty → Walk (List Ty)),
      (∀ source seen g, good source → inv seen → inv (deeper source seen g).1) →
      ∀ source seen g, good source → inv seen → inv (collectStep p deeper source seen g).1 := by
    intro deeper hdeeper source seen g hsource hseen
    rw [collectStep_eq]
    have hes : ∀ e ∈ edges p source, good e.base.type ∧
        ∀ seen, inv seen → inv (collectEnd source seen [e]) :=
      fun e he => ⟨hgood source hsource e he, hinv source hsource e he⟩
    generalize edges p source = es at hes
    induction es generalizing seen g with
    | nil => exact hseen
    | cons e es ih =>
      obtain ⟨⟨he, hadd⟩, hes⟩ := List.forall_mem_cons.mp hes
      have hend := hadd seen hseen
      have hscope : inv (Guard.scopeD (collectEnd source seen [e]) e.base.type
          (deeper e.base.type (collectEnd source seen [e])) g).1 := by
        simp only [Guard.scopeD, Guard.scope, bind, StateT.bind]
        rcases g.enter e.base.type with ⟨_ | _, g'⟩
        · exact hdeeper _ _ _ he hend
        · exact hend
      exact ih _ _ hscope hes
  induction fuel generalizing source seen g with
  | zero => exact hstep _ (fun _ _ _ _ hseen => hseen) _ _ _ hsource hseen
  | succ fuel ih => exact hstep _ (fun _ _ _ => ih) _ _ _ hsource hseen

/-- Whatever its guard denies, a walk collects only bases that some class names. -/
theorem forall_mem_collect {q : Ty → Prop} (hedges : ∀ source, ∀ e ∈ edges p source, q e.base.type)
    {seen : List Ty} (hseen : ∀ t ∈ seen, q t) : ∀ t ∈ (collect p fuel source seen g).1, q t := by
  refine @collect_preserves p _ _ _ (fun _ => True) (fun seen => ∀ t ∈ seen, q t)
    (fun _ _ _ _ => trivial) ?_ _ trivial hseen
  intro source _ e he seen hseen t ht
  rcases mem_collectEnd.mp ht with ht | rfl
  · exact hseen t ht
  · exact hedges source e he

/-- Whatever its guard denies, a walk collects each base once. -/
theorem nodup_collect : (collect p fuel source [] g).1.Nodup :=
  @collect_preserves p _ _ _ (fun _ => True) List.Nodup (fun _ _ _ _ => trivial)
    (fun _ _ e _ _ hseen => nodup_collectEnd hseen [e]) _ trivial List.nodup_nil

end Collect

section Search

/-- Records a path from `source` if it ends at the target, where `s`, `isPublic` and `depth` tell of
the way to `source`. -/
def follow (target source : Ty) (s : Subobject) (isPublic : Bool) (depth : Nat) (search : Search)
    (path : List Edge) : Search :=
  if endpoint source path = target then
    search.reach (path.foldl (fun s e => s.step e.base) s) (isPublic && isPublicPath path)
      (depth + path.length)
  else search

variable {s : Subobject} {isPublic : Bool} {depth : Nat} {search : Search}

theorem follow_cons (e : Edge) (path : List Edge) :
    follow target source s isPublic depth search (e :: path) =
      follow target e.base.type (s.step e.base) (isPublic && e.base.access == .pub) (depth + 1)
        search path := by
  have hlength : depth + (e :: path).length = depth + 1 + path.length := by
    rw [List.length_cons]
    omega
  rw [follow, follow, hlength, isPublicPath, List.all_cons, ← Bool.and_assoc]
  rfl

theorem foldl_follow_throughEdge (e : Edge) (paths : List (List Edge)) :
    (throughEdge e paths).foldl (follow target source s isPublic depth) search =
      paths.foldl (follow target e.base.type (s.step e.base) (isPublic && e.base.access == .pub)
        (depth + 1)) (follow target source s isPublic depth search [e]) := by
  rw [throughEdge, List.foldl_cons, List.foldl_map]
  simp only [follow_cons e]

theorem searchStep_eq (deeper : Ty → Subobject → Bool → Search → Walk Search) :
    searchStep p target deeper source s isPublic search =
      (edges p source).foldlM (fun search e => do
        let depth := (← get).depth
        Guard.scopeD (follow target source s isPublic depth search [e]) e.base.type
          (deeper e.base.type (s.step e.base) (isPublic && e.base.access == .pub)
            (follow target source s isPublic depth search [e]))) search := by
  unfold searchStep
  cases hr : p.class? source with
  | none =>
    rw [edges_of_class?_eq_none hr]
    rfl
  | some r =>
    dsimp only
    rw [← edges_eq hr, List.foldlM_map]
    simp only [follow, isPublicPath, endpoint, List.foldl_cons, List.foldl_nil, List.all_cons,
      List.all_nil, Bool.and_true, List.length_cons, List.length_nil, Nat.zero_add]

/-- A walk with room follows every path. -/
theorem searchPaths_eq (hranked : Ranked p rank) (hroom : Room p rank fuel source g)
    (hiterations : g.iterations + (pathsFrom p fuel source).length ≤ Limits.guardIterations) :
    searchPaths p target fuel source s isPublic search g =
      ((pathsFrom p fuel source).foldl (follow target source s isPublic g.depth) search,
        { g with iterations := g.iterations + (pathsFrom p fuel source).length }) := by
  induction fuel generalizing source s isPublic search g with
  | zero =>
    rw [searchPaths, searchStep_eq, hroom.edges_eq_nil]
    rfl
  | succ fuel ih =>
    rw [searchPaths, searchStep_eq]
    refine foldlM_edges ?_ (fun _ he => he) hroom hiterations
    intro g' search e he hroom' hiterations
    -- The depth at which the edges are followed is that at which the first one is.
    have hdepth : g'.depth = g.depth := by
      have := hroom.depth
      have := hroom'.depth
      omega
    rw [length_throughEdge] at hiterations ⊢
    rw [← hdepth]
    have hsearch := @ih _ _ (s.step e.base) (isPublic && e.base.access == .pub)
      (follow target source s isPublic g'.depth search [e]) (hroom'.entered hranked he).2
      (by simp only [Guard.entered]; omega)
    have hscope := hroom'.scopeD (follow target source s isPublic g'.depth search [e]) hranked he
      (by omega) hsearch
    dsimp only [Guard.entered] at hscope
    rw [foldl_follow_throughEdge, ← Nat.add_assoc, Nat.add_right_comm]
    exact hscope

end Search

end Hierarchy
end TypeTraits
