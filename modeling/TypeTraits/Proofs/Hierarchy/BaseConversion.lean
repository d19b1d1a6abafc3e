import TypeTraits.Proofs.Hierarchy.Walk
import TypeTraits.Proofs.Program.Development

/-!
# Exact base conversions

A search that records some paths tells whether they name several subobjects, whether one of them is
public, and how long the shortest is. Completed classes are ranked by the order of their completion,
so the search of a base conversion records exactly the paths to the base.
-/

namespace TypeTraits
namespace Hierarchy

/-- What a search knows once it has recorded some paths. -/
structure Summarizes (search : Search) (paths : List (List Edge)) : Prop where
  found : search.found = paths.head?.map subobject
  several : search.several = true ↔ ∃ x ∈ paths, ∃ y ∈ paths, subobject x ≠ subobject y
  accessible : search.accessible = true ↔ ∃ x ∈ paths, isPublicPath x = true
  shortest : search.shortest = (paths.map List.length).min?

theorem summarizes_nil : Summarizes {} [] where
  found := rfl
  several := by simp
  accessible := by simp
  shortest := rfl

namespace Summarizes

variable {search : Search} {paths : List (List Edge)}

theorem reach (h : Summarizes search paths) (x : List Edge) :
    Summarizes (search.reach (subobject x) (isPublicPath x) x.length) (paths ++ [x]) := by
  cases paths with
  | nil =>
    have hfound : search.found = none := h.found
    have hshortest : search.shortest = none := h.shortest
    have hseveral : search.several = false := by simpa using h.several
    have haccessible : search.accessible = false := by simpa using h.accessible
    constructor <;> simp [Search.reach, hfound, hshortest, hseveral, haccessible]
  | cons first rest =>
    have hfound : search.found = some (subobject first) := h.found
    constructor
    · simp [Search.reach, hfound]
    · simp only [Search.reach, hfound, Option.any_some, Bool.or_eq_true, bne_iff_ne]
      rw [h.several]
      constructor
      · rintro (⟨y, hy, z, hz, hne⟩ | hne)
        · exact ⟨y, List.mem_append_left _ hy, z, List.mem_append_left _ hz, hne⟩
        · exact ⟨first, by simp, x, by simp, hne⟩
      · rintro ⟨y, hy, z, hz, hne⟩
        by_cases hx : subobject first = subobject x
        · -- The new path names what the first one does, so the two others are both old.
          have hold : ∀ w ∈ (first :: rest) ++ [x],
              ∃ v ∈ first :: rest, subobject v = subobject w := by
            intro w hw
            rcases List.mem_append.mp hw with hw | hw
            · exact ⟨w, hw, rfl⟩
            · exact ⟨first, List.mem_cons_self, by rw [List.mem_singleton.mp hw, hx]⟩
          obtain ⟨y', hy', hyeq⟩ := hold y hy
          obtain ⟨z', hz', hzeq⟩ := hold z hz
          exact Or.inl ⟨y', hy', z', hz', by rwa [hyeq, hzeq]⟩
        · exact Or.inr hx
    · simp only [Search.reach, Bool.or_eq_true, List.mem_append, List.mem_singleton]
      rw [h.accessible]
      constructor
      · rintro (⟨y, hy, hpublic⟩ | hpublic)
        · exact ⟨y, Or.inl hy, hpublic⟩
        · exact ⟨x, Or.inr rfl, hpublic⟩
      · rintro ⟨y, hy | rfl, hpublic⟩
        · exact Or.inl ⟨y, hy, hpublic⟩
        · exact Or.inr hpublic
    · have hshortest := h.shortest
      rw [List.map_cons, List.min?_cons'] at hshortest
      rw [List.cons_append, List.map_cons, List.map_append, List.min?_cons', List.foldl_append]
      simp [Search.reach, hshortest]

theorem foldl_reach (more : List (List Edge)) (h : Summarizes search paths) :
    Summarizes (more.foldl (fun search x =>
      search.reach (subobject x) (isPublicPath x) x.length) search) (paths ++ more) := by
  induction more generalizing search paths with
  | nil => simpa using h
  | cons x more ih => simpa using ih (h.reach x)

/-- The conversion that a search allows, told by the paths that it has recorded. -/
theorem conversion (h : Summarizes search paths) (hne : paths ≠ []) :
    search.conversion ≠ .notBase ∧
    (search.conversion = .ambiguous ↔ ∃ x ∈ paths, ∃ y ∈ paths, named x ≠ named y) ∧
    (search.conversion = .inaccessible ↔ (∀ x ∈ paths, ∀ y ∈ paths, named x = named y) ∧
      ∀ x ∈ paths, isPublicPath x = false) ∧
    ∀ n, search.conversion = .reachable n ↔ (∀ x ∈ paths, ∀ y ∈ paths, named x = named y) ∧
      (∃ x ∈ paths, isPublicPath x = true) ∧ (∃ x ∈ paths, x.length = n) ∧
        ∀ x ∈ paths, n ≤ x.length := by
  have hseveral : search.several = true ↔ ∃ x ∈ paths, ∃ y ∈ paths, named x ≠ named y := by
    simp only [h.several, ne_eq, subobject_eq_iff]
  have hsame : search.several = false ↔ ∀ x ∈ paths, ∀ y ∈ paths, named x = named y := by
    rw [← Bool.not_eq_true, hseveral]
    simp
  have hpublic := h.accessible
  have hprivate : search.accessible = false ↔ ∀ x ∈ paths, isPublicPath x = false := by
    rw [← Bool.not_eq_true, hpublic]
    simp
  obtain ⟨m, hm⟩ : ∃ m, (paths.map List.length).min? = some m := by
    cases hmin : (paths.map List.length).min? with
    | none => simp [hne] at hmin
    | some m => exact ⟨m, rfl⟩
  have hshortest : ∀ n, m = n ↔ (∃ x ∈ paths, x.length = n) ∧ ∀ x ∈ paths, n ≤ x.length := by
    intro n
    have hmin := @List.min?_eq_some_iff _ n _ _ (paths.map List.length) _ _
    rw [hm, Option.some.injEq] at hmin
    simpa using hmin
  rw [← hseveral, ← hsame, ← hprivate]
  have hconversion : search.conversion = if search.several then .ambiguous
      else if !search.accessible then .inaccessible else .reachable m := by
    rw [Search.conversion, h.shortest, hm]
    rfl
  rw [hconversion]
  refine ⟨?_, ?_, ?_, fun n => ?_⟩
  · cases search.several <;> cases search.accessible <;> simp
  · cases search.several <;> cases search.accessible <;> simp
  · cases search.several <;> cases search.accessible <;> simp
  · rw [← hpublic, ← hshortest]
    cases search.several <;> cases search.accessible <;> simp

end Summarizes

theorem foldl_follow {target source : Ty} {search : Search} (paths : List (List Edge)) :
    paths.foldl (follow target source {} true 0) search =
      (paths.filter (endpoint source · == target)).foldl (fun search x =>
        search.reach (subobject x) (isPublicPath x) x.length) search := by
  rw [List.foldl_filter]
  congr 1
  funext search x
  by_cases htarget : endpoint source x = target <;> simp [follow, htarget, subobject]

end Hierarchy

namespace Program

variable {p : Program}

theorem isClassId_of_class? {id : RecordId} (h : (p.class? (.record id)).isSome = true) :
    p.isClassId id = true := by
  obtain ⟨r, hr⟩ := Option.isSome_iff_exists.mp h
  obtain ⟨_, hid, hrecord, _, hunion⟩ := class?_eq_some.mp hr
  cases hid
  simp [isClassId, hrecord, hunion]

end Program

namespace Development

open Hierarchy

variable {d : Development}

/-- When a class was completed. -/
def rank (d : Development) (t : Ty) : Nat := (t.recordId?.map d.completed.idxOf).getD 0

theorem Valid.ranked (h : d.Valid) : Ranked d.program d.rank := by
  intro source e he
  obtain ⟨r, hr, hmem⟩ := mem_bases_of_mem_edges he
  obtain ⟨id, hid, hrecord, hcomplete, _⟩ := Program.class?_eq_some.mp hr
  obtain ⟨_, hbases⟩ := h.bases id r hrecord hcomplete
  obtain ⟨⟨b, _, htype, _⟩, horder⟩ := hbases e.base hmem
  have hlower := horder b htype
  rw [rank, rank, hid, htype]
  exact hlower

section

variable {derived base : RecordId}

theorem Valid.rank_lt_of_isBaseOf (h : d.Valid) (hne : base ≠ derived)
    (hbase : d.program.isBaseOf (.record base) (.record derived) = true) :
    d.rank (.record base) < d.rank (.record derived) := by
  simp only [Program.isBaseOf, Ty.recordId?, Ty.core, beq_false_of_ne hne, Bool.false_or,
    Bool.and_eq_true] at hbase
  obtain ⟨path, hnonempty, hpath⟩ := reaches_sound hbase.2
  have hlength := hpath.length_add_rank_le h.ranked
  have hpos := List.length_pos_iff.mpr hnonempty
  simp only [Ty.unqualified, Ty.splitCv] at hlength
  omega

/-- No class is both a base of another and derived from it. -/
theorem Valid.isBaseOf_asymm (h : d.Valid) (hne : base ≠ derived)
    (hbase : d.program.isBaseOf (.record base) (.record derived) = true) :
    d.program.isBaseOf (.record derived) (.record base) = false := by
  cases hderived : d.program.isBaseOf (.record derived) (.record base) with
  | false => rfl
  | true =>
    have := h.rank_lt_of_isBaseOf hne hbase
    have := h.rank_lt_of_isBaseOf hne.symm hderived
    omega

/-- Where a class has few and short paths, its base conversions are what the paths tell. -/
theorem Valid.baseConversion_eq (h : d.Valid) (hne : derived ≠ base)
    (hderived : (d.program.class? (.record derived)).isSome = true)
    (hbase : (d.program.class? (.record base)).isSome = true)
    (hlength : ∀ path target, Leads d.program (.record derived) path target → path.length ≤ 256)
    (hpaths : (pathsFrom d.program 256 (.record derived)).length ≤ 100000) :
    ∃ search, Summarizes search ((pathsFrom d.program 256 (.record derived)).filter
        (endpoint (.record derived) · == .record base)) ∧
      d.program.baseConversion (.record derived) (.record base) =
        if (pathsFrom d.program 256 (.record derived)).filter
          (endpoint (.record derived) · == .record base) = [] then .notBase
        else search.conversion := by
  have hroom : Room d.program d.rank Limits.hierarchyDepth (.record derived) (.fresh .hierarchy) :=
    ⟨rfl, rfl, hlength, by simp [Guard.fresh]⟩
  have hiterations : (Guard.fresh .hierarchy : Guard Ty).iterations +
      (pathsFrom d.program Limits.hierarchyDepth (.record derived)).length ≤
        Limits.guardIterations := by
    change 0 + (pathsFrom d.program 256 (.record derived)).length ≤ 100000
    omega
  obtain ⟨steps, _, hreaches⟩ := @reaches_eq _ _ _ _ (.record base) _ h.ranked hroom hiterations
  have hsearch := @searchPaths_eq _ _ _ _ (.record base) _ {} true {} h.ranked hroom hiterations
  have hisBaseOf : d.program.isBaseOf (.record base) (.record derived) =
      (pathsFrom d.program 256 (.record derived)).any
        (endpoint (.record derived) · == .record base) := by
    simp only [Program.isBaseOf, Ty.recordId?, Ty.core]
    rw [Program.isClassId_of_class? hderived, Program.isClassId_of_class? hbase,
      beq_false_of_ne hne.symm, Bool.true_and, Bool.true_and, Bool.false_or]
    exact congrArg Prod.fst hreaches
  refine ⟨_, summarizes_nil.foldl_reach _, ?_⟩
  rw [← foldl_follow]
  have hdistinct : Ty.record derived ≠ Ty.record base := fun heq => hne (Ty.record.inj heq)
  have hplain : ∀ id, (Ty.record id).unqualified = .record id := fun _ => rfl
  unfold Program.baseConversion
  dsimp only
  rw [hplain, hplain, if_neg hdistinct, hisBaseOf]
  cases hany : (pathsFrom d.program 256 (.record derived)).any
      (endpoint (.record derived) · == .record base) with
  | false =>
    rw [List.any_eq_false] at hany
    rw [if_pos (List.filter_eq_nil_iff.mpr hany)]
    rfl
  | true =>
    obtain ⟨x, hx, hend⟩ := List.any_eq_true.mp hany
    rw [if_neg fun hnil => List.filter_eq_nil_iff.mp hnil x hx hend]
    exact congrArg Search.conversion (congrArg Prod.fst hsearch)

theorem mem_paths {p : Program} (hne : derived ≠ base)
    (hlength : ∀ path target, Leads p (.record derived) path target → path.length ≤ 256)
    {x : List Edge} :
    x ∈ (pathsFrom p 256 (.record derived)).filter (endpoint (.record derived) · == .record base) ↔
      Leads p (.record derived) x (.record base) := by
  rw [List.mem_filter, mem_pathsFrom, beq_iff_eq]
  constructor
  · rintro ⟨⟨_, _, h⟩, hend⟩
    exact hend ▸ h
  · intro h
    have hend := h.endpoint_eq
    refine ⟨⟨?_, hlength x _ h, hend.symm ▸ h⟩, hend⟩
    rintro rfl
    exact hne (Ty.record.inj hend)

theorem isPublicPath_eq_false {x : List Edge} :
    isPublicPath x = false ↔ ∃ e ∈ x, e.base.access ≠ .pub := by
  simp [isPublicPath]

/-- A class from which no path is longer than 256 edges and at most 100000 paths lead away converts
to a base exactly as the paths to the base tell. -/
theorem baseConversion_exact (h : d.Reachable) (hne : derived ≠ base)
    (hderived : (d.program.class? (.record derived)).isSome = true)
    (hbase : (d.program.class? (.record base)).isSome = true)
    (hlength : ∀ path target, Leads d.program (.record derived) path target → path.length ≤ 256)
    (hpaths : AtMost 100000 fun path =>
      path ≠ [] ∧ ∃ target, Leads d.program (.record derived) path target) :
    let conversion := d.program.baseConversion (.record derived) (.record base)
    let toBase := fun path => Leads d.program (.record derived) path (.record base)
    (conversion = .notBase ↔ ¬∃ x, toBase x) ∧
    (conversion = .ambiguous ↔ ∃ x y, toBase x ∧ toBase y ∧ named x ≠ named y) ∧
    (conversion = .inaccessible ↔ (∃ x, toBase x) ∧
      (∀ x y, toBase x → toBase y → named x = named y) ∧
        ∀ x, toBase x → ∃ e ∈ x, e.base.access ≠ .pub) ∧
    ∀ n, conversion = .reachable n ↔ (∀ x y, toBase x → toBase y → named x = named y) ∧
      (∃ x, toBase x ∧ ∀ e ∈ x, e.base.access = .pub) ∧
        (∃ x, toBase x ∧ x.length = n) ∧ ∀ x, toBase x → n ≤ x.length := by
  intro conversion toBase
  have hcount : (pathsFrom d.program 256 (.record derived)).length ≤ 100000 := by
    refine hpaths _ (nodup_pathsFrom 256 _) fun path hpath => ?_
    obtain ⟨hnonempty, _, hleads⟩ := mem_pathsFrom.mp hpath
    exact ⟨hnonempty, _, hleads⟩
  obtain ⟨search, hsummary, hconversion⟩ :=
    h.valid.baseConversion_eq hne hderived hbase hlength hcount
  have hmem : ∀ x, x ∈ (pathsFrom d.program 256 (.record derived)).filter
      (endpoint (.record derived) · == .record base) ↔ toBase x := fun x => mem_paths hne hlength
  generalize (pathsFrom d.program 256 (.record derived)).filter
    (endpoint (.record derived) · == .record base) = paths at hsummary hconversion hmem
  by_cases hnil : paths = []
  · have hnone : ∀ x, ¬toBase x := by
      intro x hx
      rw [← hmem, hnil] at hx
      cases hx
    rw [if_pos hnil] at hconversion
    simp [conversion, hconversion, hnone]
  · rw [if_neg hnil] at hconversion
    obtain ⟨hbase, hambiguous, hinaccessible, hreachable⟩ := hsummary.conversion hnil
    have hsome : ∃ x, toBase x := by
      obtain ⟨x, hx⟩ := List.exists_mem_of_ne_nil paths hnil
      exact ⟨x, (hmem x).mp hx⟩
    simp only [hmem, isPublicPath_eq_false] at hambiguous hinaccessible hreachable
    simp only [isPublicPath, List.all_eq_true, beq_iff_eq] at hreachable
    simp only [conversion, hconversion]
    refine ⟨by simp [hbase, hsome], hambiguous.trans ?_, hinaccessible.trans ?_,
      fun n => (hreachable n).trans ?_⟩
    · constructor
      · rintro ⟨x, hx, y, hy, hne⟩
        exact ⟨x, y, hx, hy, hne⟩
      · rintro ⟨x, y, hx, hy, hne⟩
        exact ⟨x, hx, y, hy, hne⟩
    · constructor
      · rintro ⟨hsame, hprivate⟩
        exact ⟨hsome, fun x y hx hy => hsame x hx y hy, hprivate⟩
      · rintro ⟨_, hsame, hprivate⟩
        exact ⟨fun x hx y hy => hsame x y hx hy, hprivate⟩
    · constructor
      · rintro ⟨hsame, h⟩
        exact ⟨fun x y hx hy => hsame x hx y hy, h⟩
      · rintro ⟨hsame, h⟩
        exact ⟨fun x hx y hy => hsame x y hx hy, h⟩

end

/-- A class with two bases that share a virtual one, which only the first of them names publicly. -/
def virtualDiamond : Development :=
  performAll { program := { target := .lp64 } }
    [.start "Root" .struct, .finish ⟨1⟩,
      .start "Left" .struct, .write ⟨2⟩ (.virtualBase (.record ⟨1⟩)), .finish ⟨2⟩,
      .start "Right" .struct, .write ⟨3⟩ (.baseWith (.record ⟨1⟩) .priv true), .finish ⟨3⟩,
      .start "Joined" .struct, .write ⟨4⟩ (.base (.record ⟨3⟩)), .write ⟨4⟩ (.base (.record ⟨2⟩)),
      .finish ⟨4⟩]

theorem reachable_virtualDiamond : virtualDiamond.Reachable := by
  refine (Reachable.fresh .lp64).performAll ?_
  intro a ha
  simp only [List.mem_cons, List.not_mem_nil, or_false] at ha
  rcases ha with rfl | rfl | rfl | rfl | rfl | rfl | rfl | rfl | rfl | rfl | rfl | rfl
  all_goals first | trivial | exact RecordStep.isWritten_of_types rfl (by decide)

theorem baseConversion_exact_virtualDiamond :
    virtualDiamond.Reachable ∧
    (virtualDiamond.program.class? (.record ⟨4⟩)).isSome = true ∧
    (virtualDiamond.program.class? (.record ⟨1⟩)).isSome = true ∧
    (∀ path target, Leads virtualDiamond.program (.record ⟨4⟩) path target → path.length ≤ 256) ∧
    (AtMost 100000 fun path =>
      path ≠ [] ∧ ∃ target, Leads virtualDiamond.program (.record ⟨4⟩) path target) ∧
    virtualDiamond.program.baseConversion (.record ⟨4⟩) (.record ⟨1⟩) = .reachable 2 ∧
    ∃ x, Leads virtualDiamond.program (.record ⟨4⟩) x (.record ⟨1⟩) ∧ x.length = 2 := by
  have hderived : (virtualDiamond.program.class? (.record ⟨4⟩)).isSome = true := by decide +kernel
  have hbase : (virtualDiamond.program.class? (.record ⟨1⟩)).isSome = true := by decide +kernel
  have hrank : virtualDiamond.rank (.record ⟨4⟩) ≤ 256 := by decide +kernel
  have hlength : ∀ path target, Leads virtualDiamond.program (.record ⟨4⟩) path target →
      path.length ≤ 256 := by
    intro path target h
    have := h.length_add_rank_le reachable_virtualDiamond.valid.ranked
    omega
  have hfew : (pathsFrom virtualDiamond.program 256 (.record ⟨4⟩)).length ≤ 100000 := by
    decide +kernel
  have hpaths : AtMost 100000 fun path =>
      path ≠ [] ∧ ∃ target, Leads virtualDiamond.program (.record ⟨4⟩) path target :=
    fun l hnodup hl => Nat.le_trans (atMost_length_pathsFrom hlength l hnodup hl) hfew
  have hconversion : virtualDiamond.program.baseConversion (.record ⟨4⟩) (.record ⟨1⟩) =
      .reachable 2 := by decide +kernel
  obtain ⟨_, _, _, hreachable⟩ := baseConversion_exact reachable_virtualDiamond (by decide) hderived
    hbase hlength hpaths
  obtain ⟨_, _, hshortest, _⟩ := (hreachable 2).mp hconversion
  exact ⟨reachable_virtualDiamond, hderived, hbase, hlength, hpaths, hconversion, hshortest⟩

end Development
end TypeTraits
