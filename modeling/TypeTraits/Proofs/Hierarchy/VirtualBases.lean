import TypeTraits.Proofs.Hierarchy.BaseConversion
import TypeTraits.Proofs.Record.Subobjects

/-!
# Virtual bases and base subobjects

A class passes for a virtual base of another when some path to it has a virtual edge, wherever on
the path that is. A compiler goes by the last edge: a class is a virtual base where it is named as
one. The base subobjects that special members are defined from are those of the first rule, so a
class that is only a non-virtual base of a virtual base is among them, once it is met through another
class.
-/

namespace TypeTraits
namespace Hierarchy

/-- Some path between the classes has a virtual edge. -/
def LeadsVirtually (p : Program) (source target : Ty) : Prop :=
  ∃ path, Leads p source path target ∧ path.any (·.base.isVirtual) = true

/-- The class itself, or one that it derives from, names the target as a virtual base. -/
def NamesVirtually (p : Program) (source target : Ty) : Prop :=
  ∃ path cls r, Leads p source path cls ∧ p.class? cls = some r ∧
    ∃ base ∈ r.bases, base.isVirtual = true ∧ base.type = target

/-- The walks over base classes follow every path from the class. -/
structure WithinLimits (p : Program) (source : Ty) : Prop where
  length : ∀ path target, Leads p source path target → path.length ≤ Limits.hierarchyDepth
  paths : AtMost Limits.guardIterations fun path =>
    path ≠ [] ∧ ∃ target, Leads p source path target

variable {p : Program} {source target t : Ty} {rank : Ty → Nat}

theorem mem_edges_of_mem_bases {r : Record} {base : BaseClass} (hr : p.class? source = some r)
    (h : base ∈ r.bases) : ∃ e ∈ edges p source, e.base = base := by
  rw [← edges_eq hr] at h
  exact List.mem_map.mp h

theorem Leads.append {cls : Ty} {path rest : List Edge} (h : Leads p source path cls)
    (hrest : Leads p cls rest target) : Leads p source (path ++ rest) target := by
  induction h with
  | nil => exact hrest
  | cons he _ ih => exact .cons he (ih hrest)

/-- What is named as a virtual base is reached by a path that ends in a virtual edge. -/
theorem NamesVirtually.leadsVirtually (h : NamesVirtually p source target) :
    LeadsVirtually p source target := by
  obtain ⟨path, cls, r, hpath, hr, base, hbase, hvirtual, rfl⟩ := h
  obtain ⟨e, he, rfl⟩ := mem_edges_of_mem_bases hr hbase
  exact ⟨path ++ [e], hpath.append (.cons he .nil), by simp [hvirtual]⟩

namespace WithinLimits

theorem room (h : WithinLimits p source) :
    Room p rank Limits.hierarchyDepth source (.fresh .hierarchy) :=
  ⟨rfl, rfl, h.length, by simp [Guard.fresh]⟩

theorem length_pathsFrom_le (h : WithinLimits p source) :
    (Guard.fresh .hierarchy : Guard Ty).iterations +
      (pathsFrom p Limits.hierarchyDepth source).length ≤ Limits.guardIterations := by
  have hpaths : (pathsFrom p Limits.hierarchyDepth source).length ≤ Limits.guardIterations := by
    refine h.paths _ (nodup_pathsFrom _ _) fun path hpath => ?_
    obtain ⟨hne, _, hleads⟩ := mem_pathsFrom.mp hpath
    exact ⟨hne, _, hleads⟩
  have hfresh : (Guard.fresh .hierarchy : Guard Ty).iterations = 0 := rfl
  omega

theorem mem_pathsFrom (h : WithinLimits p source) {path : List Edge} :
    path ∈ pathsFrom p Limits.hierarchyDepth source ↔
      path ≠ [] ∧ Leads p source path (endpoint source path) := by
  rw [Hierarchy.mem_pathsFrom]
  exact and_congr_right fun _ => ⟨fun hpath => hpath.2, fun hpath => ⟨h.length _ _ hpath, hpath⟩⟩

/-- Every path is the empty one or listed. -/
theorem mem_cons_pathsFrom (h : WithinLimits p source) {path : List Edge}
    (hpath : Leads p source path target) :
    path ∈ [] :: pathsFrom p Limits.hierarchyDepth source := by
  cases path with
  | nil => exact List.mem_cons_self
  | cons e path =>
    exact List.mem_cons_of_mem _ (h.mem_pathsFrom.mpr ⟨by simp, hpath.endpoint_eq.symm ▸ hpath⟩)

/-- The listed bases of a class are the classes that paths lead to. -/
theorem mem_allBases (h : WithinLimits p source) (hranked : Ranked p rank)
    (hplain : source.unqualified = source) :
    t ∈ p.allBases source ↔ ∃ path, path ≠ [] ∧ Leads p source path t := by
  have hcollect := collect_eq hranked h.room h.length_pathsFrom_le []
  have hbases : p.allBases source =
      (pathsFrom p Limits.hierarchyDepth source).foldl (collectEnd source) [] := by
    rw [Program.allBases, hplain]
    exact congrArg Prod.fst hcollect
  rw [hbases, mem_foldl_collectEnd]
  simp only [List.not_mem_nil, false_or, h.mem_pathsFrom]
  constructor
  · rintro ⟨path, ⟨hne, hpath⟩, rfl⟩
    exact ⟨path, hne, hpath⟩
  · rintro ⟨path, hne, hpath⟩
    have hend := hpath.endpoint_eq
    exact ⟨path, ⟨hne, hend.symm ▸ hpath⟩, hend⟩

/-- The bases of a class are the classes at the ends of its paths. -/
theorem isBaseOf_eq {derived base : RecordId} (h : WithinLimits p (.record derived))
    (hranked : Ranked p rank) (hderived : (p.class? (.record derived)).isSome = true)
    (hbase : (p.class? (.record base)).isSome = true) :
    p.isBaseOf (.record base) (.record derived) = (derived == base ||
      (pathsFrom p Limits.hierarchyDepth (.record derived)).any
        (endpoint (.record derived) · == .record base)) := by
  obtain ⟨_, _, hreaches⟩ :=
    @reaches_eq _ _ _ _ (.record base) _ hranked h.room h.length_pathsFrom_le
  simp only [Program.isBaseOf, Ty.recordId?, Ty.core]
  rw [Program.isClassId_of_class? hderived, Program.isClassId_of_class? hbase, Bool.true_and,
    Bool.true_and, BEq.comm]
  exact congrArg (_ || ·) (congrArg Prod.fst hreaches)

/-- Among the bases of a class those pass for virtual that a path with a virtual edge leads to. -/
theorem isVirtualBaseOf_iff {derived base : RecordId} (h : WithinLimits p (.record derived))
    (hranked : Ranked p rank) (hderived : (p.class? (.record derived)).isSome = true)
    (hbase : (p.class? (.record base)).isSome = true) :
    p.isVirtualBaseOf (.record base) (.record derived) = true ↔
      LeadsVirtually p (.record derived) (.record base) := by
  obtain ⟨_, _, hvirtually⟩ :=
    @reachesVirtually_eq _ _ _ _ (.record base) _ false hranked h.room h.length_pathsFrom_le
  have hplain : ∀ id, (Ty.record id).unqualified = .record id := fun _ => rfl
  have hresult : (reachesVirtually p (.record base) Limits.hierarchyDepth (.record derived)
      false).result = (pathsFrom p Limits.hierarchyDepth (.record derived)).any
        (endsVirtually (.record base) (.record derived) false) :=
    congrArg Prod.fst hvirtually
  rw [Program.isVirtualBaseOf, hplain, hplain, h.isBaseOf_eq hranked hderived hbase, hresult]
  simp only [Bool.and_eq_true, Bool.or_eq_true, List.any_eq_true, bne_iff_ne, beq_iff_eq,
    h.mem_pathsFrom, endsVirtually, Bool.false_or]
  constructor
  · rintro ⟨_, path, ⟨_, hpath⟩, hend, hvirtual⟩
    exact ⟨path, hend ▸ hpath, by simpa using hvirtual⟩
  · rintro ⟨path, hpath, hvirtual⟩
    have hne : path ≠ [] := by
      rintro rfl
      cases hvirtual
    have hend := hpath.endpoint_eq
    have hlower := hpath.length_add_rank_le hranked
    have hpos := List.length_pos_iff.mpr hne
    refine ⟨⟨?_, Or.inr ⟨path, ⟨hne, hend.symm ▸ hpath⟩, hend⟩⟩,
      path, ⟨hne, hend.symm ▸ hpath⟩, hend, by simpa using hvirtual⟩
    intro heq
    rw [heq] at hlower
    omega

end WithinLimits

end Hierarchy

namespace Development

open Hierarchy

variable {d : Development}

/-- The bases of a class are complete classes. -/
theorem Valid.class?_of_mem_edges (h : d.Valid) {source : Ty} {e : Edge}
    (he : e ∈ edges d.program source) :
    ∃ id, e.base.type = .record id ∧ (d.program.class? (.record id)).isSome = true := by
  obtain ⟨r, hr, hmem⟩ := mem_bases_of_mem_edges he
  obtain ⟨id, _, hrecord, hcomplete, _⟩ := Program.class?_eq_some.mp hr
  obtain ⟨⟨b, s, htype, _, hs, hc, hu⟩, _⟩ := (h.bases id r hrecord hcomplete).2 e.base hmem
  have hclass : d.program.class? (.record b) = some s :=
    Program.class?_eq_some.mpr ⟨b, rfl, hs, hc, hu⟩
  exact ⟨b, htype, Option.isSome_of_eq_some hclass⟩

theorem Valid.class?_of_leads (h : d.Valid) {source target : Ty} {path : List Edge}
    (hpath : Leads d.program source path target) (hne : path ≠ []) :
    ∃ id, target = .record id ∧ (d.program.class? (.record id)).isSome = true := by
  obtain ⟨_, _, he, rfl⟩ := hpath.exists_edge hne
  exact h.class?_of_mem_edges he

/-- Later states of a program have the same paths from a complete class. -/
theorem Valid.leads_iff (h : d.Valid) {q : Program} (hext : d.program.Extends q)
    {source target : Ty} {path : List Edge} (hsource : (d.program.class? source).isSome = true) :
    Leads q source path target ↔ Leads d.program source path target := by
  induction path generalizing source with
  | nil => exact ⟨fun | .nil => .nil, fun | .nil => .nil⟩
  | cons e path ih =>
    obtain ⟨r, hr⟩ := Option.isSome_iff_exists.mp hsource
    have hedges : edges q source = edges d.program source := by
      rw [edges, edges, hr, hext.class? hr]
    rw [leads_cons, leads_cons, hedges]
    refine and_congr_right fun he => ?_
    obtain ⟨id, htype, hclass⟩ := h.class?_of_mem_edges he
    exact ih (htype ▸ hclass)

/-- A type is met through a base where a path from the base has a virtual edge. -/
theorem Valid.metThrough_iff (h : d.Valid) {owner : RecordId} {base : BaseClass}
    (hbase : d.program.IsProperBase owner base) (hlimits : WithinLimits d.program base.type)
    {t : Ty} : d.program.MetThrough base t ↔
      (base.isVirtual = true ∧ base.type = t) ∨ LeadsVirtually d.program base.type t := by
  obtain ⟨id, b, htype, _, hb, hc, hu⟩ := hbase
  have hclass : (d.program.class? (.record id)).isSome = true :=
    Option.isSome_of_eq_some (Program.class?_eq_some.mpr ⟨id, rfl, hb, hc, hu⟩)
  unfold Program.MetThrough
  rw [htype] at hlimits ⊢
  refine or_congr_right ?_
  rw [hlimits.mem_allBases h.ranked rfl]
  constructor
  · rintro ⟨⟨path, hne, hpath⟩, hvirtual⟩
    obtain ⟨b, rfl, hb⟩ := h.class?_of_leads hpath hne
    exact (hlimits.isVirtualBaseOf_iff h.ranked hclass hb).mp hvirtual
  · rintro ⟨path, hpath, hvirtual⟩
    have hne : path ≠ [] := by
      rintro rfl
      cases hvirtual
    obtain ⟨b, rfl, hb⟩ := h.class?_of_leads hpath hne
    exact ⟨⟨path, hne, hpath⟩,
      (hlimits.isVirtualBaseOf_iff h.ranked hclass hb).mpr ⟨path, hpath, hvirtual⟩⟩

theorem Valid.leadsVirtually_iff (h : d.Valid) {q : Program} (hext : d.program.Extends q)
    {source target : Ty} (hsource : (d.program.class? source).isSome = true) :
    LeadsVirtually q source target ↔ LeadsVirtually d.program source target := by
  unfold LeadsVirtually
  simp only [h.leads_iff hext hsource]

theorem Valid.withinLimits (h : d.Valid) {q : Program} (hext : d.program.Extends q) {source : Ty}
    (hsource : (d.program.class? source).isSome = true) (hlimits : WithinLimits q source) :
    WithinLimits d.program source := by
  have hleads := fun path target => @Valid.leads_iff d h q hext source target path hsource
  constructor
  · intro path target hpath
    exact hlimits.length path target ((hleads path target).mpr hpath)
  · intro l hnodup hl
    refine hlimits.paths l hnodup fun path hpath => ?_
    obtain ⟨hne, target, hleads'⟩ := hl path hpath
    exact ⟨hne, target, (hleads path target).mpr hleads'⟩

/-- A class that was completed early enough and has few paths is within the limits. -/
theorem Valid.withinLimits_of_rank_le (h : d.Valid) {source : Ty}
    (hrank : d.rank source ≤ Limits.hierarchyDepth)
    (hfew : (pathsFrom d.program Limits.hierarchyDepth source).length ≤ Limits.guardIterations) :
    WithinLimits d.program source := by
  have hlength : ∀ path target, Leads d.program source path target →
      path.length ≤ Limits.hierarchyDepth := by
    intro path target hpath
    have := hpath.length_add_rank_le h.ranked
    omega
  exact ⟨hlength, fun l hnodup hl =>
    Nat.le_trans (atMost_length_pathsFrom hlength l hnodup hl) hfew⟩

/-- The base subobjects that the special members of a complete record were defined from. A class
comes once for each base that names it and is not virtual, and once more if it is met through some
base. These are the subobjects that a compiler goes by if and only if what is met is what is named
as a virtual base. Within the limits of the walks a class is met where a path with a virtual edge
leads to it, so this fails just for a class at the end of such a path that is nowhere named as a
virtual base. -/
theorem baseSubobjects_counted (h : d.Reachable) {id : RecordId} {r : Record}
    (hr : d.program.record? id = some r) (hc : r.complete = true) :
    ∃ (before : Program) (draft : Draft),
      before.Extends d.program ∧ before.completeRecord draft = some r ∧
      let objects := ((before.memberObjects draft.record).filter (·.isBase)).map (·.type)
      let met := fun t => ∃ base ∈ r.bases, before.MetThrough base t
      let passes := fun t => ∃ base ∈ r.bases, (base.isVirtual = true ∧ base.type = t) ∨
        LeadsVirtually d.program base.type t
      let shared := fun t => ∃ base ∈ r.bases, (base.isVirtual = true ∧ base.type = t) ∨
        NamesVirtually d.program base.type t
      Program.CountedAs objects r.bases met ∧
      (Program.CountedAs objects r.bases shared ↔ ∀ t, met t ↔ shared t) ∧
      ((∀ base ∈ r.bases, WithinLimits d.program base.type) → (∀ t, met t ↔ passes t) ∧
        (Program.CountedAs objects r.bases shared ↔ ∀ t, passes t → shared t)) := by
  obtain ⟨before, draft, hvalid, hextends, hcompletes⟩ := h.completion hr hc
  refine ⟨before.program, draft, hextends, hcompletes.completed, ?_⟩
  intro objects met passes shared
  have hbases : r.bases = draft.record.bases := hcompletes.kept.bases
  have hcounted : Program.CountedAs objects r.bases met := by
    have hbefore := before.program.countedAs_baseObjects draft.record
    rw [← Program.memberObjects_filter_isBase, ← hbases] at hbefore
    exact hbefore
  refine ⟨hcounted, hcounted.iff, fun hlimits => ?_⟩
  have hmet : ∀ t, met t ↔ passes t := by
    intro t
    refine exists_congr fun base => and_congr_right fun hbase => ?_
    have hproper := hcompletes.bases base (hbases ▸ hbase)
    have hclass : (before.program.class? base.type).isSome = true := by
      obtain ⟨b, s, htype, _, hs, hcs, hu⟩ := hproper
      have hclass : before.program.class? base.type = some s :=
        Program.class?_eq_some.mpr ⟨b, by rw [htype]; rfl, hs, hcs, hu⟩
      exact Option.isSome_of_eq_some hclass
    have hbefore := hvalid.withinLimits hextends hclass (hlimits base hbase)
    rw [hvalid.metThrough_iff hproper hbefore, hvalid.leadsVirtually_iff hextends hclass]
  refine ⟨hmet, ?_⟩
  rw [hcounted.iff]
  refine forall_congr' fun t => ?_
  rw [hmet t]
  refine ⟨Iff.mp, fun hshared => ⟨hshared, ?_⟩⟩
  rintro ⟨base, hbase, hvirtual | hnames⟩
  · exact ⟨base, hbase, Or.inl hvirtual⟩
  · exact ⟨base, hbase, Or.inr hnames.leadsVirtually⟩

/-- A class whose base has a virtual base that derives from a class without default constructor. -/
def sharedMiddle : Development :=
  run .lp64
    [.start "Root" .struct,
      .write ⟨1⟩ (.constructor (.declare [.builtin .int] .void [])),
      .finish ⟨1⟩,
      .start "Middle" .struct,
      .write ⟨2⟩ (.base (.record ⟨1⟩)),
      .write ⟨2⟩ (.constructor (.declare [] .void [])),
      .finish ⟨2⟩,
      .start "Shared" .struct,
      .write ⟨3⟩ (.virtualBase (.record ⟨2⟩)),
      .finish ⟨3⟩,
      .start "Leaf" .struct,
      .write ⟨4⟩ (.base (.record ⟨3⟩)),
      .finish ⟨4⟩]

theorem reachable_sharedMiddle : sharedMiddle.Reachable := by
  refine (Reachable.fresh .lp64).performAll ?_
  intro a ha
  simp only [List.mem_cons, List.not_mem_nil, or_false] at ha
  rcases ha with rfl | rfl | rfl | rfl | rfl | rfl | rfl | rfl | rfl | rfl | rfl | rfl | rfl
  case inr.inl | inr.inr.inr.inr.inr.inl => exact RecordStep.isWritten_of_declare rfl (by decide)
  all_goals first | trivial | exact RecordStep.isWritten_of_types rfl (by decide)

theorem withinLimits_sharedMiddle : WithinLimits sharedMiddle.program (.record ⟨3⟩) :=
  reachable_sharedMiddle.valid.withinLimits_of_rank_le (by decide +kernel) (by decide +kernel)

theorem leadsVirtually_sharedMiddle :
    LeadsVirtually sharedMiddle.program (.record ⟨3⟩) (.record ⟨1⟩) := by
  have hmem : ((pathsFrom sharedMiddle.program Limits.hierarchyDepth (.record ⟨3⟩)).any fun path =>
      endpoint (.record ⟨3⟩) path == .record ⟨1⟩ && path.any (·.base.isVirtual)) = true := by
    decide +kernel
  obtain ⟨path, hpath, hend⟩ := List.any_eq_true.mp hmem
  obtain ⟨hend, hvirtual⟩ := Bool.and_eq_true_iff.mp hend
  exact ⟨path, beq_iff_eq.mp hend ▸ (mem_pathsFrom.mp hpath).2.2, hvirtual⟩

theorem not_namesVirtually_sharedMiddle :
    ¬NamesVirtually sharedMiddle.program (.record ⟨3⟩) (.record ⟨1⟩) := by
  rintro ⟨path, cls, s, hleads, hs, base, hbase, hvirtual, htype⟩
  have hnone : ([] :: pathsFrom sharedMiddle.program Limits.hierarchyDepth (.record ⟨3⟩)).all
      (fun path => (sharedMiddle.program.class? (endpoint (.record ⟨3⟩) path)).all fun s =>
        s.bases.all fun base => !(base.isVirtual && base.type == .record ⟨1⟩)) = true := by
    decide +kernel
  have hcls := List.all_eq_true.mp hnone path (withinLimits_sharedMiddle.mem_cons_pathsFrom hleads)
  rw [hleads.endpoint_eq, hs] at hcls
  have hnot := List.all_eq_true.mp hcls base hbase
  simp [hvirtual, htype] at hnot

/-- The root is among the base subobjects of the leaf, although nothing names it as a virtual base,
and so the leaf has no default constructor. -/
theorem baseSubobjects_counted_sharedMiddle : sharedMiddle.Reachable ∧
    ∃ r, sharedMiddle.program.record? ⟨4⟩ = some r ∧ r.complete = true ∧
      r.bases = [⟨.record ⟨3⟩, .pub, false⟩] ∧
      (r.constructors.all fun f => !f.takes 0 || f.deleted) = true ∧
      ∃ (before : Program) (draft : Draft),
        before.Extends sharedMiddle.program ∧ before.completeRecord draft = some r ∧
        .record ⟨1⟩ ∈ ((before.memberObjects draft.record).filter (·.isBase)).map (·.type) ∧
        ¬Program.CountedAs (((before.memberObjects draft.record).filter (·.isBase)).map (·.type))
          r.bases fun t => ∃ base ∈ r.bases, (base.isVirtual = true ∧ base.type = t) ∨
            NamesVirtually sharedMiddle.program base.type t := by
  have hrecord : ((sharedMiddle.program.record? ⟨4⟩).any fun r => r.complete &&
      r.bases == [⟨.record ⟨3⟩, .pub, false⟩] &&
      r.constructors.all fun f => !f.takes 0 || f.deleted) = true := by decide +kernel
  obtain ⟨r, hr, hrecord⟩ := (Option.any_eq_true _ _).mp hrecord
  simp only [Bool.and_eq_true, beq_iff_eq] at hrecord
  obtain ⟨⟨hc, hbases⟩, hdeleted⟩ := hrecord
  obtain ⟨before, draft, hextends, hcompletes, hcounted, _, hwithin⟩ :=
    baseSubobjects_counted reachable_sharedMiddle hr hc
  obtain ⟨hmet, hshared⟩ := hwithin (by simpa [hbases] using withinLimits_sharedMiddle)
  have hpasses : ∃ base ∈ r.bases, (base.isVirtual = true ∧ base.type = .record ⟨1⟩) ∨
      LeadsVirtually sharedMiddle.program base.type (.record ⟨1⟩) :=
    ⟨_, by rw [hbases]; exact List.mem_cons_self, Or.inr leadsVirtually_sharedMiddle⟩
  refine ⟨reachable_sharedMiddle, r, hr, hc, hbases, hdeleted, before, draft, hextends, hcompletes,
    ?_, ?_⟩
  · rw [← List.count_pos_iff]
    have hcount := (hcounted (.record ⟨1⟩)).1 ((hmet _).mpr hpasses)
    omega
  · rw [hshared]
    intro hall
    obtain ⟨base, hbase, hvirtual | hnames⟩ := hall _ hpasses
    all_goals rw [hbases, List.mem_singleton] at hbase; subst hbase
    · cases hvirtual.1
    · exact not_namesVirtually_sharedMiddle hnames

end Development
end TypeTraits
