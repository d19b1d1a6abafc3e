import TypeTraits.Proofs.Hierarchy.Reachability
import TypeTraits.Proofs.Record.Facts

/-!
# Abstract classes and final overriders

A class counts as abstract where some path from it to a pure declaration passes no declaration of
the same function. A compiler looks further: an override in a class beside the path, one that
derives from the class with the pure declaration through a shared virtual base, makes the function
no longer pure. So a class that a compiler finds abstract counts as abstract, and the converse
fails just where every pure function that is met on such a path is overridden beside it.
-/

namespace TypeTraits

/-- Whether a complete class declares a virtual function of some name itself, pure or not. -/
def Program.declares (p : Program) (t : Ty) (name : String) (pure : Bool) : Bool :=
  (p.completeRecord? t).any (·.virtualFunctions.contains ⟨name, pure⟩)

namespace Hierarchy

variable {p : Program} {source target : Ty} {path : List Edge} {name : String} {e : Edge}
  {rank : Ty → Nat}

/-- The path leads to a pure declaration, and no class before its end declares the function. -/
structure Exposes (p : Program) (source : Ty) (path : List Edge) (target : Ty) (name : String) :
    Prop where
  leads : Leads p source path target
  pure : p.declares target name true = true
  undeclared : ∀ front, front <+: path → front ≠ path → ∀ pure,
    p.declares (endpoint source front) name pure = false

/-- The class or one of its bases declares the function pure, and none of them that derives from
this one overrides it. -/
structure LeavesPure (p : Program) (source target : Ty) (name : String) : Prop where
  leads : ∃ path, Leads p source path target
  pure : p.declares target name true = true
  notOverridden : ∀ cls front back, Leads p source front cls → Leads p cls back target →
    back ≠ [] → p.declares cls name false = false

theorem exposes_nil : Exposes p source [] target name ↔
    source = target ∧ p.declares target name true = true := by
  constructor
  · rintro ⟨⟨⟩, hpure, -⟩
    exact ⟨rfl, hpure⟩
  · rintro ⟨rfl, hpure⟩
    refine ⟨.nil, hpure, fun front hfront hne => ?_⟩
    exact absurd (List.prefix_nil.mp hfront) hne

theorem exposes_cons : Exposes p source (e :: path) target name ↔
    e ∈ edges p source ∧ (∀ pure, p.declares source name pure = false) ∧
      Exposes p e.base.type path target name := by
  constructor
  · rintro ⟨hleads, hpure, hundeclared⟩
    obtain ⟨he, hleads⟩ := leads_cons.mp hleads
    refine ⟨he, hundeclared [] List.nil_prefix (by simp), hleads, hpure, ?_⟩
    intro front hfront hne
    exact hundeclared (e :: front) (List.cons_prefix_cons.mpr ⟨rfl, hfront⟩) (by simpa using hne)
  · rintro ⟨he, hsource, hleads, hpure, hundeclared⟩
    refine ⟨.cons he hleads, hpure, ?_⟩
    intro front hfront hne
    cases front with
    | nil => exact hsource
    | cons e' front =>
      obtain ⟨rfl, hrest⟩ := List.cons_prefix_cons.mp hfront
      exact hundeclared front hrest (by simpa using hne)

/-- The end of an initial part of a path lies on the path. -/
theorem Leads.split (h : Leads p source path target) {front : List Edge} (hfront : front <+: path) :
    ∃ back, path = front ++ back ∧ Leads p source front (endpoint source front) ∧
      Leads p (endpoint source front) back target := by
  induction h generalizing front with
  | nil =>
    rw [List.prefix_nil.mp hfront]
    exact ⟨[], rfl, .nil, .nil⟩
  | @cons source _ e path he hrest ih =>
    cases front with
    | nil => exact ⟨_, rfl, .nil, .cons he hrest⟩
    | cons e' front =>
      obtain ⟨rfl, hfirst⟩ := List.cons_prefix_cons.mp hfront
      obtain ⟨back, rfl, hleads, hback⟩ := ih hfirst
      exact ⟨back, rfl, .cons he hleads, hback⟩

/-- Where no class below a pure declaration declares the function, every path exposes it. -/
theorem exposes_of_undeclared (hleads : Leads p source path target)
    (hpure : p.declares target name true = true)
    (hundeclared : ∀ cls front back, Leads p source front cls → Leads p cls back target →
      back ≠ [] → ∀ pure, p.declares cls name pure = false) :
    Exposes p source path target name := by
  refine ⟨hleads, hpure, fun front hfront hne => ?_⟩
  obtain ⟨back, rfl, hfirst, hback⟩ := hleads.split hfront
  apply hundeclared _ front back hfirst hback
  rintro rfl
  exact hne (List.append_nil front).symm

/-- Of the classes that leave a function pure, one that is highest in rank is exposed. -/
theorem LeavesPure.exists_exposed (hranked : Ranked p rank) (h : LeavesPure p source target name) :
    ∃ path cls, Exposes p source path cls name ∧ LeavesPure p source cls name := by
  induction hn : rank source - rank target using Nat.strongRecOn generalizing target with
  | ind n ih =>
    obtain ⟨⟨path, hpath⟩, hpure, hnot⟩ := h
    by_cases hmore : ∃ cls front back, Leads p source front cls ∧ Leads p cls back target ∧
        back ≠ [] ∧ p.declares cls name true = true
    · -- A class below declares the function pure once more, and is no more overridden.
      obtain ⟨cls, front, back, hfront, hback, hne, hcls⟩ := hmore
      have hlower := hback.length_add_rank_le hranked
      have hupper := hfront.length_add_rank_le hranked
      have hpos := List.length_pos_iff.mpr hne
      refine ih (rank source - rank cls) (by omega) ⟨⟨front, hfront⟩, hcls, ?_⟩ rfl
      intro cls' front' back' hfront' hback' hne'
      exact hnot cls' front' (back' ++ back) hfront' (hback'.append hback) (by simp [hne'])
    · refine ⟨path, target, exposes_of_undeclared hpath hpure ?_, ⟨path, hpath⟩, hpure, hnot⟩
      intro cls front back hfront hback hne pure
      cases pure with
      | false => exact hnot cls front back hfront hback hne
      | true =>
        rw [← Bool.not_eq_true]
        exact fun hcls => hmore ⟨cls, front, back, hfront, hback, hne, hcls⟩

/-- A class that overrides the function and derives from the one at the end of the path, without
lying on the path. -/
def OverriddenBeside (p : Program) (source : Ty) (path : List Edge) (target : Ty) (name : String) :
    Prop :=
  ∃ cls front back, Leads p source front cls ∧ Leads p cls back target ∧ back ≠ [] ∧
    p.declares cls name false = true ∧ ∀ start, start <+: path → endpoint source start ≠ cls

/-- What is exposed and not overridden beside the path is left pure. -/
theorem Exposes.leavesPure (hranked : Ranked p rank) (h : Exposes p source path target name)
    (hnot : ¬OverriddenBeside p source path target name) : LeavesPure p source target name := by
  refine ⟨⟨path, h.leads⟩, h.pure, fun cls front back hfront hback hne => ?_⟩
  rw [← Bool.not_eq_true]
  intro hcls
  refine hnot ⟨cls, front, back, hfront, hback, hne, hcls, fun start hstart hend => ?_⟩
  by_cases hwhole : start = path
  · -- The class would be the one at the end, which lies above it.
    have hsame := h.leads.endpoint_eq
    rw [← hwhole, hend] at hsame
    have hlower := hback.length_add_rank_le hranked
    have hpos := List.length_pos_iff.mpr hne
    rw [hsame] at hlower
    omega
  · have hundeclared := h.undeclared start hstart hwhole false
    rw [hend, hcls] at hundeclared
    cases hundeclared

end Hierarchy

namespace Development

open Hierarchy

variable {d : Development} {id : RecordId} {r : Record} {name : String}

theorem declares_record (hr : d.program.record? id = some r) (hc : r.complete = true)
    (name : String) (pure : Bool) :
    d.program.declares (.record id) name pure = r.virtualFunctions.contains ⟨name, pure⟩ := by
  have hcomplete : d.program.completeRecord? (.record id) = some r :=
    Program.completeRecord?_eq_some.mpr ⟨id, rfl, hr, hc⟩
  rw [Program.declares, hcomplete, Option.any_some]

/-- What a complete record leaves pure, told by its direct bases. -/
theorem Reachable.mem_unresolvedPure_iff (h : d.Reachable) (hr : d.program.record? id = some r)
    (hc : r.complete = true) : name ∈ r.facts.unresolvedPure ↔
      (∃ e ∈ edges d.program (.record id),
        (∀ pure, d.program.declares (.record id) name pure = false) ∧
          ∃ b, d.program.completeRecord? e.base.type = some b ∧ name ∈ b.facts.unresolvedPure) ∨
      d.program.declares (.record id) name true = true := by
  obtain ⟨before, draft, -, hextends, hcompletes⟩ := h.completion hr hc
  rw [hcompletes.unresolvedPure, Program.mem_unresolvedPure, declares_record hr hc,
    List.contains_iff_mem, hcompletes.virtualFunctions]
  apply or_congr_left
  have hbases : (edges d.program (.record id)).map (·.base) = draft.record.bases := by
    rw [← hcompletes.kept.bases]
    cases hunion : r.isUnion with
    | false => exact edges_eq (Program.class?_eq_some.mpr ⟨id, rfl, hr, hc, hunion⟩)
    | true =>
      have hclass : d.program.class? (.record id) = none := by
        rw [Option.eq_none_iff_forall_ne_some]
        intro s hs
        obtain ⟨_, hid, hs, -, hclass⟩ := Program.class?_eq_some.mp hs
        cases hid
        cases hr.symm.trans hs
        simp [hunion] at hclass
      rw [(h.valid.bases id r hr hc).1 hunion, edges_of_class?_eq_none hclass]
      rfl
  have hundeclared : (∀ pure, d.program.declares (.record id) name pure = false) ↔
      ∀ pure, ⟨name, pure⟩ ∉ draft.record.virtualFunctions := by
    simp only [declares_record hr hc, hcompletes.virtualFunctions, ← Bool.not_eq_true,
      List.contains_iff_mem]
  rw [hundeclared]
  constructor
  · rintro ⟨b, hb, hname, hnone⟩
    obtain ⟨base, hbase, hb⟩ := List.mem_filterMap.mp hb
    rw [← hbases] at hbase
    obtain ⟨e, he, rfl⟩ := List.mem_map.mp hbase
    exact ⟨e, he, hnone, b, hextends.completeRecord? hb, hname⟩
  · rintro ⟨e, he, hnone, b, hb, hname⟩
    have hbase : e.base ∈ draft.record.bases := hbases ▸ List.mem_map_of_mem he
    obtain ⟨b', hb', hmem, -⟩ := hcompletes.completeBase e.base hbase
    cases (hextends.completeRecord? hb').symm.trans hb
    exact ⟨b, hmem, hname, hnone⟩

/-- A complete record leaves pure what some path from it exposes. -/
theorem Reachable.mem_unresolvedPure_iff_exposes (h : d.Reachable)
    (hr : d.program.record? id = some r) (hc : r.complete = true) :
    name ∈ r.facts.unresolvedPure ↔
      ∃ path target, Exposes d.program (.record id) path target name := by
  induction hn : d.rank (.record id) using Nat.strongRecOn generalizing id r with
  | ind n ih =>
    have hbase : ∀ e ∈ edges d.program (.record id), ∀ b,
        d.program.completeRecord? e.base.type = some b →
        (name ∈ b.facts.unresolvedPure ↔
          ∃ path target, Exposes d.program e.base.type path target name) := by
      intro e he b hb
      have hlower := h.valid.ranked (.record id) e he
      obtain ⟨base, htype, -⟩ := h.valid.class?_of_mem_edges he
      rw [htype] at hb hlower ⊢
      obtain ⟨_, hid, hb, hbc⟩ := Program.completeRecord?_eq_some.mp hb
      cases hid
      exact ih _ (hn ▸ hlower) hb hbc rfl
    rw [h.mem_unresolvedPure_iff hr hc]
    constructor
    · rintro (⟨e, he, hundeclared, b, hb, hname⟩ | hpure)
      · obtain ⟨path, target, hexposes⟩ := (hbase e he b hb).mp hname
        exact ⟨e :: path, target, exposes_cons.mpr ⟨he, hundeclared, hexposes⟩⟩
      · exact ⟨[], .record id, exposes_nil.mpr ⟨rfl, hpure⟩⟩
    · rintro ⟨path, target, hexposes⟩
      cases path with
      | nil =>
        obtain ⟨rfl, hpure⟩ := exposes_nil.mp hexposes
        exact Or.inr hpure
      | cons e path =>
        obtain ⟨he, hundeclared, hexposes⟩ := exposes_cons.mp hexposes
        obtain ⟨base, htype, hclass⟩ := h.valid.class?_of_mem_edges he
        obtain ⟨b, hb⟩ := Option.isSome_iff_exists.mp hclass
        obtain ⟨_, hid, hb, hbc, -⟩ := Program.class?_eq_some.mp hb
        have hcomplete : d.program.completeRecord? e.base.type = some b :=
          Program.completeRecord?_eq_some.mpr ⟨_, htype ▸ hid, hb, hbc⟩
        exact Or.inl ⟨e, he, hundeclared, b, hcomplete,
          (hbase e he b hcomplete).mpr ⟨path, target, hexposes⟩⟩

/-- Abstract classes, told by paths: a class counts as abstract exactly if some path exposes a pure
function. It does if a class among it and its bases declares a function pure and none of them that
derives from that class declares it at all. That some function is left pure without being
overridden in any class follows as well, unless each of those exposed is overridden beside the path
that exposes it. -/
theorem abstract_told_by_paths (h : d.Reachable) (hr : d.program.record? id = some r)
    (hc : r.complete = true) :
    (r.facts.abstract = true ↔
      ∃ path target name, Exposes d.program (.record id) path target name) ∧
    (∀ path target name, Leads d.program (.record id) path target →
      d.program.declares target name true = true →
      (∀ cls front back, Leads d.program (.record id) front cls →
        Leads d.program cls back target → back ≠ [] →
          ∀ pure, d.program.declares cls name pure = false) →
      r.facts.abstract = true) ∧
    ((r.facts.abstract = true → ∃ target name, LeavesPure d.program (.record id) target name) ↔
      ¬(r.facts.abstract = true ∧ ∀ path target name,
        Exposes d.program (.record id) path target name →
          OverriddenBeside d.program (.record id) path target name)) := by
  have habstract : r.facts.abstract = true ↔
      ∃ path target name, Exposes d.program (.record id) path target name := by
    obtain ⟨_, _, -, -, hcompletes⟩ := h.completion hr hc
    rw [hcompletes.abstract_iff, ne_eq, List.eq_nil_iff_forall_not_mem]
    simp only [h.mem_unresolvedPure_iff_exposes hr hc, not_forall, not_not]
    exact ⟨fun ⟨name, path, target, hexposes⟩ => ⟨path, target, name, hexposes⟩,
      fun ⟨path, target, name, hexposes⟩ => ⟨name, path, target, hexposes⟩⟩
  refine ⟨habstract, ?_, ?_, ?_⟩
  · intro path target name hleads hpure hundeclared
    exact habstract.mpr ⟨path, target, name, exposes_of_undeclared hleads hpure hundeclared⟩
  · rintro himplies ⟨hholds, hbeside⟩
    obtain ⟨target, name, hleaves⟩ := himplies hholds
    obtain ⟨path, cls, hexposes, hleaves⟩ := hleaves.exists_exposed h.valid.ranked
    obtain ⟨other, front, back, hfront, hback, hne, hoverrides, -⟩ := hbeside path cls name hexposes
    rw [hleaves.notOverridden other front back hfront hback hne] at hoverrides
    cases hoverrides
  · intro hnot hholds
    by_contra hnone
    refine hnot ⟨hholds, fun path target name hexposes => ?_⟩
    by_contra hbeside
    exact hnone ⟨target, name, hexposes.leavesPure h.valid.ranked hbeside⟩

/-- A class with a pure function, two classes that have it as a virtual base, one of which overrides
the function, and a class that derives from both. -/
def sharedShape : Development :=
  run .lp64
    [.start "Shape" .struct,
      .write ⟨1⟩ (.pureVirtual "area"),
      .finish ⟨1⟩,
      .start "Square" .struct,
      .write ⟨2⟩ (.virtualBase (.record ⟨1⟩)),
      .write ⟨2⟩ (.virtualFunction "area"),
      .finish ⟨2⟩,
      .start "Tinted" .struct,
      .write ⟨3⟩ (.virtualBase (.record ⟨1⟩)),
      .finish ⟨3⟩,
      .start "TintedSquare" .struct,
      .write ⟨4⟩ (.base (.record ⟨2⟩)),
      .write ⟨4⟩ (.base (.record ⟨3⟩)),
      .finish ⟨4⟩]

theorem reachable_sharedShape : sharedShape.Reachable := by
  refine (Reachable.fresh .lp64).performAll ?_
  intro a ha
  simp only [List.mem_cons, List.not_mem_nil, or_false] at ha
  rcases ha with rfl | rfl | rfl | rfl | rfl | rfl | rfl | rfl | rfl | rfl | rfl | rfl | rfl | rfl
  all_goals first | trivial | exact RecordStep.isWritten_of_types rfl (by decide)

theorem withinLimits_sharedShape : WithinLimits sharedShape.program (.record ⟨4⟩) :=
  reachable_sharedShape.valid.withinLimits_of_rank_le (by decide +kernel) (by decide +kernel)

/-- Only the area of a shape is declared pure. -/
theorem declares_sharedShape {id : RecordId} {name : String}
    (h : sharedShape.program.declares (.record id) name true = true) : id = ⟨1⟩ ∧ name = "area" := by
  rw [Program.declares, Option.any_eq_true] at h
  obtain ⟨r, hr, hname⟩ := h
  obtain ⟨_, hid, hr, -⟩ := Program.completeRecord?_eq_some.mp hr
  cases hid
  have hdeclared : sharedShape.program.records.toList.all (fun r =>
      r.virtualFunctions.all fun f => !f.pure || (r.id == ⟨1⟩ && f.name == "area")) = true := by
    decide +kernel
  have hmem : r ∈ sharedShape.program.records.toList := by
    rw [Program.record?] at hr
    split at hr
    · cases hr
    · exact (Array.mem_of_getElem? hr).val
  have hpure := List.all_eq_true.mp (List.all_eq_true.mp hdeclared r hmem) _
    (List.contains_iff_mem.mp hname)
  simpa [reachable_sharedShape.valid.id id r hr] using hpure

/-- The shape is one subobject, and the square overrides its area, yet the tinted square counts as
abstract. -/
theorem abstract_told_by_paths_sharedShape : sharedShape.Reachable ∧
    ∃ r, sharedShape.program.record? ⟨4⟩ = some r ∧ r.complete = true ∧
      (∀ target x y, Leads sharedShape.program (.record ⟨4⟩) x target →
        Leads sharedShape.program (.record ⟨4⟩) y target → named x = named y) ∧
      r.facts.abstract = true ∧
      (∃ path target name, Exposes sharedShape.program (.record ⟨4⟩) path target name) ∧
      ¬∃ target name, LeavesPure sharedShape.program (.record ⟨4⟩) target name := by
  have hrecord : ((sharedShape.program.record? ⟨4⟩).any fun r =>
      r.complete && r.facts.abstract) = true := by decide +kernel
  obtain ⟨r, hr, hfacts⟩ := (Option.any_eq_true _ _).mp hrecord
  obtain ⟨hc, habstract⟩ := Bool.and_eq_true_iff.mp hfacts
  refine ⟨reachable_sharedShape, r, hr, hc, ?_, habstract,
    (abstract_told_by_paths reachable_sharedShape hr hc).1.mp habstract, ?_⟩
  · intro target x y hx hy
    have hnamed : ([] :: pathsFrom sharedShape.program Limits.hierarchyDepth (.record ⟨4⟩)).all
        (fun x => ([] :: pathsFrom sharedShape.program Limits.hierarchyDepth (.record ⟨4⟩)).all
          fun y => endpoint (.record ⟨4⟩) x != endpoint (.record ⟨4⟩) y || named x == named y) =
        true := by
      decide +kernel
    have hx' := List.all_eq_true.mp hnamed x (withinLimits_sharedShape.mem_cons_pathsFrom hx)
    have hy' := List.all_eq_true.mp hx' y (withinLimits_sharedShape.mem_cons_pathsFrom hy)
    simpa [hx.endpoint_eq, hy.endpoint_eq] using hy'
  · rintro ⟨target, name, ⟨path, hpath⟩, hpure, hnot⟩
    obtain ⟨id, rfl⟩ : ∃ id, target = .record id := by
      cases path with
      | nil => exact ⟨⟨4⟩, hpath.endpoint_eq.symm⟩
      | cons e path =>
        obtain ⟨id, hid, -⟩ := reachable_sharedShape.valid.class?_of_leads hpath (by simp)
        exact ⟨id, hid⟩
    obtain ⟨rfl, rfl⟩ := declares_sharedShape hpure
    have hsquare := hnot (.record ⟨2⟩) [⟨0, ⟨.record ⟨2⟩, .pub, false⟩⟩]
      [⟨0, ⟨.record ⟨1⟩, .pub, true⟩⟩] (.cons (by decide +kernel) .nil)
      (.cons (by decide +kernel) .nil) (by simp)
    have hoverrides : sharedShape.program.declares (.record ⟨2⟩) "area" false = true := by
      decide +kernel
    rw [hsquare] at hoverrides
    cases hoverrides

end Development
end TypeTraits
