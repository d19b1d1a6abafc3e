import TypeTraits.Proofs.Hierarchy.VirtualBases

/-!
# Bases are what paths lead to

Whatever the guard of a walk denies, a class passes for a base of another only if a path leads to it.
Within the limits of the walks the converse holds as well: the bases of a class, the list of them
and those that pass for virtual are told by the paths that leave it.
-/

namespace TypeTraits
namespace Hierarchy

variable {p : Program} {source : Ty} {derived base : RecordId} {rank : Ty → Nat}

theorem nodup_foldl_collectEnd {paths : List (List Edge)} {seen : List Ty} (hseen : seen.Nodup) :
    (paths.foldl (collectEnd source) seen).Nodup := by
  induction paths generalizing seen with
  | nil => exact hseen
  | cons path paths ih => exact ih (nodup_collectEnd hseen path)

/-- A path that ends elsewhere than it starts leaves a class. -/
theorem Leads.class? {path : List Edge} {target : Ty} (h : Leads p source path target)
    (hne : target ≠ source) : path ≠ [] ∧ (p.class? source).isSome = true := by
  cases h with
  | nil => exact absurd rfl hne
  | cons he _ =>
    obtain ⟨r, hr, _⟩ := mem_bases_of_mem_edges he
    exact ⟨by simp, Option.isSome_of_eq_some hr⟩

/-- Without any bound a path leads to what passes for a base. -/
theorem exists_path_of_isBaseOf (hne : base ≠ derived)
    (h : p.isBaseOf (.record base) (.record derived) = true) :
    ∃ path, Leads p (.record derived) path (.record base) := by
  simp only [Program.isBaseOf, Ty.recordId?, Ty.core, Bool.and_eq_true, Bool.or_eq_true] at h
  obtain ⟨path, _, hpath⟩ := reaches_sound (h.2.resolve_left (by simpa using hne))
  exact ⟨path, hpath⟩

/-- Without any bound a path leads to each base that is listed. -/
theorem exists_path_of_mem_allBases {t u : Ty} (h : u ∈ p.allBases t) :
    ∃ path, path ≠ [] ∧ Leads p t.unqualified path u := by
  have hall : ∀ u ∈ p.allBases t, ∃ path, path ≠ [] ∧ Leads p t.unqualified path u := by
    apply @collect_preserves p _ _ _ (fun source => ∃ path, Leads p t.unqualified path source)
      (fun seen => ∀ u ∈ seen, ∃ path, path ≠ [] ∧ Leads p t.unqualified path u)
    · rintro source ⟨path, hpath⟩ e he
      exact ⟨path ++ [e], hpath.append (.cons he .nil)⟩
    · rintro source ⟨path, hpath⟩ e he seen hseen u hu
      rcases mem_collectEnd.mp hu with hu | rfl
      · exact hseen u hu
      · exact ⟨path ++ [e], by simp, hpath.append (.cons he .nil)⟩
    · exact ⟨[], .nil⟩
    · simp
  exact hall u h

theorem WithinLimits.nodup_allBases (h : WithinLimits p (.record derived))
    (hranked : Ranked p rank) : (p.allBases (.record derived)).Nodup := by
  have hcollect := collect_eq hranked h.room h.length_pathsFrom_le []
  have hbases : p.allBases (.record derived) =
      (pathsFrom p Limits.hierarchyDepth (.record derived)).foldl
        (collectEnd (.record derived)) [] :=
    congrArg Prod.fst hcollect
  rw [hbases]
  exact nodup_foldl_collectEnd List.nodup_nil

end Hierarchy

namespace Development

open Hierarchy

variable {d : Development} {derived base : RecordId}

/-- A path between two records is one between classes. -/
theorem Valid.classes_of_leads (h : d.Valid) (hne : base ≠ derived) {path : List Edge}
    (hpath : Leads d.program (.record derived) path (.record base)) :
    path ≠ [] ∧ (d.program.class? (.record derived)).isSome = true ∧
      (d.program.class? (.record base)).isSome = true := by
  obtain ⟨hnonempty, hderived⟩ := hpath.class? fun heq => hne (Ty.record.inj heq)
  obtain ⟨_, heq, hbase⟩ := h.class?_of_leads hpath hnonempty
  cases heq
  exact ⟨hnonempty, hderived, hbase⟩

theorem Valid.isBaseOf_iff (h : d.Valid) (hlimits : WithinLimits d.program (.record derived))
    (hne : base ≠ derived) :
    d.program.isBaseOf (.record base) (.record derived) = true ↔
      ∃ path, Leads d.program (.record derived) path (.record base) := by
  constructor
  · exact exists_path_of_isBaseOf hne
  · rintro ⟨path, hpath⟩
    obtain ⟨hnonempty, hderived, hbase⟩ := h.classes_of_leads hne hpath
    have hend := hpath.endpoint_eq
    rw [hlimits.isBaseOf_eq h.ranked hderived hbase, Bool.or_eq_true, List.any_eq_true]
    exact Or.inr ⟨path, hlimits.mem_pathsFrom.mpr ⟨hnonempty, hend.symm ▸ hpath⟩,
      beq_iff_eq.mpr hend⟩

/-- Within the limits of the walks a path to another class makes it a base. -/
theorem Valid.related_of_leads (h : d.Valid) {t u : Ty} (hu : u.isNormal = true) {path : List Edge}
    (hlimits : path ≠ [] → WithinLimits d.program u.unqualified)
    (hpath : Leads d.program u.unqualified path t.unqualified) :
    u.unqualified = t.unqualified ∨ d.program.isBaseOf t.unqualified u.unqualified = true := by
  refine Classical.or_iff_not_imp_left.mpr fun hne => ?_
  obtain ⟨hnonempty, hclass⟩ := hpath.class? (Ne.symm hne)
  obtain ⟨base, hbase, -⟩ := h.class?_of_leads hpath hnonempty
  obtain ⟨derived, hderived⟩ : ∃ derived, u.unqualified = .record derived := by
    obtain ⟨r, hr⟩ := Option.isSome_iff_exists.mp hclass
    obtain ⟨derived, hid, -⟩ := Program.class?_eq_some.mp hr
    exact ⟨derived, Ty.eq_record_of_recordId? hu hid⟩
  have hlimits := hlimits hnonempty
  rw [hderived] at hne hpath hlimits ⊢
  rw [hbase] at hne hpath ⊢
  exact (h.isBaseOf_iff hlimits fun heq => hne (congrArg Ty.record heq.symm)).mpr ⟨path, hpath⟩

theorem Valid.isVirtualBaseOf_iff_leadsVirtually (h : d.Valid)
    (hlimits : WithinLimits d.program (.record derived)) (hne : base ≠ derived) :
    d.program.isVirtualBaseOf (.record base) (.record derived) = true ↔
      LeadsVirtually d.program (.record derived) (.record base) := by
  have hiff {path : List Edge}
      (hpath : Leads d.program (.record derived) path (.record base)) :
      d.program.isVirtualBaseOf (.record base) (.record derived) = true ↔
        LeadsVirtually d.program (.record derived) (.record base) := by
    obtain ⟨_, hderived, hbase⟩ := h.classes_of_leads hne hpath
    exact hlimits.isVirtualBaseOf_iff h.ranked hderived hbase
  constructor
  · intro hvirtual
    have hbase : d.program.isBaseOf (.record base) (.record derived) = true := by
      simp only [Program.isVirtualBaseOf, Bool.and_eq_true] at hvirtual
      exact hvirtual.1.2
    obtain ⟨_, hpath⟩ := exists_path_of_isBaseOf hne hbase
    exact (hiff hpath).mp hvirtual
  · rintro ⟨path, hpath, hvirtual⟩
    exact (hiff hpath).mpr ⟨path, hpath, hvirtual⟩

/-- The listed bases of a class are the other classes that paths lead to. -/
theorem Valid.mem_allBases_iff (h : d.Valid) (hlimits : WithinLimits d.program (.record derived))
    {t : Ty} :
    t ∈ d.program.allBases (.record derived) ↔
      ∃ base, t = .record base ∧ base ≠ derived ∧
        ∃ path, Leads d.program (.record derived) path t := by
  rw [hlimits.mem_allBases h.ranked rfl]
  constructor
  · rintro ⟨path, hnonempty, hpath⟩
    obtain ⟨base, rfl, _⟩ := h.class?_of_leads hpath hnonempty
    refine ⟨base, rfl, ?_, path, hpath⟩
    -- A path back to where it starts would raise the rank.
    rintro rfl
    have hlower := hpath.length_add_rank_le h.ranked
    have hpos := List.length_pos_iff.mpr hnonempty
    omega
  · rintro ⟨base, rfl, hne, path, hpath⟩
    exact ⟨path, (h.classes_of_leads hne hpath).1, hpath⟩

/-- A class passes for a base of another one only if a path leads to it. Where the walks can follow
every path that leaves a class, it has as bases, as listed bases and as virtual bases exactly the
other classes that a path leads to, that path having a virtual edge for the last of the three; and
each base is listed once. -/
theorem bases_iff_paths (h : d.Reachable) :
    (∀ derived base, base ≠ derived →
      d.program.isBaseOf (.record base) (.record derived) = true →
      ∃ path, Leads d.program (.record derived) path (.record base)) ∧
    ∀ derived, WithinLimits d.program (.record derived) →
      (∀ base, base ≠ derived → (d.program.isBaseOf (.record base) (.record derived) = true ↔
        ∃ path, Leads d.program (.record derived) path (.record base))) ∧
      (∀ t, t ∈ d.program.allBases (.record derived) ↔ ∃ base, t = .record base ∧
        base ≠ derived ∧ ∃ path, Leads d.program (.record derived) path t) ∧
      (d.program.allBases (.record derived)).Nodup ∧
      ∀ base, base ≠ derived →
        (d.program.isVirtualBaseOf (.record base) (.record derived) = true ↔
          ∃ path, Leads d.program (.record derived) path (.record base) ∧
            path.any (·.base.isVirtual) = true) := by
  refine ⟨fun _ _ => exists_path_of_isBaseOf, fun derived hlimits => ⟨?_, ?_, ?_, ?_⟩⟩
  · exact fun _ => h.valid.isBaseOf_iff hlimits
  · exact fun _ => h.valid.mem_allBases_iff hlimits
  · exact hlimits.nodup_allBases h.valid.ranked
  · exact fun _ => h.valid.isVirtualBaseOf_iff_leadsVirtually hlimits

/-- The root is a virtual base by way of a class that derives from it as usual; the leaf is no base
of its own base, since no path leads down. -/
theorem bases_iff_paths_sharedMiddle :
    sharedMiddle.Reachable ∧ WithinLimits sharedMiddle.program (.record ⟨3⟩) ∧
    sharedMiddle.program.isVirtualBaseOf (.record ⟨1⟩) (.record ⟨3⟩) = true ∧
    (∃ path, Leads sharedMiddle.program (.record ⟨3⟩) path (.record ⟨1⟩) ∧
      path.any (·.base.isVirtual) = true) ∧
    .record ⟨1⟩ ∈ sharedMiddle.program.allBases (.record ⟨3⟩) ∧
    (sharedMiddle.program.allBases (.record ⟨3⟩)).Nodup ∧
    sharedMiddle.program.isBaseOf (.record ⟨4⟩) (.record ⟨3⟩) = false ∧
    ¬∃ path, Leads sharedMiddle.program (.record ⟨3⟩) path (.record ⟨4⟩) := by
  have hvirtual : sharedMiddle.program.isVirtualBaseOf (.record ⟨1⟩) (.record ⟨3⟩) = true := by
    decide +kernel
  have hnot : sharedMiddle.program.isBaseOf (.record ⟨4⟩) (.record ⟨3⟩) = false := by
    decide +kernel
  obtain ⟨_, hexact⟩ := bases_iff_paths reachable_sharedMiddle
  obtain ⟨hbases, hlisted, hnodup, hvirtually⟩ := hexact ⟨3⟩ withinLimits_sharedMiddle
  obtain ⟨path, hpath, hany⟩ := (hvirtually ⟨1⟩ (by decide)).mp hvirtual
  refine ⟨reachable_sharedMiddle, withinLimits_sharedMiddle, hvirtual, ⟨path, hpath, hany⟩,
    (hlisted _).mpr ⟨⟨1⟩, rfl, by decide, path, hpath⟩, hnodup, hnot, fun hleads => ?_⟩
  have hbase := (hbases ⟨4⟩ (by decide)).mpr hleads
  rw [hnot] at hbase
  cases hbase

end Development
end TypeTraits
