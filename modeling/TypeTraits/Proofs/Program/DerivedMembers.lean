import TypeTraits.Proofs.Program.RelaxedMembers

/-!
# Special members over a relaxed base

The compiler asks whether a base can be constructed, assigned and destroyed as it would ask about an
object on its own. So a base that is abstract, or whose members are protected, deletes the special
members of the classes that derive from it. Relaxing the base tells which of them it has deleted, and
those that no base bars come out as before.
-/

namespace TypeTraits

open Hierarchy

namespace Record

/-- How the special members of a class come out, in `r`, next to how they do in `s` once the class
that it derives from, which is `c`, is relaxed. -/
structure ComesOut (r c s : Record) : Prop where
  default : (r.constructorsTaking 0).map FunctionDecl.flags =
      (s.constructorsTaking 0).map FunctionDecl.flags ↔
    ¬c.Barred 0 ∨ ∀ f ∈ s.constructorsTaking 0, f.deleted = true
  barred : ∀ n, c.Barred n → (∀ f ∈ r.constructorsTaking n, f.deleted = true) ∧
    ((r.constructorsTaking n).map FunctionDecl.flags =
        (s.constructorsTaking n).map FunctionDecl.flags ↔
      ∀ f ∈ s.constructorsTaking n, f.deleted = true)
  unassignable : c.Unassignable → (∀ f ∈ r.assignments, f.deleted = true) ∧
    (r.assignments.map FunctionDecl.flags = s.assignments.map FunctionDecl.flags ↔
      ∀ f ∈ s.assignments, f.deleted = true)
  destructor : r.destructor.map FunctionDecl.flags = s.destructor.map FunctionDecl.flags ↔
    (∀ f, c.destructor = some f → f.access ≠ .prot) ∨ ∀ f, s.destructor = some f → f.deleted = true

end Record

namespace Development

variable {b id : RecordId} {target : Target} {actions : List Action} {path : List Edge}

theorem DeclaresOnly.relaxed (h : DeclaresOnly b actions) :
    DeclaresOnly b (actions.map (·.relaxed b)) := by
  intro id step hmem hmember
  obtain ⟨a, ha, heq⟩ := List.mem_map.mp hmem
  cases a with
  | write id' step' =>
    cases heq
    refine h id step' ha ?_
    split at hmember
    · cases step' <;> first | rfl | exact hmember
    · exact hmember
  | _ => cases heq

/-- What bars a class is seen in those that derive from it. -/
theorem comesOut_of_barredBy {c r s : Record} (hbarred : r.BarredBy c) (hr : r.IsImplicit)
    (hs : s.IsImplicit)
    (hdefault : ¬c.Barred 0 → (r.constructorsTaking 0).map FunctionDecl.flags =
      (s.constructorsTaking 0).map FunctionDecl.flags)
    (hdestructor : (∀ f, c.destructor = some f → f.access ≠ .prot) →
      r.destructor = s.destructor) : r.ComesOut c s := by
  have hconstructors : ∀ n, c.Barred n → ((r.constructorsTaking n).map FunctionDecl.flags =
      (s.constructorsTaking n).map FunctionDecl.flags ↔
        ∀ f ∈ s.constructorsTaking n, f.deleted = true) := by
    intro n hn
    have himplicit := hr.constructors n
    have himplicit' := hs.constructors n
    split at himplicit
    · rename_i hle
      rw [if_pos hle] at himplicit'
      exact himplicit.flags_eq_iff himplicit' (hbarred.constructors n hn)
    · rename_i hlt
      rw [if_neg hlt] at himplicit'
      simp [himplicit, himplicit']
  constructor
  · by_cases h0 : c.Barred 0
    · rw [hconstructors 0 h0]
      exact ⟨Or.inr, fun h => h.resolve_left (not_not_intro h0)⟩
    · exact ⟨fun _ => Or.inl h0, fun _ => hdefault h0⟩
  · exact fun n hn => ⟨hbarred.constructors n hn, hconstructors n hn⟩
  · intro hc
    have hdeleted := hbarred.assignments hc
    exact ⟨hdeleted, hr.assignments.flags_eq_iff hs.assignments hdeleted⟩
  · by_cases hopen : ∀ f, c.destructor = some f → f.access ≠ .prot
    · exact ⟨fun _ => Or.inl hopen, fun _ => congrArg _ (hdestructor hopen)⟩
    · obtain ⟨f, hf, hflags⟩ := hr.destructor
      obtain ⟨f', hf', hflags'⟩ := hs.destructor
      have hundestroyable : c.Undestroyable := by
        intro g hg
        obtain ⟨g', hg', hprot⟩ := by simpa only [not_forall, not_not, exists_prop] using hopen
        cases hg.symm.trans hg'
        simp [FunctionDecl.isUsable, hprot]
      have hdeleted := hbarred.destructor hundestroyable f hf
      rw [hf, hf']
      simp only [Option.map_some, Option.some.injEq, forall_eq', hopen, false_or]
      constructor
      · intro heq
        exact (congrArg MemberFlags.deleted heq).symm.trans hdeleted
      · intro hdeleted'
        rw [hflags hdeleted, hflags' hdeleted']

/-- The special members of a class that derives from `b`, in the program and in the one that has `b`
relaxed. -/
theorem derivedMembers_relaxed (hwritten : ∀ a ∈ actions, a.IsWritten)
    (hdeclares : DeclaresOnly b actions)
    (hpath : Leads (run target actions).program (.record id) path (.record b)) (hne : path ≠ []) :
    ∃ c r s, (run target actions).program.record? b = some c ∧ c.complete = true ∧
      (run target actions).program.record? id = some r ∧ r.complete = true ∧
      (run target (actions.map (·.relaxed b))).program.record? id = some s ∧ s.complete = true ∧
      r.ComesOut c s := by
  obtain ⟨c, r, hc, hcc, hr, hrc, hother, hclass, himplicit, hbarred⟩ :=
    barredBy_of_leads hwritten hdeclares hpath hne
  obtain ⟨s, hs, houtline⟩ := (inStep_run b target actions).exists_record hr
  have hsc : s.complete = true := (congrArg Record.complete houtline :).trans hrc
  have himplicit' : s.IsImplicit := by
    refine (inherits_run (Action.isWritten_map_relaxed b hwritten) hdeclares.relaxed id s hs hsc ?_
      ?_).isImplicit
    · rwa [(Record.kept_of_outline houtline).id]
    · rwa [Record.isUnion, (Record.kept_of_outline houtline).key]
  refine ⟨c, r, s, hc, hcc, hr, hrc, hs, hsc, comesOut_of_barredBy hbarred himplicit himplicit' ?_ ?_⟩
  · intro h0
    have hopen : ∀ c, (run target actions).program.record? b = some c → ¬c.Barred 0 := by
      intro c' hc'
      cases hc.symm.trans hc'
      exact h0
    exact ((related_default hwritten hdeclares hopen id r s hr hrc hs).2 hother).symm
  · intro hpublic
    have hopen : ∀ c, (run target actions).program.record? b = some c → ∀ f,
        c.destructor = some f → f.access ≠ .prot := by
      intro c' hc'
      cases hc.symm.trans hc'
      exact hpublic
    exact (related_destructor hwritten hopen id r s hr hrc hs).symm

/-- An abstract class, and one that overrides what it leaves pure. -/
def square : List Action :=
  [.start "Shape" .struct,
    .write ⟨1⟩ (.pureVirtual "area"),
    .finish ⟨1⟩,
    .start "Square" .struct,
    .write ⟨2⟩ (.base (.record ⟨1⟩)),
    .write ⟨2⟩ (.virtualFunction "area"),
    .finish ⟨2⟩]

theorem isWritten_square : ∀ a ∈ square, a.IsWritten := by
  intro a ha
  simp only [square, List.mem_cons, List.not_mem_nil, or_false] at ha
  rcases ha with rfl | rfl | rfl | rfl | rfl | rfl | rfl
  all_goals first | trivial | exact RecordStep.isWritten_of_types rfl (by decide)

theorem declaresOnly_square : DeclaresOnly ⟨1⟩ square := by
  intro id step hmem hmember
  simp only [square, List.mem_cons, List.not_mem_nil, or_false] at hmem
  rcases hmem with h | h | h | h | h | h | h <;> cases h <;> cases hmember

/-- Objects of the class that overrides it all could be constructed, but for the base. -/
theorem derivedMembers_relaxed_square : (∀ a ∈ square, a.IsWritten) ∧ DeclaresOnly ⟨1⟩ square ∧
    Leads (run .lp64 square).program (.record ⟨2⟩) [⟨0, ⟨.record ⟨1⟩, .pub, false⟩⟩]
      (.record ⟨1⟩) ∧
    ∃ r s, (run .lp64 square).program.record? ⟨2⟩ = some r ∧
      (run .lp64 (square.map (·.relaxed ⟨1⟩))).program.record? ⟨2⟩ = some s ∧
      r.facts.abstract = false ∧ (∀ f ∈ r.constructors, f.deleted = true) ∧
      ∀ f ∈ s.constructors, f.flags = ⟨false, false, true, false⟩ := by
  have hpath : Leads (run .lp64 square).program (.record ⟨2⟩) [⟨0, ⟨.record ⟨1⟩, .pub, false⟩⟩]
      (.record ⟨1⟩) := .cons (by decide +kernel) .nil
  have habstract : ((run .lp64 square).program.record? ⟨1⟩).all (·.facts.abstract) = true := by
    decide +kernel
  have hconcrete : ((run .lp64 square).program.record? ⟨2⟩).all (fun r => !r.facts.abstract &&
      r.constructors.all fun f => f.takes 0 || f.takes 1) = true := by decide +kernel
  have hrelaxed : ((run .lp64 (square.map (·.relaxed ⟨1⟩))).program.record? ⟨2⟩).all
      (fun s => s.constructors.all (·.flags = ⟨false, false, true, false⟩)) = true := by
    decide +kernel
  obtain ⟨c, r, s, hc, _, hr, _, hs, _, hout⟩ :=
    derivedMembers_relaxed isWritten_square declaresOnly_square hpath (by simp)
  rw [hc, Option.all_some] at habstract
  rw [hr, Option.all_some, Bool.and_eq_true, Bool.not_eq_true', List.all_eq_true] at hconcrete
  rw [hs, Option.all_some, List.all_eq_true] at hrelaxed
  refine ⟨isWritten_square, declaresOnly_square, hpath, r, s, hr, hs, hconcrete.1, ?_, ?_⟩
  · intro f hf
    rcases Bool.or_eq_true_iff.mp (hconcrete.2 f hf) with htakes | htakes
    · exact (hout.barred 0 (Or.inl habstract)).1 f (List.mem_filter.mpr ⟨hf, htakes⟩)
    · exact (hout.barred 1 (Or.inl habstract)).1 f (List.mem_filter.mpr ⟨hf, htakes⟩)
  · intro f hf
    simpa using hrelaxed f hf

end Development
end TypeTraits
