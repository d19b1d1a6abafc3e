import TypeTraits.Proofs.Expr.Scalar
import TypeTraits.Proofs.Expr.Selection
import TypeTraits.Proofs.Record.Effects

/-!
# Default construction of complete classes

The fact that a class has a trivial default constructor is read off its constructors; the checker
selects one of them. Where one is selected the two agree: a class of which an object is
default-initialized has the fact exactly if the selected constructor is trivial.
-/

namespace TypeTraits

namespace Synthesis

variable {s : Synthesis} {draft : Draft} {inheritsVirtual : Bool} {r : Record} {f : FunctionDecl}

theorem params_ne_nil_of_moveConstructor {declared : FunctionDecl}
    (h : r.specialConstructor? declared = some .moveConstructor) : declared.params ≠ [] := by
  intro hparams
  unfold Record.specialConstructor? Special.ofConstructor? at h
  rw [hparams] at h
  cases hvariadic : declared.variadic <;> rw [hvariadic] at h <;> cases h

/-- A constructor that takes nothing is not hidden by its definition. -/
theorem hidden_of_defineConstructor {declared : FunctionDecl} (hdeclared : declared.hidden = false)
    (h : (s.defineConstructor r declared).Returns f) (hparams : f.params = []) :
    f.hidden = false := by
  unfold defineConstructor at h
  split at h
  · exact Check.returns_pure.mp h ▸ hdeclared
  · split at h
    · obtain ⟨o, _, h⟩ := h.bind
      exact Check.returns_pure.mp h ▸ hdeclared
    · obtain ⟨o, _, h⟩ := h.bind
      exact Check.returns_pure.mp h ▸ hdeclared
    · rename_i hspecial
      obtain ⟨o, _, h⟩ := h.bind
      cases Check.returns_pure.mp h
      exact absurd hparams (params_ne_nil_of_moveConstructor hspecial)
    · exact Check.returns_pure.mp h ▸ hdeclared

/-- An implicit constructor is not hidden: a move constructor that would be is not declared. -/
theorem hidden_of_implicitConstructor {added : List FunctionDecl} {d : Declared} (hf : f ∈ added)
    (h : (s.implicitDefault d).Returns added ∨ (s.implicitCopyConstructor draft d).Returns added ∨
      (s.implicitMoveConstructor draft d).Returns added) : f.hidden = false := by
  rcases h with h | h | h
  · unfold implicitDefault at h
    split at h
    · cases Check.returns_pure.mp h
      cases hf
    · obtain ⟨o, _, h⟩ := h.bind
      cases Check.returns_pure.mp h
      cases List.mem_singleton.mp hf
      rfl
  · simp only [implicitCopyConstructor] at h
    split at h
    · cases Check.returns_pure.mp h
      cases hf
    · split at h <;>
      · obtain ⟨o, _, h⟩ := h.bind
        cases Check.returns_pure.mp h
        cases List.mem_singleton.mp hf
        rfl
  · unfold implicitMoveConstructor at h
    split at h
    · cases Check.returns_pure.mp h
      cases hf
    · obtain ⟨o, _, h⟩ := h.bind
      cases Check.returns_pure.mp h
      split at hf
      · cases hf
      · cases List.mem_singleton.mp hf
        rfl

/-- The compiler hides no constructor that takes nothing. -/
theorem hidden_of_complete (hwritten : ∀ f ∈ draft.record.constructors, f.hidden = false)
    (h : (s.complete draft inheritsVirtual).Returns r) :
    ∀ f ∈ r.constructors, f.params = [] → f.hidden = false := by
  intro f hf hparams
  unfold complete at h
  obtain ⟨constructors, hconstructors, h⟩ := h.bind
  obtain ⟨_, _, h⟩ := h.bind
  obtain ⟨default, hdefault, h⟩ := h.bind
  obtain ⟨copy, hcopy, h⟩ := h.bind
  obtain ⟨move, hmove, h⟩ := h.bind
  obtain ⟨_, _, h⟩ := h.bind
  obtain ⟨_, _, h⟩ := h.bind
  obtain ⟨_, _, h⟩ := h.bind
  cases Check.returns_pure.mp h
  simp only [List.append_assoc, List.mem_append] at hf
  rcases hf with hf | hf | hf | hf
  · obtain ⟨declared, hmem, hdefine⟩ := hconstructors.mapM f hf
    exact hidden_of_defineConstructor (hwritten declared hmem) hdefine hparams
  · exact @hidden_of_implicitConstructor s draft f _ _ hf (Or.inl hdefault)
  · exact @hidden_of_implicitConstructor s draft f _ _ hf (Or.inr (Or.inl hcopy))
  · exact @hidden_of_implicitConstructor s draft f _ _ hf (Or.inr (Or.inr hmove))

end Synthesis

namespace Record

variable {r : Record}

/-- What the facts of a complete class say about its default constructors and copy operations. -/
structure DefaultFacts (r : Record) : Prop where
  trivial : r.facts.trivial = (r.facts.triviallyCopyable && r.facts.trivialDefaultConstructor)
  default : r.facts.trivialDefaultConstructor = r.isTriviallyDefaultConstructible
  visible : ∀ f ∈ r.constructors, f.params = [] → f.hidden = false
  functions : r.TrivialFunctions

/-- Default construction that is well-formed calls the only visible default constructor. -/
theorem defaultConstruction_eq_ok {e : Effects} (h : r.defaultConstruction = .ok e) :
    ∃ f, r.constructors.filter (fun f => f.params.isEmpty && !f.hidden) = [f] ∧
      f.deleted = false ∧ e = ⟨f.noexcept, f.trivial⟩ := by
  unfold defaultConstruction at h
  split at h
  · cases h
  · split at h
    · cases h
    · rename_i f honly
      refine ⟨f, honly, ?_⟩
      split at h
      · cases h
      · split at h
        · cases h
        · cases h
          exact ⟨by simpa using ‹¬f.deleted = true›, rfl⟩
    · cases h

/-- A special constructor without parameters has no variable arguments either. -/
theorem takes_zero_of_specialConstructor? {f : FunctionDecl}
    (h : (r.specialConstructor? f).isSome = true) (hparams : f.params = []) : f.takes 0 = true := by
  unfold specialConstructor? Special.ofConstructor? at h
  rw [hparams] at h
  cases hvariadic : f.variadic <;> rw [hvariadic] at h
  · simp [FunctionDecl.takes, hparams, hvariadic]
  · cases h

/-- Where one default constructor is selected it is the only one, and the one that decides about the
fact. -/
theorem DefaultFacts.trivial_defaultConstruction (hr : r.DefaultFacts) {e : Effects}
    (h : r.defaultConstruction = .ok e) : e.trivial = r.facts.trivialDefaultConstructor := by
  obtain ⟨f, honly, hdeleted, heffects⟩ := defaultConstruction_eq_ok h
  have hf : f ∈ r.constructors ∧ f.params = [] := by
    have hmem : f ∈ r.constructors.filter fun f => f.params.isEmpty && !f.hidden := by
      simp [honly]
    simpa [List.mem_filter, and_assoc] using
      (List.mem_filter.mp hmem).imp_right fun hf => (Bool.and_eq_true_iff.mp hf).1
  have hunique : ∀ g ∈ r.constructors, g.takes 0 = true → g = f := by
    intro g hg htakes
    have hparams : g.params = [] := by
      simpa [FunctionDecl.takes] using (Bool.and_eq_true_iff.mp htakes).1
    have hmem : g ∈ r.constructors.filter fun f => f.params.isEmpty && !f.hidden :=
      List.mem_filter.mpr ⟨hg, by simp [hparams, hr.visible g hg hparams]⟩
    rw [honly] at hmem
    exact List.mem_singleton.mp hmem
  rw [hr.default, heffects, Bool.eq_iff_iff, isTriviallyDefaultConstructible]
  dsimp only
  rw [Bool.and_eq_true, List.all_eq_true, Bool.not_eq_true', List.isEmpty_eq_false_iff_exists_mem]
  constructor
  · intro htrivial
    have htakes :=
      takes_zero_of_specialConstructor? (hr.functions.constructors f hf.1 htrivial) hf.2
    refine ⟨⟨f, List.mem_filter.mpr ⟨hf.1, by simp [htakes, hdeleted]⟩⟩, fun g hg => ?_⟩
    obtain ⟨hg, hdefault⟩ := List.mem_filter.mp hg
    rw [hunique g hg (Bool.and_eq_true_iff.mp hdefault).1, htrivial]
  · rintro ⟨⟨g, hg⟩, hall⟩
    have hmem := List.mem_filter.mp hg
    have htrivial := hall g hg
    rwa [hunique g hmem.1 (Bool.and_eq_true_iff.mp hmem.2).1] at htrivial

end Record

namespace Development

theorem Reachable.defaultFacts {d : Development} (h : d.Reachable) {t : Ty} {r : Record}
    (hr : d.program.completeRecord? t = some r) : r.DefaultFacts := by
  have hfacts := Reachable.forall_complete (Q := fun _ r =>
    r.facts.trivial = (r.facts.triviallyCopyable && r.facts.trivialDefaultConstructor) ∧
      r.facts.trivialDefaultConstructor = r.isTriviallyDefaultConstructible ∧
      ∀ f ∈ r.constructors, f.params = [] → f.hidden = false) (fun _ _ _ _ hr => hr) ?_ h
  · obtain ⟨hrecord, hc⟩ := Option.filter_eq_some_iff.mp hr
    obtain ⟨id, _, hid⟩ := Option.bind_eq_some_iff.mp hrecord
    obtain ⟨htrivial, hdefault, hvisible⟩ := hfacts id r hid hc
    exact ⟨htrivial, hdefault, hvisible, (h.trivialFunctions id r hid hc).2⟩
  · intro d draft r _ _ hc
    obtain ⟨done, layout, hdone, _, rfl⟩ := Program.completeRecord_eq_some hc.completed
    refine ⟨rfl, rfl, @Synthesis.hidden_of_complete _ draft _ done (fun f hf => ?_) hdone⟩
    exact (hc.written f (by simp [Record.allFunctions, hf])).hidden

end Development

namespace Program

variable {p : Program}

theorem completeRecord?_unqualified {t : Ty} (ht : t.isNormal = true) :
    p.completeRecord? t.unqualified = p.completeRecord? t := by
  simp only [completeRecord?, recordOf?, Ty.recordId?_unqualified ht]

/-- Whether an element of the type is default-initialized trivially, where it is at all. -/
def hasTrivialDefault (p : Program) (t : Ty) : Bool :=
  t.isScalar || (p.completeRecord? t).any (·.facts.trivialDefaultConstructor)

variable (hp : ∀ {t : Ty} {r : Record}, p.completeRecord? t = some r → r.DefaultFacts)

include hp

theorem trivial_of_constructStep_nil {t : Ty} {deeper : Checker} {e : Effects}
    (ht : t.isNormal = true) (harray : t.isArray = false)
    (h : (p.constructStep deeper t []).Returns e) : e.trivial = p.hasTrivialDefault t := by
  unfold constructStep at h
  split at h
  · simp at h
  · rename_i hreference
    split at h
    · simp at h
    · rename_i hobject
      rw [Bool.not_eq_true] at hreference hobject
      unfold hasTrivialDefault
      cases hrecord : t.isRecord with
      | true =>
        have hclass : (p.constructClass deeper t []).Returns e := by
          cases t <;> simp_all [Ty.isArray, Ty.arrayParts?]
        rw [constructClass_noArguments, completeRecord?_unqualified ht, Check.returns_ofFormed]
          at hclass
        rw [isScalar_of_isRecord hrecord, Bool.false_or]
        cases hr : p.completeRecord? t with
        | none => simp [hr] at hclass
        | some r =>
          rw [hr] at hclass
          exact (hp hr).trivial_defaultConstruction hclass
      | false =>
        have hscalar := isScalar_of_object ht hreference hobject harray hrecord
        have hnone : (Effects.none) = e := by
          cases t <;> simp_all [Ty.isArray, Ty.arrayParts?]
        rw [hscalar, ← hnone]
        rfl

/-- What is constructed from nothing is constructed trivially exactly if its elements are. -/
theorem trivial_of_construct_nil {t : Ty} {depth : Nat} {e : Effects} (ht : t.isNormal = true)
    (h : ((p.checkerBelow depth).construct t []).Returns e) :
    e.trivial = p.hasTrivialDefault t.element := by
  induction t using Ty.inductionOn generalizing depth with
  | array t b ih =>
    obtain ⟨deeper, h⟩ := construct_returns h
    cases b with
    | none => simp [constructStep, Ty.isReference, Ty.referent?, Ty.isVoid, Ty.core, Ty.isFunction] at h
    | some n =>
      simp only [constructStep, Ty.isReference, Ty.referent?, Ty.isVoid, Ty.core, Ty.isFunction] at h
      exact ih ht h
  | _ =>
    obtain ⟨deeper, h⟩ := construct_returns h
    exact trivial_of_constructStep_nil hp ht rfl h

end Program
end TypeTraits
