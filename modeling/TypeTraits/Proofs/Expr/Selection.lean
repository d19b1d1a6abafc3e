import Mathlib.Order.Defs.PartialOrder
import TypeTraits.Expr.Operators
import TypeTraits.Proofs.Expr.Checker
import TypeTraits.Proofs.Expr.Resolution
import TypeTraits.Proofs.Ty.NormalForm

/-!
# What constructing, assigning and destroying an object calls

Constructing an object of class type calls a constructor that takes as many arguments, assigning to
one an assignment operator, and destroying one the destructor. The function that is called is not
deleted and may be called from outside the class, and a class that is constructed is not abstract.
The call is as trivial and as non-throwing as the function at most.
-/

namespace TypeTraits

namespace Effects

/-- Effects are ordered by what they promise: `b` is trivial, and cannot throw, where `a` is and
cannot. -/
instance : Preorder Effects where
  le a b := (a.nothrow = true → b.nothrow = true) ∧ (a.trivial = true → b.trivial = true)
  le_refl _ := ⟨id, id⟩
  le_trans _ _ _ h h' := ⟨h'.1 ∘ h.1, h'.2 ∘ h.2⟩

theorem and_le_left (a b : Effects) : a.and b ≤ a :=
  ⟨fun h => (Bool.and_eq_true_iff.mp h).1, fun h => (Bool.and_eq_true_iff.mp h).1⟩

theorem and_le_right (a b : Effects) : a.and b ≤ b :=
  ⟨fun h => (Bool.and_eq_true_iff.mp h).2, fun h => (Bool.and_eq_true_iff.mp h).2⟩

end Effects

namespace FunctionDecl

/-- The effects of the function itself. -/
def effects (f : FunctionDecl) : Effects := ⟨f.noexcept, f.trivial⟩

/-- The function takes so many arguments. -/
def Accepts (f : FunctionDecl) (n : Nat) : Prop :=
  f.params.length = n ∨ (f.variadic = true ∧ f.params.length < n)

/-- Code outside the class may select the function for so many arguments. -/
structure Offers (f : FunctionDecl) (n : Nat) : Prop where
  accepts : f.Accepts n
  hidden : f.hidden = false
  usable : f.isUsable = true

end FunctionDecl

/-- A call promises no more than the function that is called. -/
theorem Candidate.callEffects_le (c : Candidate) (conversions : List (Option Conversion)) :
    c.callEffects conversions ≤ c.function.effects := by
  have hfold : ∀ (l : List Conversion) (e : Effects),
      l.foldl (fun e conversion => e.and conversion.effects) e ≤ e := by
    intro l
    induction l with
    | nil => exact fun e => le_refl e
    | cons conversion l ih => exact fun e => le_trans (ih _) (e.and_le_left _)
  unfold callEffects
  cases c.result with
  | none => exact hfold _ _
  | some r => exact le_trans (Effects.and_le_left _ _) (hfold _ _)

/-- Code outside the class calls the function with the arguments, to the effects `e`. -/
structure Program.Calls (p : Program) (f : FunctionDecl) (args : List Expr) (e : Effects) :
    Prop where
  offers : f.Offers args.length
  converts : ∀ pair ∈ args.zip f.params,
    ∃ depth c, ((p.checkerBelow depth).convert pair.1 pair.2 .copy true).Returns c
  effects : e ≤ f.effects

namespace Program

variable {p : Program} {convert : ConvertArgument} {object : Option Expr} {args : List Expr}
  {allowUser : Bool} {t : Ty}

theorem accepts_of_viableConversions {c : Candidate} {conversions : List (Option Conversion)}
    (hset : c.id.set ≠ .conversion)
    (h : (p.viableConversions convert object args allowUser c).Returns (some conversions)) :
    c.function.Accepts args.length := by
  simp only [viableConversions, if_neg hset] at h
  split at h
  · simp at h
  · rename_i harity
    simp only [Bool.or_eq_true, Bool.and_eq_true, decide_eq_true_eq, Bool.not_eq_true', not_or,
      not_and, Bool.not_eq_false] at harity
    obtain ⟨hleast, hmost⟩ := harity
    by_cases hexact : c.function.params.length = args.length
    · exact Or.inl hexact
    · exact Or.inr ⟨hmost (by omega), by omega⟩

/-- Overload resolution among functions of a record selects one that may be called. -/
theorem calls_of_resolve {r : Record} {set : FunctionSet} {mode : InitMode} {cls : Option Ty}
    {depth : Nat} {s : Selection} (hset : set ≠ .conversion)
    (h : (p.resolve (p.checkerBelow depth).convert (r.candidates set mode cls) object args
      true).Returns s) :
    ∃ f ∈ r.functions set, p.Calls f args s.effects := by
  obtain ⟨c, hc, conversions, hviable, hselect⟩ := resolve_returns h
  obtain ⟨hmem, _, _, hid, hhidden, _⟩ := Record.mem_candidates hc
  obtain ⟨hdeleted, haccess, rfl⟩ := Candidate.select_eq_ok_iff.mp hselect
  have hset : c.id.set ≠ .conversion := hid ▸ hset
  exact ⟨c.function, hmem,
    ⟨accepts_of_viableConversions hset hviable, hhidden,
      by simp [FunctionDecl.isUsable, hdeleted, haccess]⟩,
    fun pair hpair => ⟨depth, viableConversions_converts hset hviable pair hpair⟩,
    c.callEffects_le conversions⟩

/-- An object of a class that is constructed from other than a prvalue. -/
theorem calls_of_directInit {id : RecordId} {e : Effects} (ht : t.recordId? = some id)
    (hargs : ∀ arg ∈ args, arg.category ≠ .prvalue) (h : (p.directInit t args).Returns e) :
    ∃ r, p.completeRecord? (.record id) = some r ∧ r.facts.abstract = false ∧
      ∃ f ∈ r.constructors, p.Calls f args e := by
  rw [directInit, checker_eq] at h
  obtain ⟨deeper, h⟩ := construct_returns h
  have hbody : (p.constructClass (p.checkerBelow deeper) t args).Returns e := by
    cases t with
    | qualified t cv => cases t <;> first | exact h | cases ht
    | _ => first | exact h | cases ht
  unfold constructClass at hbody
  rw [Ty.unqualified_of_recordId? ht] at hbody
  dsimp only at hbody
  split at hbody
  · simp at hbody
  · rename_i r hr
    by_cases habstract : r.facts.abstract = true
    · simp [habstract] at hbody
    · refine ⟨r, hr, by simpa using habstract, ?_⟩
      rw [if_neg habstract] at hbody
      have hresolve : ∀ {result : Effects},
          (do
            let selection ← p.resolve (p.checkerBelow deeper).convert
              (r.candidates .constructor .direct none) none args true
            return selection.effects : Check Effects).Returns result →
          ∃ f ∈ r.constructors, p.Calls f args result := by
        intro result h
        obtain ⟨s, hs, h⟩ := h.bind
        exact Check.returns_pure.mp h ▸ calls_of_resolve (by decide) hs
      split at hbody
      · rw [if_neg fun hprvalue => hargs _ (by simp) hprvalue.1] at hbody
        exact hresolve hbody
      · exact hresolve hbody

/-- An object of a class that is assigned to. -/
theorem calls_of_assign {id : RecordId} {a b : Expr} {e : Effects}
    (ha : a.type.recordId? = some id) (h : (p.assign a b).Returns e) :
    ∃ r, p.completeRecord? (.record id) = some r ∧ ∃ f ∈ r.assignments, p.Calls f [b] e := by
  have hrecord : a.type.isRecord = true := by rw [Ty.isRecord, ha]; rfl
  simp only [assign, Ty.unqualified_of_recordId? ha] at h
  split at h
  · simp at h
  · split at h
    · simp at h
    · rename_i r hr
      obtain ⟨s, hs, h⟩ := h.bind
      rw [checker_eq] at hs
      exact ⟨r, hr, Check.returns_pure.mp h ▸ calls_of_resolve (by decide) hs⟩

/-- Destroying an object of class type calls a destructor that may be called. -/
theorem destroy_eq_ok {e : Effects} (ht : t.isRecord = true) (h : p.destroy t = .ok e) :
    ∃ r f, p.completeRecord? t = some r ∧ r.destructor = some f ∧ f.deleted = false ∧
      f.access = .pub ∧ e = f.effects := by
  unfold destroy at h
  split at h <;> try cases ht
  rw [if_neg (by simp [Ty.isVoid_of_isRecord ht]), if_neg (by simp [ht])] at h
  split at h
  · cases h
  · rename_i r hr
    split at h
    · cases h
    · rename_i f hf
      split at h
      · cases h
      · rename_i hdeleted
        split at h
        · cases h
        · rename_i haccess
          cases h
          exact ⟨r, f, hr, hf, by simpa using hdeleted, by simpa using haccess, rfl⟩

end Program

theorem Record.isTemplate_of_mem_candidates {r : Record} {set : FunctionSet} {mode : InitMode}
    {object : Option Ty} {c : Candidate} (h : c ∈ r.candidates set mode object) :
    c.isTemplate = false := by
  obtain ⟨⟨f, i⟩, _, hc⟩ := List.mem_filterMap.mp h
  dsimp only at hc
  split at hc <;> cases hc
  rfl

/-- Direct initialization considers all functions that are not hidden. -/
theorem Record.functions_candidates (r : Record) (set : FunctionSet) (object : Option Ty) :
    (r.candidates set .direct object).map (·.function) =
      (r.functions set).filter (!·.hidden) := by
  have hindexed : ∀ (fs : List FunctionDecl) (n : Nat),
      ((fs.zipIdx n).filterMap fun f =>
        if f.1.hidden || (InitMode.direct == .copy && f.1.explicit) then none
        else some ({ id := ⟨r.id, set, f.2⟩, function := f.1, object } : Candidate)).map
          (·.function) =
      fs.filter (!·.hidden) := by
    intro fs
    induction fs with
    | nil => intro n; rfl
    | cons f fs ih =>
      intro n
      rw [List.zipIdx_cons, List.filterMap_cons]
      have hrest := ih (n + 1)
      cases hhidden : f.hidden <;> simp_all
  exact hindexed (r.functions set) 0

/-- How code outside the class default-initializes an object of the class. -/
def Record.defaultConstruction (r : Record) : Formed Effects :=
  if r.facts.abstract then .error .abstractClass
  else
    match r.constructors.filter fun f => f.params.isEmpty && !f.hidden with
    | [] => .error .noViableFunction
    | [f] =>
      if f.deleted then .error .deleted
      else if f.access != .pub then .error .inaccessible
      else .ok ⟨f.noexcept, f.trivial⟩
    | _ => .error .ambiguous

/-- How code outside the class destroys an object of the class. -/
def Record.destruction (r : Record) : Formed Effects :=
  match r.destructor with
  | none => .error .deleted
  | some f =>
    if f.deleted then .error .deleted
    else if f.access != .pub then .error .inaccessible
    else .ok ⟨f.noexcept, f.trivial⟩

/-- How code outside a class destroys an object of it. -/
def Program.destroyClass (p : Program) (t : Ty) : Formed Effects :=
  match p.completeRecord? t with
  | none => .error .incompleteType
  | some r => r.destruction

namespace Candidate

/-- Without arguments no candidate is better than another. -/
theorem best?_of_noArguments {cs : List Candidate} :
    (∀ c ∈ cs, c.isTemplate = false ∧ c.result = none) →
    best? (cs.map (·, [none])) =
      match cs with
      | [c] => some (c, [none])
      | _ => none := by
  intro h
  have hbetter : ∀ a ∈ cs, ∀ b ∈ cs, isBetter (a, [none]) (b, [none]) = false := by
    intro a ha b hb
    simp [isBetter, h a ha, h b hb]
  match cs with
  | [] => rfl
  | [c] => rfl
  | c :: c' :: cs =>
    -- Whichever candidate is looked at, the first or the second is another one.
    simp only [best?, Option.map_eq_none_iff, List.find?_eq_none]
    rintro ⟨⟨a, conversions⟩, i⟩ hmem hall
    obtain ⟨a', ha, heq⟩ := List.mem_map.mp (List.fst_mem_of_mem_zipIdx hmem)
    cases heq
    rw [List.all_eq_true] at hall
    have hfirst := hall ((c, [none]), 0) (by simp)
    have hsecond := hall ((c', [none]), 1) (by simp [List.zipIdx_cons])
    simp only [hbetter _ ha c (by simp), hbetter _ ha c' (by simp), Bool.or_false, beq_iff_eq]
      at hfirst hsecond
    omega

end Candidate

namespace Program

variable {p : Program}

theorem viableConversions_noArguments (convert : ConvertArgument) {c : Candidate}
    (hset : c.id.set ≠ .conversion) (hobject : c.object = none) :
    p.viableConversions convert none [] true c =
      pure (if c.function.params.isEmpty then some [none] else none) := by
  unfold viableConversions
  rw [if_neg hset]
  cases c.function.params <;> simp [hobject, argumentConversions]

/-- Without arguments the one function that takes none is selected. -/
theorem resolve_noArguments (convert : ConvertArgument) {cs : List Candidate}
    (h : ∀ c ∈ cs, c.id.set ≠ .conversion ∧ c.object = none ∧ c.isTemplate = false ∧
      c.result = none) :
    p.resolve convert cs none [] true = Check.ofFormed
      (match cs.filter (·.function.params.isEmpty) with
      | [] => .error .noViableFunction
      | [c] => c.select [none]
      | _ => .error .ambiguous) := by
  have hviable : (cs.filterMapM fun c => do
      let conversions ← p.viableConversions convert none [] true c
      return conversions.map (c, ·) : Check (List (Candidate × List (Option Conversion)))) =
      pure ((cs.filter (·.function.params.isEmpty)).map (·, [none])) := by
    rw [Check.filterMapM_eq_pure (g := fun c =>
      if c.function.params.isEmpty then some (c, [none]) else none)]
    · congr 1
      rw [← List.filterMap_eq_filter, List.map_filterMap]
      congr 1
      funext c
      by_cases hparams : c.function.params.isEmpty = true <;> simp [hparams, Option.guard]
    · intro c hc
      obtain ⟨hset, hobject, _⟩ := h c hc
      rw [viableConversions_noArguments convert hset hobject, pure_bind]
      split <;> rfl
  have hempty : ∀ c ∈ cs.filter (·.function.params.isEmpty),
      c.isTemplate = false ∧ c.result = none := fun c hc => (h c (List.mem_filter.mp hc).1).2.2
  unfold resolve
  rw [hviable, pure_bind, Candidate.best?_of_noArguments hempty]
  generalize cs.filter (·.function.params.isEmpty) = empty
  rcases empty with _ | ⟨c, _ | ⟨c', rest⟩⟩ <;> rfl

theorem constructClass_noArguments (deeper : Checker) (t : Ty) :
    p.constructClass deeper t [] = Check.ofFormed
      (((p.completeRecord? t.unqualified).map (·.defaultConstruction)).getD
        (.error .incompleteType)) := by
  unfold constructClass
  dsimp only
  cases p.completeRecord? t.unqualified with
  | none => rfl
  | some r =>
    rw [Option.map_some, Option.getD_some, Record.defaultConstruction]
    dsimp only
    split
    · rfl
    · have hcandidate : ∀ c ∈ r.candidates .constructor .direct none, c.id.set ≠ .conversion ∧
          c.object = none ∧ c.isTemplate = false ∧ c.result = none := by
        intro c hc
        obtain ⟨_, hresult, hobject, hset, _⟩ := Record.mem_candidates hc
        exact ⟨by simp [hset], hobject, Record.isTemplate_of_mem_candidates hc, hresult⟩
      have hfunctions := r.functions_candidates .constructor none
      replace hfunctions := congrArg (List.filter (·.params.isEmpty)) hfunctions
      rw [List.filter_map, List.filter_filter] at hfunctions
      rw [resolve_noArguments deeper.convert hcandidate]
      have hresult : ∀ c ∈ (r.candidates .constructor .direct none).filter
          (·.function.params.isEmpty), c.result = none := fun c hc =>
        (hcandidate c (List.mem_filter.mp hc).1).2.2.2
      change List.map _ ((r.candidates .constructor .direct none).filter
        (·.function.params.isEmpty)) = r.constructors.filter _ at hfunctions
      rw [← hfunctions]
      generalize (r.candidates .constructor .direct none).filter (·.function.params.isEmpty) = cs
        at hresult
      rcases cs with _ | ⟨c, _ | ⟨c', rest⟩⟩
      · rfl
      · simp only [List.map_cons, List.map_nil, Candidate.select, hresult c (by simp)]
        split
        · rfl
        · split <;> rfl
      · rfl

variable {q : Program} {t : Ty}

/-- Constructing without arguments goes by how the class of the elements is default-initialized. -/
theorem directInit_noArguments_congr
    (h : (q.completeRecord? t.element).map (·.defaultConstruction) =
      (p.completeRecord? t.element).map (·.defaultConstruction)) :
    q.directInit t [] = p.directInit t [] := by
  have hdepth : ∀ depth, (q.checkerBelow depth).construct t [] =
      (p.checkerBelow depth).construct t [] := by
    intro depth
    induction depth generalizing t with
    | zero => rfl
    | succ depth ih =>
      have hclass : t.isRecord = true → q.constructClass (q.checkerBelow depth) t [] =
          p.constructClass (p.checkerBelow depth) t [] := by
        intro hrecord
        obtain ⟨id, hid⟩ := Option.isSome_iff_exists.mp hrecord
        have hplain : ∀ p : Program, p.completeRecord? t.unqualified = p.completeRecord? t := by
          intro p
          rw [Ty.unqualified_of_recordId? hid, completeRecord?, completeRecord?, recordOf?,
            recordOf?, hid]
          rfl
        rw [Ty.element_of_recordId? hid] at h
        rw [constructClass_noArguments, constructClass_noArguments, hplain, hplain, h]
      change Check.guarded _ (q.constructStep _ t []) = Check.guarded _ (p.constructStep _ t [])
      unfold constructStep
      split
      · rfl
      · split
        · rfl
        · split
          · split
            · exact congrArg (Check.guarded _) (ih h)
            · rfl
          · rfl
          · by_cases hrecord : t.isRecord = true
            · rw [if_pos hrecord, if_pos hrecord, hclass hrecord]
            · rw [if_neg hrecord, if_neg hrecord]
  rw [directInit, directInit, checker_eq, checker_eq]
  exact hdepth _

/-- Destroying goes by how objects of the class of the elements are destroyed. -/
theorem destroy_congr (h : (q.completeRecord? t.element).map (·.destruction) =
    (p.completeRecord? t.element).map (·.destruction)) : q.destroy t = p.destroy t := by
  have hclass : ∀ t : Ty, (q.completeRecord? t).map (·.destruction) =
      (p.completeRecord? t).map (·.destruction) →
      (if t.isVoid then .error .notAnObject
      else if !t.isRecord then .ok .none else q.destroyClass t) =
      if t.isVoid then .error .notAnObject
      else if !t.isRecord then .ok .none else p.destroyClass t := by
    intro t hmap
    unfold destroyClass
    cases hp : p.completeRecord? t with
    | none =>
      rw [hp, Option.map_none, Option.map_eq_none_iff] at hmap
      rw [hmap]
    | some r =>
      rw [hp] at hmap
      obtain ⟨s, hs, hdestruction⟩ := Option.map_eq_some_iff.mp hmap
      rw [hs]
      dsimp only at hdestruction ⊢
      rw [hdestruction]
  induction t using Ty.inductionOn with
  | array t b ih => cases b <;> simp only [destroy, ih h]
  | record id => exact hclass (.record id) h
  | qualified t cv => exact hclass (.qualified t cv) h
  | _ => rfl

end Program
end TypeTraits
