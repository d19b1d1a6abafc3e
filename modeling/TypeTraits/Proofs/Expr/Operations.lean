import TypeTraits.Expr.Conditional
import TypeTraits.Expr.Operators
import TypeTraits.Proofs.Expr.Compositional

/-!
# Properties that every operation inherits

The operations on expressions are composed of decided checks by sequencing, attempting and guarding.
A property of checks that all of these respect holds of every operation, however deep its checks are
nested.
-/

namespace TypeTraits

/-- A property of checks that composed checks inherit from their parts. -/
structure Check.IsInherited (holds : ∀ α : Type, Check α → Prop) : Prop where
  ofFormed {α : Type} (r : Formed α) : holds α (.ofFormed r)
  bind {α β : Type} {c : Check α} {f : α → Check β} (hc : holds α c) (hf : ∀ a, holds β (f a)) :
    holds β (c >>= f)
  attempt {α : Type} {c : Check α} (hc : holds α c) : holds (Option α) (Check.attempt c)
  guarded {α : Type} (key : CheckKey) {body : Check α} (hbody : holds α body) :
    holds α (.guarded key body)

namespace Check.IsInherited

variable {holds : ∀ α : Type, Check α → Prop} (h : IsInherited holds) {α : Type}

include h

theorem pure (a : α) : holds α (pure a) := h.ofFormed (.ok a)

theorem throw (error : Inapplicable) : holds α (throw error) := h.ofFormed (.error error)

/-- Checks with the property, each related to itself only. -/
theorem isCompositional : IsCompositional fun α c₁ c₂ => c₁ = c₂ ∧ holds α c₁ where
  ofFormed r := ⟨rfl, h.ofFormed r⟩
  bind hc hf := by
    obtain ⟨rfl, hc⟩ := hc
    obtain rfl := funext fun a => (hf a).1
    exact ⟨rfl, h.bind hc fun a => (hf a).2⟩
  attempt hc := by
    obtain ⟨rfl, hc⟩ := hc
    exact ⟨rfl, h.attempt hc⟩

variable (p : Program)

/-- The nested checks are left to the checker one level below, so the levels are gone through from
the one that allows no step. -/
theorem checkerBelow (depth : Nat) :
    (p.checkerBelow depth).Related (fun α c₁ c₂ => c₁ = c₂ ∧ holds α c₁)
      (p.checkerBelow depth) := by
  induction depth with
  | zero =>
    exact ⟨fun _ _ _ _ => ⟨rfl, h.throw _⟩, fun _ _ _ _ => ⟨rfl, h.throw _⟩,
      fun _ _ => ⟨rfl, h.throw _⟩⟩
  | succ depth ih =>
    refine ih.checkerStep p h.isCompositional (fun _ _ => ⟨rfl, h.throw _⟩) ?_
    rintro α key body _ ⟨rfl, hbody⟩
    exact ⟨rfl, h.guarded key hbody⟩

/-! ### Conversions and initializations -/

theorem convert (source : Expr) (target : Ty) (mode : InitMode) (allowUser : Bool) :
    holds _ (p.convert source target mode allowUser) := by
  rw [Program.convert, Program.checker_eq]
  exact ((h.checkerBelow p _).convert ..).2

theorem bindReference (source : Expr) (target : Ty) (mode : InitMode) (allowUser : Bool) :
    holds _ (p.checker.bindReference source target mode allowUser) := by
  rw [Program.checker_eq]
  exact ((h.checkerBelow p _).bindReference ..).2

theorem resolve (candidates : List Candidate) (object : Option Expr) (args : List Expr)
    (allowUser : Bool) :
    holds _ (p.resolve p.checker.convert candidates object args allowUser) :=
  (h.isCompositional.resolve (fun _ _ _ _ (_ : True) => ⟨rfl, h.convert p ..⟩) candidates object
    fun _ _ => trivial).2

theorem directInit (target : Ty) (args : List Expr) : holds _ (p.directInit target args) := by
  rw [Program.directInit, Program.checker_eq]
  exact ((h.checkerBelow p _).construct ..).2

theorem copyInit (target : Ty) (source : Expr) : holds _ (p.copyInit target source) :=
  h.bind (h.convert p ..) fun _ => h.pure _

theorem valueInit (target : Ty) : holds _ (p.valueInit target) := by
  unfold Program.valueInit
  split
  · exact h.throw _
  · split
    · exact h.pure _
    · exact h.directInit p ..

theorem newExpression (target : Ty) (args : List Expr) : holds _ (p.newExpression target args) := by
  unfold Program.newExpression
  split
  · exact h.throw _
  · exact h.directInit p ..

theorem staticCastReference (target : Ty) (source : Expr) :
    holds _ (p.staticCastReference target source) := by
  unfold Program.staticCastReference
  split
  · exact h.throw _
  · dsimp only
    split
    · exact h.pure _
    · split
      · exact h.pure _
      · exact h.bind (h.bindReference p ..) fun _ => h.pure _

theorem staticCast (target : Ty) (source : Expr) : holds _ (p.staticCast target source) := by
  unfold Program.staticCast
  split
  · exact h.staticCastReference p ..
  · split
    · exact h.pure _
    · refine h.bind (h.attempt (h.directInit p ..)) fun o => ?_
      cases o with
      | some effects => exact h.pure _
      | none =>
        dsimp only
        split
        · exact h.pure _
        · exact h.throw _

theorem functionalCast (target : Ty) (args : List Expr) :
    holds _ (p.functionalCast target args) := by
  unfold Program.functionalCast
  split
  · exact h.valueInit p _
  · exact h.staticCast p ..
  · exact h.directInit p ..

/-! ### Operators -/

theorem assign (a b : Expr) : holds _ (p.assign a b) := by
  simp only [Program.assign]
  split
  · exact h.throw .voidExpression
  · split
    · split
      · exact h.throw .incompleteType
      · exact h.bind (h.resolve p ..) fun _ => h.pure _
    · split
      · exact h.throw .notModifiable
      · exact h.bind (h.convert p ..) fun _ => h.pure _

theorem indirection (e : Expr) : holds _ (p.indirection e) := by
  unfold Program.indirection
  split
  · split
    · exact h.throw _
    · exact h.pure _
  · split
    · exact h.throw _
    · exact h.bind (h.resolve p ..) fun _ => h.pure _

theorem callSignature (s : Signature) (args : List Expr) : holds _ (p.callSignature s args) :=
  h.bind (h.resolve p ..) fun _ => h.pure _

theorem call (callee : Expr) (args : List Expr) : holds _ (p.call callee args) := by
  unfold Program.call
  split
  · split
    · split
      · exact h.throw _
      · exact h.callSignature p ..
    · exact h.throw _
  · split
    · exact h.throw _
    · dsimp only
      split
      · exact h.throw .notCallable
      · exact h.bind (h.resolve p ..) fun _ => h.pure _

theorem memberCall (object : Expr) (member : Ty) (args : List Expr) :
    holds _ (p.memberCall object member args) := by
  unfold Program.memberCall
  split
  · exact h.throw _
  · split
    · exact h.throw _
    · rename_i s _
      dsimp only
      split
      · exact h.throw .invalidReceiver
      · split
        · exact h.throw .dropsQualifiers
        · have hcall := h.callSignature p s args
          split
          · exact hcall
          · split
            · exact h.throw .invalidReceiver
            · exact hcall
          · split
            · exact h.throw .invalidReceiver
            · exact hcall

theorem swapWith {library : Check (Option FunctionDecl)} (hlibrary : holds _ library) (a b : Expr) :
    holds _ (p.swapWith library a b) := by
  refine h.bind hlibrary fun function => ?_
  dsimp only
  split
  · exact h.throw .noViableFunction
  · exact h.bind (h.resolve p ..) fun _ => h.pure _

/-- `std::swap` of a type needs `std::swap` of its elements alone. -/
theorem stdSwap_of_element {t : Ty} (helement : ∀ u b, t = .array u b → holds _ (p.stdSwap u)) :
    holds _ (p.stdSwap t) := by
  rw [Program.stdSwap.eq_def]
  refine h.bind ?_ fun _ => h.pure _
  split
  · exact h.attempt (h.swapWith p (helement _ _ rfl) _ _)
  · exact h.pure _
  · exact h.pure _
  · exact h.pure _
  · refine h.attempt (h.bind (h.directInit p ..) fun _ => ?_)
    exact h.bind (h.ofFormed _) fun _ => h.bind (h.assign p ..) fun _ => h.pure _

theorem stdSwap (t : Ty) : holds _ (p.stdSwap t) := by
  -- No guard watches the elements of arrays; the type alone gets smaller.
  induction t using Ty.inductionOn with
  | array u b ih =>
    refine h.stdSwap_of_element p fun v c heq => ?_
    cases heq
    exact ih
  | _ => exact h.stdSwap_of_element p fun _ _ heq => nomatch heq

theorem swap (a b : Expr) : holds _ (p.swap a b) := by
  refine h.swapWith p ?_ a b
  split
  · exact h.stdSwap p _
  · exact h.pure _

/-! ### The conditional operator -/

/-- A check that is left early where a conversion exists and binds as it should. -/
theorem returnIfBinds {condition : Prop} {_ : Decidable condition} {conversion : Check Conversion}
    {binds : Conversion → Bool} {found : α} {rest : Check α} (hconversion : holds _ conversion)
    (hrest : holds _ rest) :
    holds _ (if condition then do
        if let some c := ← Check.attempt conversion then
          if binds c then return found
        rest
      else rest) := by
  split
  · refine h.bind (h.attempt hconversion) fun o => ?_
    cases o with
    | none => exact hrest
    | some c =>
      dsimp only
      split
      · exact h.pure found
      · exact hrest
  · exact hrest

theorem matchOperand (source target : Expr) (classInvolved : Bool) :
    holds _ (p.matchOperand source target classInvolved) := by
  have hconvert : ∀ u, holds _ (p.convert source u .copy) := fun u => h.convert p ..
  unfold Program.matchOperand
  refine h.returnIfBinds (hconvert _) (h.returnIfBinds (hconvert _) ?_)
  split
  · exact h.pure none
  · dsimp only
    split
    · split
      · exact h.pure none
      · exact h.bind (h.attempt (hconvert _)) fun _ => h.pure _
    · exact h.bind (h.attempt (hconvert _)) fun _ => h.pure _

theorem conditional (a b : Expr) : holds _ (p.conditional a b) := by
  have hvalue : ∀ c d, holds _ (Check.ofFormed (p.conditionalValue c d)) := fun _ _ => h.ofFormed _
  unfold Program.conditional
  dsimp only
  split
  · split
    · exact h.pure _
    · exact h.throw .voidExpression
  split
  · exact h.pure a
  split
  · refine h.bind (h.matchOperand p ..) fun x => h.bind (h.matchOperand p ..) fun y => ?_
    split
    · exact h.throw .ambiguous
    · split
      · exact h.pure _
      · exact hvalue _ _
    · split
      · exact h.pure a
      · exact hvalue _ _
    · exact hvalue a b
  · exact hvalue a b

end Check.IsInherited
end TypeTraits
