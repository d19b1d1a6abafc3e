import TypeTraits.Proofs.Expr.Recursion

/-!
# The lifetime of a guard

A client asks about one expression after the other under one guard: what an operand is, how it
converts, what an operation on it does. The guard goes on counting from answer to answer, so its
limits hold for all of them together, and whether an answer is a success or not, the guard is
visiting afterwards what it was visiting before.
-/

namespace TypeTraits

/-- A question about an expression. -/
inductive Request where
  | declval (t : Ty)
  | convert (source : Expr) (target : Ty) (mode : InitMode) (allowUser : Bool)
  | directInit (target : Ty) (args : List Expr)
  | copyInit (target : Ty) (source : Expr)
  | valueInit (target : Ty)
  | newExpression (target : Ty) (args : List Expr)
  | functionalCast (target : Ty) (args : List Expr)
  | staticCast (target : Ty) (source : Expr)
  | assign (a b : Expr)
  | destroy (t : Ty)
  | indirection (e : Expr)
  | call (callee : Expr) (args : List Expr)
  | memberCall (object : Expr) (member : Ty) (args : List Expr)
  | memberAccess (object : Expr) (member : Ty)
  | dynamicCastToVoid (t : Ty)
  | swap (a b : Expr)
  | conditional (a b : Expr)

/-- What an answer tells. -/
def Request.Reply : Request → Type
  | convert .. => Conversion
  | declval _ | memberAccess .. | conditional .. => Expr
  | indirection _ | call .. | memberCall .. => Expr × Effects
  | directInit .. | copyInit .. | valueInit _ | newExpression .. | functionalCast ..
  | staticCast .. | assign .. | destroy _ | dynamicCastToVoid _ | swap .. => Effects

namespace Program

/-- The check that answers a request. -/
def answer (p : Program) : (request : Request) → Check request.Reply
  | .declval t => Check.ofFormed (Expr.declval t)
  | .convert source target mode allowUser => p.convert source target mode allowUser
  | .directInit target args => p.directInit target args
  | .copyInit target source => p.copyInit target source
  | .valueInit target => p.valueInit target
  | .newExpression target args => p.newExpression target args
  | .functionalCast target args => p.functionalCast target args
  | .staticCast target source => p.staticCast target source
  | .assign a b => p.assign a b
  | .destroy t => Check.ofFormed (p.destroy t)
  | .indirection e => p.indirection e
  | .call callee args => p.call callee args
  | .memberCall object member args => p.memberCall object member args
  | .memberAccess object member => Check.ofFormed (p.memberAccess object member)
  | .dynamicCastToVoid t => Check.ofFormed (p.dynamicCastToVoid t)
  | .swap a b => p.swap a b
  | .conditional a b => p.conditional a b

/-- Answers requests one after the other, also after one that fails. -/
def serve (p : Program) : List Request → Check Unit
  | [] => pure ()
  | request :: requests => do
    let _ ← Check.attempt (p.answer request)
    p.serve requests

end Program

namespace Check.IsInherited

variable {holds : ∀ α : Type, Check α → Prop} (h : IsInherited holds) (p : Program)

include h

theorem answer (request : Request) : holds _ (p.answer request) := by
  cases request with
  | declval t => exact h.ofFormed _
  | convert source target mode allowUser => exact h.convert p ..
  | directInit target args => exact h.directInit p ..
  | copyInit target source => exact h.copyInit p ..
  | valueInit target => exact h.valueInit p _
  | newExpression target args => exact h.newExpression p ..
  | functionalCast target args => exact h.functionalCast p ..
  | staticCast target source => exact h.staticCast p ..
  | assign a b => exact h.assign p ..
  | destroy t => exact h.ofFormed _
  | indirection e => exact h.indirection p _
  | call callee args => exact h.call p ..
  | memberCall object member args => exact h.memberCall p ..
  | memberAccess object member => exact h.ofFormed _
  | dynamicCastToVoid t => exact h.ofFormed _
  | swap a b => exact h.swap p ..
  | conditional a b => exact h.conditional p ..

theorem serve (requests : List Request) : holds _ (p.serve requests) := by
  induction requests with
  | nil => exact h.pure ()
  | cons request requests ih => exact h.bind (h.attempt (h.answer p request)) fun _ => ih

end Check.IsInherited

/-- A run from a fresh guard stays within the limits of that guard. -/
theorem Check.Runs.within_limits {α : Type} {c : Check α} {limits : WalkLimits} {m i : Nat}
    {r : Formed α} {g : Guard CheckKey} (hlimit : limits.iterations < Limits.countedSteps)
    (h : c.Runs (.fresh limits) m i r g) : m ≤ limits.iterations ∧ i ≤ limits.depth := by
  have hbodies := h.bodies_le hlimit
  have hnesting := h.nesting_le
  simp only [Guard.fresh] at hbodies hnesting
  omega

namespace Program

variable (p : Program)

/-- A request that fails does not end the lifetime. -/
theorem total_serve (requests : List Request) : (p.serve requests).Total := by
  induction requests with
  | nil => exact Check.total_pure ()
  | cons request requests ih => exact (Check.total_attempt _).bind fun _ => ih

theorem exists_runs_serve (requests : List Request) (g : Guard CheckKey) :
    ∃ bodies nesting g', (p.serve requests).Runs g bodies nesting (.ok ()) g' := by
  obtain ⟨m, i, r, g', hrun⟩ := Check.Halts.isInherited.serve p requests g
  obtain ⟨_, hok⟩ := p.total_serve requests g
  rw [hrun.run_eq] at hok
  obtain rfl : r = .ok () := hok
  exact ⟨m, i, g', hrun⟩

/-- The checks of expressions always return. Exactly one checker leaves its nested checks to itself:
its checks have runs from every guard, and the checker for whole expressions comes to the same from
every guard that lets no more bodies in than the limit. Every request has a run from every guard,
and its runs leave the guard visiting what it was visiting, as deep as it was. Whatever is asked in
the lifetime of one guard, no more guarded bodies are executed than the limit, and none is nested
deeper than the limit. -/
theorem requests_return :
    ((∀ c : Checker, c = p.checkerStep c ↔ c = p.selfChecker) ∧ p.selfChecker.Halts ∧
      p.selfChecker.ComesTo Limits.initializationDepth p.checker) ∧
    (∀ request : Request, (p.answer request).Halts ∧
      ∀ g bodies nesting reply g', (p.answer request).Runs g bodies nesting reply g' →
        (p.answer request).run g = (reply, g') ∧ g'.visiting = g.visiting ∧ g'.depth = g.depth) ∧
    ∀ requests : List Request,
      (∃ bodies nesting g',
        (p.serve requests).Runs (.fresh .initialization) bodies nesting (.ok ()) g') ∧
      ∀ bodies nesting reply g',
        (p.serve requests).Runs (.fresh .initialization) bodies nesting reply g' →
          bodies ≤ Limits.guardIterations ∧ nesting ≤ Limits.initializationDepth := by
  refine ⟨⟨fun c => eq_checkerStep_iff, p.selfChecker_halts, p.selfChecker_comesTo⟩, ?_, ?_⟩
  · intro request
    refine ⟨Check.Halts.isInherited.answer p request, ?_⟩
    intro g bodies nesting reply g' hrun
    exact ⟨hrun.run_eq, hrun.keeps.visiting, hrun.keeps.depth⟩
  · intro requests
    refine ⟨p.exists_runs_serve requests _, ?_⟩
    intro bodies nesting reply g' hrun
    exact hrun.within_limits (by decide)

end Program
end TypeTraits
