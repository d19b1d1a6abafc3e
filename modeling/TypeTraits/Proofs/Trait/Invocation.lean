import TypeTraits.Trait.Invocation
import TypeTraits.Proofs.Expr.Returns
import TypeTraits.Proofs.Hierarchy.Reachability

/-!
# Invocation and the designated object

The first argument of a member pointer may be the object itself, a pointer to it or a wrapper of a
reference to it. Once one of them has led to the object, the access to the member sees only that
object: what is asked of its class, its qualification and its value category is asked there, with
one answer for all. The object itself is taken for one of the class as far as the walk over the
bases finds it so; a class that is out of the limits of the walk is tried as a pointer. A function
is called alike through its name, through references to it and through pointers.
-/

namespace TypeTraits

/-- Effects of nothing change no effects. -/
@[simp] theorem Effects.none_and (e : Effects) : Effects.none.and e = e := rfl

/-- The invocation of a member by what the access to it gives. -/
def Invocation.ofAccess (receiver : Receiver) (isFunction : Bool) (access : Ty × Effects) :
    Invocation :=
  ⟨receiver.rule isFunction, access.1, access.2⟩

namespace Program

/-- Whether the objects of a class are taken for objects of another one: it is that class, or the
walk over the bases finds it derived. -/
def PassesFor (p : Program) (derived base : RecordId) : Prop :=
  derived = base ∨ p.isBaseOf (.record base) (.record derived) = true

variable {p : Program} {m t cls member : Ty} {c e : RecordId}

theorem decay_of_memberPointerParts? (h : m.memberPointerParts? = some (cls, member)) :
    p.decay m = .memberPointer cls member := by
  cases m with
  | qualified m _ => cases m <;> cases h; rfl
  | memberPointer _ _ => cases h; rfl
  | _ => cases h

theorem decay_lvalueRef_of_recordId? (h : t.recordId? = some e) :
    p.decay (.lvalueRef t) = .record e := by
  cases t with
  | qualified t _ => cases t <;> cases h; rfl
  | record _ => cases h; rfl
  | _ => cases h

theorem indirection_pointer (h : t.recordId? = some e) :
    p.indirection (.xvalue (.pointer t)) = pure (.lvalue t, Effects.none) := by
  have hrecord : t.isRecord = true := Option.isSome_iff_exists.mpr ⟨e, h⟩
  change (if t.isVoid = true then _ else _) = _
  rw [Ty.isVoid_of_isRecord hrecord]
  rfl

/-- An object of a class that does not pass for derived is refused. -/
theorem not_isReceiver (h : t.recordId? = some e) (hother : ¬p.PassesFor e c) :
    p.isReceiver (.lvalue t) (.record c) = false := by
  obtain ⟨hne, hbase⟩ := not_or.mp hother
  have hclass : Ty.record e ≠ .record c := fun heq => hne (Ty.record.inj heq)
  have hconversion : p.baseConversion (.record e) (.record c) = .notBase := by
    simp [baseConversion, Ty.unqualified, Ty.splitCv, hclass, hbase]
  have htype : (Expr.lvalue t).type.unqualified = .record e := Ty.unqualified_of_recordId? h
  unfold isReceiver
  simp [htype, hclass, hconversion, BaseConversion.isReachable, BaseConversion.distance?]

/-- A call sees of what is called only the function. -/
theorem call_congr {a b : Expr} {f : Ty} (ha : calledFunction? a.type = some f)
    (hb : calledFunction? b.type = some f) (args : List Expr) : p.call a args = p.call b args := by
  unfold call
  rw [ha, hb]

end Program

namespace Solver

variable {s : Solver} {m t first cls member : Ty} {object : Expr} {kind : Receiver}
  {c e w : RecordId} {r : Record}

/-- The access to a member of an object, called with the further arguments if it is a function. -/
def access (s : Solver) (cls member : Ty) (rest : List Ty) (object : Expr) :
    Check (Ty × Effects) := do
  Check.ofFormed (s.checkMember member rest)
  let (result, effects) ←
    if member.isFunction then do
      let exprs ← Check.ofFormed (Expr.declvals rest)
      s.program.memberCall object (.memberPointer cls member) exprs
    else do
      let accessed ← Check.ofFormed (s.program.memberAccess object (.memberPointer cls member))
      pure (accessed, Effects.none)
  return (result.declaredType, effects)

/-- The first argument leads to the object without a step of its own. -/
def Designates (s : Solver) (cls first : Ty) (kind : Receiver) (object : Expr) : Prop :=
  s.receiver cls first = pure (kind, object, Effects.none)

/-- An invocation is the access to the object that the first argument designates. -/
theorem Designates.invoke_eq (h : s.Designates cls first kind object)
    (hm : m.memberPointerParts? = some (cls, member)) (rest : List Ty) :
    s.invoke m (first :: rest) =
      (s.access cls member rest object).result.map (.ofAccess kind member.isFunction) := by
  have haccess : s.invokeMember (.memberPointer cls member) cls member (first :: rest) =
      Invocation.ofAccess kind member.isFunction <$> s.access cls member rest object := by
    have hreceiver : s.receiver cls first = pure (kind, object, Effects.none) := h
    unfold invokeMember access
    cases member.isFunction <;> simp [hreceiver, Invocation.ofAccess]
  rw [← Check.result_map, ← haccess, invoke, Program.decay_of_memberPointerParts? hm]
  rfl

/-- Nothing is accessed in what is no object of the class or of a derived one. -/
theorem access_of_not_isReceiver (h : s.program.isReceiver object cls = false) (rest : List Ty)
    (accessed : Ty × Effects) : (s.access cls member rest object).result ≠ .ok accessed := by
  intro hresult
  have hparts : (Ty.memberPointer cls member).memberPointerParts? = some (cls, member) := rfl
  obtain ⟨-, -, hreturns⟩ := (Check.Returns.of_result hresult).bind
  split at hreturns
  · obtain ⟨_, -, hreturns⟩ := hreturns.bind
    obtain ⟨_, hcall, -⟩ := hreturns.bind
    unfold Program.memberCall at hcall
    cases hsignature : member.signature? <;> simp [hparts, hsignature, h] at hcall
  · obtain ⟨_, haccess, -⟩ := hreturns.bind
    rw [Check.returns_ofFormed] at haccess
    unfold Program.memberAccess at haccess
    cases hfunction : member.isFunction <;> simp [hparts, hfunction, h] at haccess

/-- An object of the class, or of one that passes for derived from it, is designated directly. -/
theorem designates_object (ht : t.recordId? = some e) (hobject : s.program.PassesFor e c) :
    s.Designates (.record c) (.lvalueRef t) .object (.lvalue t) := by
  have hrule : (Ty.record e).unqualified = .record c ∨
      s.program.isBaseOf (.record c) (.record e) = true := hobject.imp_left (congrArg Ty.record)
  unfold Designates receiver
  rw [Program.decay_lvalueRef_of_recordId? ht]
  simp only [hrule, if_true]
  rfl

theorem designates_pointer (ht : t.recordId? = some e) :
    s.Designates (.record c) (.pointer t) .pointer (.lvalue t) := by
  have hrule : ¬((Ty.pointer t).unqualified = .record c ∨
      s.program.isBaseOf (.record c) (.pointer t) = true) := by
    rintro (h | h) <;> cases h
  have hdeclval : Expr.declval (.pointer t) = .ok (.xvalue (.pointer t)) := rfl
  have hdecay : s.program.decay (.pointer t) = .pointer t := rfl
  have hrecord : s.program.recordOf? (.pointer t) = none := rfl
  unfold Designates receiver
  rw [hdeclval, hdecay]
  simp only [hrule, if_false, hrecord, Option.bind_none]
  change (s.program.indirection (.xvalue (.pointer t)) >>= _) = _
  rw [Program.indirection_pointer ht]
  rfl

theorem designates_wrapper (hfirst : Expr.declval first = .ok object)
    (hdecay : s.program.decay first = .record w) (hother : ¬s.program.PassesFor w c)
    (hw : s.program.record? w = some r) (hwraps : r.wraps = some t) :
    s.Designates (.record c) first .wrapper (.lvalue t) := by
  have hrule : ¬((Ty.record w).unqualified = .record c ∨
      s.program.isBaseOf (.record c) (.record w) = true) :=
    fun h => hother (h.imp_left Ty.record.inj)
  have hrecord : s.program.recordOf? (.record w) = some r := hw
  unfold Designates receiver
  rw [hfirst, hdecay]
  simp only [hrule, if_false, hrecord, Option.bind_some, hwraps]
  rfl

/-- A value of the first type is called as a function of the second one. -/
structure Calls (p : Program) (callable f : Ty) : Prop where
  notMember : (p.decay callable).memberPointerParts? = none
  callee : ∃ callee, Expr.declval callable = .ok callee ∧
    Program.calledFunction? callee.type = some f

/-- What is called as one function is invoked alike. -/
theorem Calls.invoke_eq {a b f : Ty} (ha : Calls s.program a f) (hb : Calls s.program b f)
    (args : List Ty) : s.invoke a args = s.invoke b args := by
  obtain ⟨callee, hcallee, hf⟩ := ha.callee
  obtain ⟨callee', hcallee', hf'⟩ := hb.callee
  have hcall : s.invokeCall a args = s.invokeCall b args := by
    unfold invokeCall
    rw [hcallee, hcallee']
    change (Check.ofFormed (Expr.declvals args) >>= fun exprs => s.program.call callee exprs >>= _) =
      (Check.ofFormed (Expr.declvals args) >>= fun exprs => s.program.call callee' exprs >>= _)
    simp only [Program.call_congr hf hf']
  unfold invoke
  dsimp only
  rw [ha.notMember, hb.notMember, hcall]

/-- A plain function is called by name, by reference and by pointer. -/
theorem calls_of_mem {p : Program} {callable f : Ty} {signature : Signature}
    (hf : f.signature? = some signature) (hplain : signature.isAbominable = false)
    (h : callable ∈ [f, .lvalueRef f, .rvalueRef f, .pointer f,
      .lvalueRef (.qualified (.pointer f) .const)]) : Calls p callable f := by
  cases f with
  | function result params quals =>
    cases hf
    -- A function decays to a pointer to it, or stays as it is.
    have hdecay : (p.addPointer (.function result params quals)).memberPointerParts? = none := by
      unfold Program.addPointer
      dsimp only
      split <;> rfl
    simp only [List.mem_cons, List.not_mem_nil, or_false] at h
    rcases h with rfl | rfl | rfl | rfl | rfl
    · exact ⟨hdecay, .lvalue (.function result params quals), by simp [Expr.declval, hplain], rfl⟩
    · exact ⟨hdecay, _, rfl, rfl⟩
    · exact ⟨hdecay, _, rfl, rfl⟩
    · exact ⟨rfl, _, rfl, rfl⟩
    · exact ⟨rfl, _, rfl, rfl⟩
  | _ => cases hf

end Solver

namespace Development

open Hierarchy Program

variable {d : Development} {s : Solver}

/-- A class is an object of itself and of any class that a path within the limits leads to. -/
theorem Valid.passesFor_of_leads (h : d.Valid) {c e : RecordId} {path : List Edge}
    (hpath : Leads d.program (.record e) path (.record c))
    (hlimits : path ≠ [] → WithinLimits d.program (.record e)) : d.program.PassesFor e c := by
  exact (h.related_of_leads (t := .record c) (u := .record e) rfl hlimits hpath).imp_left
    Ty.record.inj

/-- Invocation and the designated object. A member pointer is invoked alike through an object, a
pointer to it and a wrapper of a reference to it: each time the access to the member of that object
decides, by the rule of what led there. The class of the object has to pass for the one of the
member, as every derived class does within the limits of the walks; where it does not, there is no
access, and only the object itself may still be invoked, as a pointer or a wrapper. A plain function
is invoked alike by name, by reference and by pointer. -/
theorem invocation_by_object (h : d.Reachable) (hs : s.program = d.program) :
    (∀ m member t r c e w, m.memberPointerParts? = some (.record c, member) →
      t.recordId? = some e → d.program.record? w = some r → r.wraps = some t → w ≠ c →
      (∀ path, ¬Leads d.program (.record w) path (.record c)) →
      (∀ args, ∃ access : Formed (Ty × Effects),
        let invocation (receiver : Receiver) :=
          access.map (Invocation.ofAccess receiver member.isFunction)
        s.invoke m (.pointer t :: args) = invocation .pointer ∧
        s.invoke m (.record w :: args) = invocation .wrapper ∧
        s.invoke m (.lvalueRef (.record w) :: args) = invocation .wrapper ∧
        s.invoke m (.lvalueRef (.qualified (.record w) .const) :: args) = invocation .wrapper ∧
        (d.program.PassesFor e c → s.invoke m (.lvalueRef t :: args) = invocation .object) ∧
        (¬d.program.PassesFor e c → ∀ accessed, access ≠ .ok accessed)) ∧
      ∀ path, Leads d.program (.record e) path (.record c) →
        (path ≠ [] → WithinLimits d.program (.record e)) → d.program.PassesFor e c) ∧
    ∀ f signature, f.signature? = some signature → signature.isAbominable = false →
      ∀ callable ∈ [.lvalueRef f, .rvalueRef f, .pointer f,
        .lvalueRef (.qualified (.pointer f) .const)], ∀ args,
        s.invoke callable args = s.invoke f args := by
  constructor
  · intro m member t r c e w hm ht hw hwraps hne hunrelated
    refine ⟨fun args => ?_, fun path hpath hlimits => h.valid.passesFor_of_leads hpath hlimits⟩
    have hwrapper : ¬s.program.PassesFor w c := by
      rintro (heq | hbase)
      · exact hne heq
      · rw [hs] at hbase
        obtain ⟨path, hpath⟩ := exists_path_of_isBaseOf hne.symm hbase
        exact hunrelated path hpath
    rw [← hs] at hw ⊢
    have hwrapped {first : Ty} {object : Expr} (hfirst : Expr.declval first = .ok object)
        (hdecay : s.program.decay first = .record w) :
        s.Designates (.record c) first .wrapper (.lvalue t) :=
      Solver.designates_wrapper hfirst hdecay hwrapper hw hwraps
    refine ⟨(s.access (.record c) member args (.lvalue t)).result,
      (Solver.designates_pointer ht).invoke_eq hm args, (hwrapped rfl rfl).invoke_eq hm args,
      (hwrapped rfl rfl).invoke_eq hm args, (hwrapped rfl rfl).invoke_eq hm args, ?_, ?_⟩
    · intro hobject
      exact (Solver.designates_object ht hobject).invoke_eq hm args
    · intro hother
      exact Solver.access_of_not_isReceiver (not_isReceiver ht hother) args
  · intro f signature hf hplain callable hcallable args
    exact (Solver.calls_of_mem hf hplain (List.mem_cons_of_mem f hcallable)).invoke_eq
      (Solver.calls_of_mem hf hplain List.mem_cons_self) args

/-- A class with a base, and a wrapper of a reference to a constant object of it. -/
def wrappedConstant : Development :=
  run .lp64
    [.start "Base" .struct,
      .finish ⟨1⟩,
      .start "Derived" .struct,
      .write ⟨2⟩ (.base (.record ⟨1⟩)),
      .finish ⟨2⟩,
      .start "Wrapper" .struct,
      .write ⟨3⟩ (.wraps (.qualified (.record ⟨2⟩) .const)),
      .finish ⟨3⟩]

theorem reachable_wrappedConstant : wrappedConstant.Reachable := by
  refine (Reachable.fresh .lp64).performAll ?_
  intro a ha
  simp only [List.mem_cons, List.not_mem_nil, or_false] at ha
  rcases ha with rfl | rfl | rfl | rfl | rfl | rfl | rfl | rfl
  all_goals first | trivial | exact RecordStep.isWritten_of_types rfl (by decide)

theorem withinLimits_wrappedConstant : WithinLimits wrappedConstant.program (.record ⟨2⟩) :=
  reachable_wrappedConstant.valid.withinLimits_of_rank_le (by decide +kernel) (by decide +kernel)

/-- The type `int (int) const & noexcept`. -/
def constantFunction : Ty :=
  .function (.builtin .int) [.builtin .int] { cv := .const, ref := .lvalue, noexcept := true }

/-- A constant member function of the base is called alike through the derived object, a pointer to
it and its wrapper, and a plain function through a reference to a pointer. -/
theorem invocation_by_object_wrappedConstant :
    let s : Solver := { program := wrappedConstant.program }
    let member : Ty := .memberPointer (.record ⟨1⟩) constantFunction
    let object : Ty := .qualified (.record ⟨2⟩) .const
    let plain : Ty := .function (.builtin .int) [.builtin .int] {}
    wrappedConstant.Reachable ∧ WithinLimits wrappedConstant.program (.record ⟨2⟩) ∧
    Leads wrappedConstant.program (.record ⟨2⟩) [⟨0, ⟨.record ⟨1⟩, .pub, false⟩⟩] (.record ⟨1⟩) ∧
    (∃ r, wrappedConstant.program.record? ⟨3⟩ = some r ∧ r.wraps = some object) ∧
    (∀ path, ¬Leads wrappedConstant.program (.record ⟨3⟩) path (.record ⟨1⟩)) ∧
    s.invoke member [.lvalueRef object, .builtin .int] =
      .ok ⟨.memberFunctionOnObject, .builtin .int, ⟨true, false⟩⟩ ∧
    s.invoke member [.pointer object, .builtin .int] =
      .ok ⟨.memberFunctionOnPointer, .builtin .int, ⟨true, false⟩⟩ ∧
    s.invoke member [.record ⟨3⟩, .builtin .int] =
      .ok ⟨.memberFunctionOnWrapper, .builtin .int, ⟨true, false⟩⟩ ∧
    s.invoke (.lvalueRef (.qualified (.pointer plain) .const)) [.builtin .int] =
      s.invoke plain [.builtin .int] := by
  intro s member object plain
  have hs : s.program = wrappedConstant.program := by dsimp only [s]
  have hpath : Leads wrappedConstant.program (.record ⟨2⟩) [⟨0, ⟨.record ⟨1⟩, .pub, false⟩⟩]
      (.record ⟨1⟩) := .cons (by decide +kernel) .nil
  have hunrelated (path : List Edge) :
      ¬Leads wrappedConstant.program (.record ⟨3⟩) path (.record ⟨1⟩) := by
    have hedges : edges wrappedConstant.program (.record ⟨3⟩) = [] := by decide +kernel
    rintro (_ | ⟨hedge, -⟩)
    rw [hedges] at hedge
    cases hedge
  have hrecord :
      ((wrappedConstant.program.record? ⟨3⟩).any fun r => r.wraps == some object) = true := by
    decide +kernel
  obtain ⟨r, hr, hwraps⟩ := (Option.any_eq_true _ _).mp hrecord
  obtain ⟨hmembers, hfunctions⟩ := invocation_by_object reachable_wrappedConstant hs
  obtain ⟨hinvoked, hobject⟩ := hmembers member constantFunction object r ⟨1⟩ ⟨2⟩ ⟨3⟩ rfl rfl hr
    (beq_iff_eq.mp hwraps) (by decide) hunrelated
  obtain ⟨access, hpointer, hwrapper, -, -, hdirect, -⟩ := hinvoked [.builtin .int]
  have hdirect := hdirect (hobject _ hpath fun _ => withinLimits_wrappedConstant)
  have hresult : s.invoke member [.lvalueRef object, .builtin .int] =
      .ok ⟨.memberFunctionOnObject, .builtin .int, ⟨true, false⟩⟩ := by decide +kernel
  rw [hresult] at hdirect
  cases access with
  | error _ => cases hdirect
  | ok accessed =>
    obtain ⟨result, effects⟩ := accessed
    cases hdirect
    exact ⟨reachable_wrappedConstant, withinLimits_wrappedConstant, hpath,
      ⟨r, hr, beq_iff_eq.mp hwraps⟩, hunrelated, hresult, hpointer, hwrapper,
      hfunctions plain _ rfl rfl _ (by simp) _⟩

end Development

end TypeTraits
