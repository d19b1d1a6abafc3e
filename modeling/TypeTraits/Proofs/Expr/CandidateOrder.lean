import Mathlib.Data.List.Perm.Basic
import TypeTraits.Proofs.Expr.Resolution
import TypeTraits.Proofs.Expr.Steady

/-!
# Overload resolution does not depend on the order of the candidates

Of two conversion sequences at most one is better, so at most one viable candidate is better than
all the others. The conversions of one candidate after the other are formed under one guard, which
goes on counting: in another order each of them starts from another count, but within the limits it
takes as many steps and comes to the same.
-/

namespace TypeTraits

/-! ### Comparing conversion sequences -/

namespace Conversion

theorem compareFlags_swap (a b : Bool) : (compareFlags a b).swap = compareFlags b a := by
  cases a <;> cases b <;> rfl

theorem compareDistances_swap (a b : Option Nat) :
    (compareDistances a b).swap = compareDistances b a := by
  cases a <;> cases b <;> first | rfl | exact Nat.compare_swap ..

end Conversion

namespace ReferenceBinding

theorem compareCategory_swap (a b : ReferenceBinding) :
    (a.compareCategory b).swap = b.compareCategory a := by
  unfold compareCategory
  rw [Bool.or_comm b.implicitObject]
  split
  · rfl
  · exact Conversion.compareFlags_swap ..

theorem compareCv_swap (a b : ReferenceBinding) : (a.compareCv b).swap = b.compareCv a := by
  unfold compareCv
  by_cases h : a.referent = b.referent ∧ a.cv ≠ b.cv
  · have h' : b.referent = a.referent ∧ b.cv ≠ a.cv := ⟨h.1.symm, h.2.symm⟩
    rw [if_pos h, if_pos h']
    cases hab : a.cv.covers b.cv with
    | false => cases b.cv.covers a.cv <;> rfl
    | true =>
      have hba : b.cv.covers a.cv = false :=
        Bool.eq_false_iff.mpr fun hba => h.2 (Cv.covers_antisymm hab hba)
      simp [hba]
  · have h' : ¬(b.referent = a.referent ∧ b.cv ≠ a.cv) := fun h' => h ⟨h'.1.symm, h'.2.symm⟩
    rw [if_neg h, if_neg h']
    rfl

theorem compare_swap (a b : Option ReferenceBinding) :
    (ReferenceBinding.compare a b).swap = ReferenceBinding.compare b a := by
  cases a <;> cases b <;> try rfl
  simp only [ReferenceBinding.compare, Ordering.swap_then, compareCategory_swap, compareCv_swap]

end ReferenceBinding

theorem ConversionKind.toNat_inj {a b : ConversionKind} (h : a.toNat = b.toNat) : a = b := by
  cases a <;> cases b <;> first | rfl | contradiction

theorem Conversion.compare_swap (a b : Conversion) : (a.compare b).swap = b.compare a := by
  unfold Conversion.compare
  rw [Ordering.swap_then, Nat.compare_swap]
  -- The rest counts between sequences of one form only.
  by_cases hkind : a.kind = b.kind
  · congr 1
    rw [hkind]
    by_cases huser : a.user = b.user
    · simp only [huser, ne_eq, not_true_eq_false, and_false, if_false]
      split
      · rfl
      · simp only [Ordering.swap_then, Nat.compare_swap, compareFlags_swap, compareDistances_swap,
          ReferenceBinding.compare_swap]
    · simp only [huser, Ne.symm huser, ne_eq, not_false_eq_true, and_true]
      split
      · rfl
      · split
        · rfl
        · simp only [Ordering.swap_then, Nat.compare_swap, compareFlags_swap,
            compareDistances_swap, ReferenceBinding.compare_swap]
  · cases h : Ord.compare b.kind.toNat a.kind.toNat with
    | eq => exact absurd (ConversionKind.toNat_inj (Nat.compare_eq_eq.mp h)).symm hkind
    | lt => rfl
    | gt => rfl

/-! ### The best viable candidate -/

namespace Candidate

variable {a b : Candidate × List (Option Conversion)}
  {viable viable' : List (Candidate × List (Option Conversion))}

/-- How the conversions of two candidates compare, argument by argument. -/
def argumentOrders (xs ys : List (Option Conversion)) : List Ordering :=
  List.zipWith (fun x y =>
    match x, y with
    | some x, some y => x.compare y
    | _, _ => .eq) xs ys

/-- How the conversions of the results of two conversion functions compare. -/
def resultOrder (a b : Candidate) : Ordering :=
  match a.result, b.result with
  | some x, some y => x.compare y
  | _, _ => .eq

/-- The candidate wins over another one whose arguments convert as well. -/
def winsTie (a b : Candidate) : Bool :=
  !a.isTemplate && b.isTemplate || resultOrder a b == .lt

theorem isBetter_iff : isBetter a b = true ↔
    (argumentOrders a.2 b.2).contains .gt = false ∧
      ((argumentOrders a.2 b.2).contains .lt = true ∨ winsTie a.1 b.1 = true) := by
  have hresult : (match a.1.result, b.1.result with
      | some x, some y => x.compare y == .lt
      | _, _ => false) = (resultOrder a.1 b.1 == .lt) := by
    unfold resultOrder
    split <;> rfl
  change (if (argumentOrders a.2 b.2).contains .gt then false
    else if (argumentOrders a.2 b.2).contains .lt then true
    else if !a.1.isTemplate && b.1.isTemplate then true
    else match a.1.result, b.1.result with
      | some x, some y => x.compare y == .lt
      | _, _ => false) = true ↔ _
  rw [hresult, winsTie]
  split
  · simp_all
  · split
    · simp_all
    · split <;> simp_all

theorem argumentOrders_swap (xs ys : List (Option Conversion)) :
    (argumentOrders xs ys).map Ordering.swap = argumentOrders ys xs := by
  unfold argumentOrders
  rw [List.map_zipWith, List.zipWith_comm]
  congr 1
  funext y x
  cases x <;> cases y <;> try rfl
  exact Conversion.compare_swap ..

theorem contains_gt_of_contains_lt {xs ys : List (Option Conversion)}
    (h : (argumentOrders xs ys).contains .lt = true) :
    (argumentOrders ys xs).contains .gt = true := by
  rw [← argumentOrders_swap, List.contains_iff_mem]
  exact List.mem_map.mpr ⟨.lt, List.contains_iff_mem.mp h, rfl⟩

/-- No template carries a conversion of its result, by which it could win in turn over a function
that beats it for being none. -/
def HasOneTieBreaker (c : Candidate) : Prop := c.isTemplate = true → c.result = none

theorem resultOrder_swap (a b : Candidate) : (resultOrder a b).swap = resultOrder b a := by
  unfold resultOrder
  cases a.result <;> cases b.result <;> try rfl
  exact Conversion.compare_swap ..

theorem HasOneTieBreaker.resultOrder_eq {a b : Candidate} (ha : a.HasOneTieBreaker)
    (htemplate : a.isTemplate = true) : resultOrder a b = .eq := by
  unfold resultOrder
  rw [ha htemplate]

theorem not_winsTie_of_winsTie {a b : Candidate} (ha : a.HasOneTieBreaker)
    (hb : b.HasOneTieBreaker) (h : a.winsTie b = true) : b.winsTie a = false := by
  unfold winsTie at h ⊢
  rw [← resultOrder_swap a b]
  cases hta : a.isTemplate with
  | true => simp [hta, ha.resultOrder_eq hta] at h
  | false =>
    cases htb : b.isTemplate with
    | true =>
      rw [← resultOrder_swap b a, hb.resultOrder_eq htb]
      rfl
    | false =>
      simp only [hta, htb, Bool.and_false, Bool.false_or, beq_iff_eq] at h
      rw [h]
      rfl

theorem not_isBetter_of_isBetter (ha : a.1.HasOneTieBreaker) (hb : b.1.HasOneTieBreaker)
    (h : isBetter a b = true) : isBetter b a = false := by
  rw [Bool.eq_false_iff]
  intro h'
  obtain ⟨hgt, hwins⟩ := isBetter_iff.mp h
  obtain ⟨hgt', hwins'⟩ := isBetter_iff.mp h'
  have hlt : ¬(argumentOrders a.2 b.2).contains .lt = true := fun hlt => by
    rw [contains_gt_of_contains_lt hlt] at hgt'
    cases hgt'
  have hlt' : ¬(argumentOrders b.2 a.2).contains .lt = true := fun hlt => by
    rw [contains_gt_of_contains_lt hlt] at hgt
    cases hgt
  have htie := not_winsTie_of_winsTie ha hb (hwins.resolve_left hlt)
  rw [hwins'.resolve_left hlt'] at htie
  cases htie

/-- The viable candidate at this place is better than the one at every other place. -/
def IsBestAt (viable : List (Candidate × List (Option Conversion))) (i : Fin viable.length) :
    Prop :=
  ∀ j, j ≠ i → isBetter viable[i] viable[j] = true

theorem isBestAt_unique (h : ∀ c ∈ viable, c.1.HasOneTieBreaker) {i j : Fin viable.length}
    (hi : IsBestAt viable i) (hj : IsBestAt viable j) : i = j := by
  by_contra hne
  have hbetter := not_isBetter_of_isBetter (h _ (List.getElem_mem i.isLt))
    (h _ (List.getElem_mem j.isLt)) (hi j (Ne.symm hne))
  exact absurd (hj i hne) (Bool.eq_false_iff.mp hbetter)

theorem exists_isBestAt_of_best? (h : best? viable = some a) :
    ∃ i, IsBestAt viable i ∧ viable[i] = a := by
  unfold best? at h
  obtain ⟨⟨c, i⟩, hfind, rfl⟩ := Option.map_eq_some_iff.mp h
  obtain ⟨hi, hc⟩ := List.getElem?_eq_some_iff.mp
    (List.mem_zipIdx_iff_getElem?.mp (List.mem_of_find?_eq_some hfind))
  dsimp only at hi hc
  refine ⟨⟨i, hi⟩, fun j hne => ?_, hc⟩
  have hbest := List.find?_some hfind
  dsimp only at hbest
  have hall := List.all_eq_true.mp hbest (viable[j], j)
    (List.mem_zipIdx_iff_getElem?.mpr (List.getElem?_eq_getElem j.isLt))
  simp only [Bool.or_eq_true, beq_iff_eq] at hall
  rw [← hc] at hall
  exact hall.resolve_left fun heq => hne (Fin.ext heq.symm)

theorem best?_isSome {i : Fin viable.length} (h : IsBestAt viable i) :
    (best? viable).isSome = true := by
  unfold best?
  rw [Option.isSome_map, List.find?_isSome]
  refine ⟨(viable[i], i), List.mem_zipIdx_iff_getElem?.mpr (List.getElem?_eq_getElem i.isLt), ?_⟩
  rw [List.all_eq_true]
  rintro ⟨b, j⟩ hmem
  obtain ⟨hj, hb⟩ := List.getElem?_eq_some_iff.mp (List.mem_zipIdx_iff_getElem?.mp hmem)
  dsimp only at hj hb
  by_cases heq : (⟨j, hj⟩ : Fin viable.length) = i
  · simp [← heq]
  · rw [Bool.or_eq_true, ← hb]
    exact Or.inr (h ⟨j, hj⟩ heq)

theorem best?_eq_some_iff (h : ∀ c ∈ viable, c.1.HasOneTieBreaker) :
    best? viable = some a ↔ ∃ i, IsBestAt viable i ∧ viable[i] = a := by
  refine ⟨exists_isBestAt_of_best?, ?_⟩
  rintro ⟨i, hi, rfl⟩
  obtain ⟨b, hb⟩ := Option.isSome_iff_exists.mp (best?_isSome hi)
  obtain ⟨j, hj, rfl⟩ := exists_isBestAt_of_best? hb
  rw [hb, isBestAt_unique h hi hj]

/-- The candidates that a best one is better than are those at the other places. -/
theorem exists_isBestAt_iff : (∃ i, IsBestAt viable i ∧ viable[i] = a) ↔
    ∃ others, viable.Perm (a :: others) ∧ ∀ b ∈ others, isBetter a b = true := by
  constructor
  · rintro ⟨i, hi, rfl⟩
    refine ⟨viable.eraseIdx i, (List.getElem_cons_eraseIdx_perm i.isLt).symm, fun b hb => ?_⟩
    obtain ⟨j, hj, hne, rfl⟩ := List.mem_eraseIdx_iff_getElem.mp hb
    exact hi ⟨j, hj⟩ fun heq => hne (congrArg Fin.val heq)
  · rintro ⟨others, hperm, hbetter⟩
    obtain ⟨i, hi, hget⟩ := List.getElem_of_mem (hperm.mem_iff.mpr List.mem_cons_self)
    have hothers : (viable.eraseIdx i).Perm others := by
      refine List.Perm.cons_inv (a := a) (List.Perm.trans ?_ hperm)
      rw [← hget]
      exact List.getElem_cons_eraseIdx_perm hi
    refine ⟨⟨i, hi⟩, fun j hne => ?_, hget⟩
    rw [Fin.getElem_fin, hget]
    refine hbetter _ (hothers.mem_iff.mp (List.mem_eraseIdx_iff_getElem.mpr ⟨j, j.isLt, ?_, rfl⟩))
    exact fun heq => hne (Fin.ext heq)

theorem best?_perm (h : ∀ c ∈ viable, c.1.HasOneTieBreaker) (hperm : viable.Perm viable') :
    best? viable = best? viable' := by
  have h' : ∀ c ∈ viable', c.1.HasOneTieBreaker := fun c hc => h c (hperm.mem_iff.mpr hc)
  refine Option.ext fun a => ?_
  rw [best?_eq_some_iff h, best?_eq_some_iff h', exists_isBestAt_iff, exists_isBestAt_iff]
  exact ⟨fun ⟨others, hothers, hbetter⟩ => ⟨others, hperm.symm.trans hothers, hbetter⟩,
    fun ⟨others, hothers, hbetter⟩ => ⟨others, hperm.trans hothers, hbetter⟩⟩

end Candidate

/-! ### Forming the conversions in another order -/

namespace Check

variable {α β : Type} {f : α → Check (Option β)} {l l' : List α} {g : Guard CheckKey}

theorem filterMapM_cons_eq (a : α) : (a :: l).filterMapM f = do
    let o ← f a
    let bs ← l.filterMapM f
    return o.toList ++ bs := by
  rw [List.filterMapM_cons]
  refine bind_congr fun o => ?_
  cases o
  · exact (bind_pure _).symm
  · rfl

theorem total_filterMapM (htotal : ∀ a, (f a).Total) (l : List α) : (l.filterMapM f).Total := by
  induction l with
  | nil => exact total_pure []
  | cons a l ih =>
    rw [filterMapM_cons_eq]
    exact (htotal a).bind fun _ => ih.bind fun _ => total_pure _

theorem Takes.ok_of_total {c : Check α} {n : Nat} {r : Formed α} (h : c.Takes g n r)
    (hallows : g.Allows n) (htotal : c.Total) : ∃ a, r = .ok a := by
  obtain ⟨a, ha⟩ := htotal g
  rw [h.run g (.refl g) hallows] at ha
  exact ⟨a, ha⟩

theorem takes_filterMapM_cons {a : α} {o : Option β} {bs : List β} {m n : Nat}
    (ha : (f a).Takes g m (.ok o)) (hl : (l.filterMapM f).Takes g n (.ok bs))
    (hsteps : m + n ≤ g.limits.iterations) :
    ((a :: l).filterMapM f).Takes g (m + n) (.ok (o.toList ++ bs)) := by
  rw [filterMapM_cons_eq]
  exact ha.bind (hl.bind_pure (o.toList ++ ·)) hsteps

/-- The checks of a list within the limits are that of its first element and those of the rest. -/
theorem takes_of_filterMapM_cons (hf : ∀ a, (f a).Steady) (htotal : ∀ a, (f a).Total) {a : α}
    (h : ((a :: l).filterMapM f).InLimits g) :
    ∃ m o n bs, g.Allows (m + n) ∧ (f a).Takes g m (.ok o) ∧
      (l.filterMapM f).Takes g n (.ok bs) := by
  have hl : (l.filterMapM f).Steady :=
    (Steady.isInherited.isCompositional.filterMapM fun a _ => ⟨rfl, hf a⟩).2
  rw [filterMapM_cons_eq] at h
  obtain ⟨m, r, hallows, ha, hrest⟩ :=
    Steady.takes_of_bind (hf a) (fun _ => hl.bind fun _ => .pure _) h
  obtain ⟨o, rfl⟩ := ha.ok_of_total hallows (htotal a)
  obtain ⟨n, s, hallows', hrest⟩ := hrest o rfl
  have hallowsRest : g.Allows n := by
    unfold Guard.Allows at hallows' ⊢
    omega
  obtain ⟨k, r, hallowsList, hlist, -⟩ :=
    Steady.takes_of_bind hl (fun _ => .pure _) (hrest.inLimits hallowsRest)
  obtain ⟨bs, rfl⟩ := hlist.ok_of_total hallowsList (total_filterMapM htotal l)
  obtain ⟨rfl, -⟩ := (hlist.bind_pure (o.toList ++ ·)).unique hrest
  exact ⟨m, o, k, bs, hallows', ha, hlist⟩

/-- Checks that always succeed, made one after the other in two orders, take as many steps and
find the same. -/
theorem filterMapM_perm (hf : ∀ a, (f a).Steady) (htotal : ∀ a, (f a).Total)
    (hperm : l.Perm l') (h : (l.filterMapM f).InLimits g) :
    ∃ n bs bs', g.Allows n ∧ (l.filterMapM f).Takes g n (.ok bs) ∧
      (l'.filterMapM f).Takes g n (.ok bs') ∧ bs.Perm bs' := by
  induction hperm with
  | nil => exact ⟨0, [], [], Nat.le_max_left .., .pure g _, .pure g _, .refl _⟩
  | cons a _ ih =>
    obtain ⟨m, o, n, bs, hallows, ha, hl⟩ := takes_of_filterMapM_cons hf htotal h
    have hallows' : g.Allows n := by
      unfold Guard.Allows at hallows ⊢
      omega
    obtain ⟨_, _, bs', _, hl₁, hl', hbs⟩ := ih (hl.inLimits hallows')
    obtain ⟨rfl, heq⟩ := hl.unique hl₁
    cases heq
    exact ⟨m + n, _, _, hallows, takes_filterMapM_cons ha hl hallows.steps_le,
      takes_filterMapM_cons ha hl' hallows.steps_le, hbs.append_left _⟩
  | swap a b l =>
    obtain ⟨m, o, n, bs, hallows, hb, hal⟩ := takes_of_filterMapM_cons hf htotal h
    have hallows' : g.Allows n := by
      unfold Guard.Allows at hallows ⊢
      omega
    obtain ⟨m', o', n', bs', hallows'', ha, hl⟩ :=
      takes_of_filterMapM_cons hf htotal (hal.inLimits hallows')
    obtain ⟨rfl, heq⟩ := (takes_filterMapM_cons ha hl hallows''.steps_le).unique hal
    cases heq
    have hsteps := hallows.steps_le
    have hbl := takes_filterMapM_cons hb hl (by omega)
    refine ⟨m + (m' + n'), _, o'.toList ++ (o.toList ++ bs'), hallows,
      takes_filterMapM_cons hb hal hsteps, ?_, ?_⟩
    · rw [Nat.add_left_comm]
      exact takes_filterMapM_cons ha hbl (by omega)
    · rw [← List.append_assoc, ← List.append_assoc]
      exact List.perm_append_comm.append_right _
  | trans _ _ ih ih' =>
    obtain ⟨n, bs₁, bs₂, hallows, hl₁, hl₂, hbs⟩ := ih h
    obtain ⟨n', _, bs₃, _, hl₂', hl₃, hbs'⟩ := ih' (hl₂.inLimits hallows)
    obtain ⟨rfl, heq⟩ := hl₂.unique hl₂'
    cases heq
    exact ⟨n, bs₁, bs₃, hallows, hl₁, hl₃, hbs.trans hbs'⟩

end Check
/-! ### Selecting a candidate -/

namespace Program

variable (p : Program)

/-- The viable candidates of a call, each with the conversions that make it viable. -/
def viableCandidates (convert : ConvertArgument) (candidates : List Candidate)
    (object : Option Expr) (args : List Expr) (allowUser : Bool) :
    Check (List (Candidate × List (Option Conversion))) :=
  candidates.filterMapM fun c => do
    let conversions ← p.viableConversions convert object args allowUser c
    return conversions.map (c, ·)

/-- The selection of the best of the viable candidates. -/
def selectBest (viable : List (Candidate × List (Option Conversion))) : Formed Selection :=
  if viable.isEmpty then .error .noViableFunction
  else
    match Candidate.best? viable with
    | none => .error .ambiguous
    | some (c, conversions) => c.select conversions

variable {p} {convert : ConvertArgument} {candidates : List Candidate} {object : Option Expr}
  {args : List Expr} {allowUser : Bool} {viable viable' : List (Candidate × List (Option Conversion))}

theorem resolve_eq_selectBest : p.resolve convert candidates object args allowUser =
    p.viableCandidates convert candidates object args allowUser >>= fun viable =>
      Check.ofFormed (selectBest viable) := by
  refine bind_congr fun viable => ?_
  unfold selectBest
  dsimp only
  by_cases hempty : viable.isEmpty = true
  · rw [if_pos hempty, if_pos hempty]
    rfl
  · rw [if_neg hempty, if_neg hempty]
    cases Candidate.best? viable <;> rfl

theorem selectBest_perm (h : ∀ c ∈ viable, c.1.HasOneTieBreaker) (hperm : viable.Perm viable') :
    selectBest viable = selectBest viable' := by
  unfold selectBest
  rw [Candidate.best?_perm h hperm, hperm.isEmpty_eq]

theorem total_argumentConversions (args : List Expr) (params : List Ty) :
    (argumentConversions convert allowUser args params).Total := by
  induction args generalizing params with
  | nil => exact Check.total_pure _
  | cons arg args ih =>
    cases params with
    | nil =>
      simp only [argumentConversions]
      split
      · exact Check.total_pure _
      · exact (ih []).bind fun _ => Check.total_pure _
    | cons param params =>
      refine (Check.total_attempt _).bind fun o => ?_
      cases o with
      | none => exact Check.total_pure _
      | some c => exact (ih params).bind fun _ => Check.total_pure _

theorem total_viableConversions (c : Candidate) :
    (p.viableConversions convert object args allowUser c).Total := by
  simp only [viableConversions]
  repeat' split
  all_goals first
    | exact Check.total_pure _
    | exact (total_argumentConversions _ _).bind fun _ => Check.total_pure _

theorem fst_mem_of_viableCandidates
    (h : (p.viableCandidates convert candidates object args allowUser).Returns viable) :
    ∀ c ∈ viable, c.1 ∈ candidates := by
  intro c hc
  obtain ⟨candidate, hmem, h⟩ := h.filterMapM c hc
  obtain ⟨conversions, -, h⟩ := h.bind
  rw [Check.returns_pure] at h
  obtain ⟨_, -, rfl⟩ := Option.map_eq_some_iff.mp h
  exact hmem

/-- Candidates in another order are viable as before, after as many steps. -/
theorem viableCandidates_perm {depth : Nat} {candidates' : List Candidate} {g : Guard CheckKey}
    (hperm : candidates.Perm candidates')
    (h : (p.viableCandidates (p.checkerBelow depth).convert candidates object args allowUser).InLimits
      g) :
    ∃ n viable viable', g.Allows n ∧
      (p.viableCandidates (p.checkerBelow depth).convert candidates object args allowUser).Takes g n
        (.ok viable) ∧
      (p.viableCandidates (p.checkerBelow depth).convert candidates' object args
        allowUser).Takes g n (.ok viable') ∧
      viable.Perm viable' := by
  refine Check.filterMapM_perm (fun c => ?_) (fun c => ?_) hperm h
  · exact .bind (Check.Steady.isInherited.isCompositional.viableConversions
      (fun _ _ _ _ (_ : True) => ⟨rfl, (p.steady_convert depth _ _ _ _).1⟩) object (fun _ _ => trivial) c).2
      fun _ => .pure _
  · exact (total_viableConversions c).bind fun _ => Check.total_pure _

/-- Which function overload resolution selects, or why it selects none, does not depend on the order
of the candidates: of two conversion sequences at most one is better, so that at most one viable
candidate is better than all the others. The steps of the conversions that are tried count against
one limit, and a resolution that comes to it may fail differently in another order. -/
theorem resolve_order : (∀ x y : Conversion, (x.compare y).swap = y.compare x) ∧
    ∀ (p : Program) (depth : Nat) (candidates : List Candidate) (object : Option Expr)
      (args : List Expr) (allowUser : Bool) (g : Guard CheckKey),
      (∀ c ∈ candidates, c.isTemplate = true → c.result = none) →
        (∀ viable, ((p.viableCandidates (p.checkerOfDepth depth).convert candidates object args
            allowUser).run g).1 = .ok viable →
          ∀ i j, Candidate.IsBestAt viable i → Candidate.IsBestAt viable j → i = j) ∧
        ∀ candidates', candidates.Perm candidates' →
          (p.resolve (p.checkerOfDepth depth).convert candidates object args allowUser).InLimits g →
          (p.resolve (p.checkerOfDepth depth).convert candidates' object args allowUser).run g =
            (p.resolve (p.checkerOfDepth depth).convert candidates object args allowUser).run g := by
  refine ⟨Conversion.compare_swap, fun p depth candidates object args allowUser g htie => ?_⟩
  refine ⟨fun viable hviable i j => ?_, fun candidates' hperm hlimits => ?_⟩
  · refine Candidate.isBestAt_unique fun c hc => htie _ ?_
    exact fst_mem_of_viableCandidates ⟨g, hviable⟩ c hc
  · rw [checkerOfDepth_eq] at hlimits ⊢
    simp only [resolve_eq_selectBest] at hlimits ⊢
    have hsteady : (p.viableCandidates (p.checkerBelow (depth + 1)).convert candidates object args
        allowUser).InLimits g := by
      unfold Check.InLimits at hlimits ⊢
      rw [Check.run_bind] at hlimits
      rcases hrun : (p.viableCandidates (p.checkerBelow (depth + 1)).convert candidates object args
        allowUser).run g with ⟨_ | viable, g'⟩ <;> rw [hrun] at hlimits
      · exact hlimits
      · exact hlimits
    obtain ⟨n, viable, viable', hallows, htakes, htakes', hviable⟩ :=
      viableCandidates_perm hperm hsteady
    have hrun := htakes.run g (.refl g) hallows
    have hrun' := htakes'.run g (.refl g) hallows
    have hmem := fst_mem_of_viableCandidates ⟨g, congrArg Prod.fst hrun⟩
    rw [Check.run_bind, Check.run_bind, hrun, hrun']
    dsimp only
    rw [selectBest_perm (fun c hc => htie _ (hmem c hc)) hviable]

/-- A function that takes a `double`, a template that takes an `int`, and a function that takes an
`int`, which is selected for an `int`. -/
def overloads : List Candidate :=
  [.library { params := [.builtin .double] } false, .library { params := [.builtin .int] } true,
    .library { params := [.builtin .int], noexcept := true } false]

theorem resolve_order_overloads :
    (∀ c ∈ overloads, c.isTemplate = true → c.result = none) ∧
      overloads.Perm overloads.reverse ∧
      (resolve { target := .lp64 } (checkerOfDepth { target := .lp64 } 2).convert overloads none
        [.prvalue (.builtin .int)] true).InLimits (.fresh .initialization) ∧
      (resolve { target := .lp64 } (checkerOfDepth { target := .lp64 } 2).convert overloads.reverse
        none [.prvalue (.builtin .int)] true).run (.fresh .initialization) =
      (resolve { target := .lp64 } (checkerOfDepth { target := .lp64 } 2).convert overloads none
        [.prvalue (.builtin .int)] true).run (.fresh .initialization) := by
  have htie : ∀ c ∈ overloads, c.isTemplate = true → c.result = none := by decide
  have hlimits : (resolve { target := .lp64 } (checkerOfDepth { target := .lp64 } 2).convert
      overloads none [.prvalue (.builtin .int)] true).InLimits (.fresh .initialization) := by
    unfold Check.InLimits
    decide +kernel
  have hperm := overloads.reverse_perm.symm
  exact ⟨htie, hperm, hlimits, (resolve_order.2 { target := .lp64 } 2 overloads none
    [.prvalue (.builtin .int)] true (.fresh .initialization) htie).2 _ hperm hlimits⟩

end Program
end TypeTraits
