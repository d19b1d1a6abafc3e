import Mathlib.Data.Int.Order.Basic
import Mathlib.Tactic.NormNum
import TypeTraits.Ladder
import TypeTraits.Proofs.Layout.Object

/-!
# Arithmetic on data models

A text may describe scalar types of any size, but numbers of bits are 32-bit words and the limits of
integer types are signed 128-bit words. Here each such computation is carried out a second time, so
that it fails where a step leaves its word. It succeeds on types of moderate size: numbers of bits
below `2 ^ 29` bytes, limits below 16 bytes. Beyond that limits come out as those of the size modulo
16, so that a range of enumerators can be denied to the integer type that holds it.
-/

namespace TypeTraits

/-- A signed 128-bit word. -/
def IsSignedWord (n : Int) : Prop := -2 ^ 127 ≤ n ∧ n < 2 ^ 127

instance : DecidablePred IsSignedWord := fun _ => inferInstanceAs (Decidable (_ ∧ _))

/-- A number that is a signed 128-bit word. -/
def signedWord? (n : Int) : Option Int := if IsSignedWord n then some n else none

namespace Builtin

variable {target : Target} {k : Builtin}

/-- The number of value bits, where neither the multiplication nor the narrowing to 32 bits loses
any. -/
def valueBits? (target : Target) (k : Builtin) : Option Nat :=
  match k with
  | bool => some 1
  | _ => do
    let bits ← Layout.fits? ((k.layout target).size * 8)
    if bits < 2 ^ 32 then some bits else none

/-- A power of two as a signed 128-bit word, where the exponent is a place in the word. -/
def powerWord? (exponent : Nat) : Option Int :=
  if exponent < 128 then some (powerWord exponent) else none

/-- The limits of an integral kind, where every step of their computation has a result. -/
def range? (target : Target) (k : Builtin) : Option (Int × Int) := do
  let bits ← k.valueBits? target
  if k.isSigned target then
    let half ← if bits = 0 then none else powerWord? (bits - 1)
    return (← signedWord? (-half), ← signedWord? (half - 1))
  else
    let power ← powerWord? bits
    return (0, ← signedWord? (power - 1))

/-- Least and greatest value of an integer of a number of bytes in two's complement. -/
def twosComplement (isSigned : Bool) (bytes : Nat) : Int × Int :=
  if isSigned then (-2 ^ (8 * bytes - 1), 2 ^ (8 * bytes - 1) - 1) else (0, 2 ^ (8 * bytes) - 1)

theorem valueBits_of_ne (hk : k ≠ .bool) :
    k.valueBits target = (k.layout target).size * 8 % 2 ^ 32 := by
  cases k <;> first | rfl | exact absurd rfl hk

theorem valueBits?_eq_some_iff {n : Nat} : k.valueBits? target = some n ↔
    n = k.valueBits target ∧ (k ≠ .bool → (k.layout target).size < 2 ^ 29) := by
  by_cases hk : k = .bool
  · subst hk
    simp [valueBits?, valueBits, eq_comm]
  · have hchecked : k.valueBits? target = (Layout.fits? ((k.layout target).size * 8)).bind
        fun bits => if bits < 2 ^ 32 then some bits else none := by
      cases k <;> first | rfl | exact absurd rfl hk
    rw [valueBits_of_ne hk, hchecked, Option.bind_eq_some_iff]
    simp only [Layout.fits?_eq_some_iff, Option.ite_none_right_eq_some, Option.some.injEq,
      Layout.limit, Nat.one_shiftLeft]
    constructor
    · rintro ⟨bits, ⟨rfl, -⟩, hlt, rfl⟩
      exact ⟨(Nat.mod_eq_of_lt hlt).symm, fun _ => by omega⟩
    · rintro ⟨rfl, hsize⟩
      have hsize := hsize hk
      exact ⟨_, ⟨rfl, by omega⟩, by omega, (Nat.mod_eq_of_lt (by omega)).symm⟩

end Builtin

theorem bmod_of_isSignedWord {n : Int} (h : IsSignedWord n) : Int.bmod n (1 <<< 128) = n := by
  obtain ⟨hlow, hhigh⟩ := h
  rw [Nat.one_shiftLeft]
  exact Int.bmod_eq_of_le (by omega) (by omega)

theorem signedWord?_eq_some_iff {n m : Int} : signedWord? n = some m ↔ n = m ∧ IsSignedWord n := by
  simp only [signedWord?, Option.ite_none_right_eq_some, Option.some.injEq]
  exact and_comm

theorem signedWord?_of_isSignedWord {n : Int} (h : IsSignedWord n) : signedWord? n = some n :=
  signedWord?_eq_some_iff.mpr ⟨rfl, h⟩

section Powers

variable {exponent : Nat} (h : exponent < 127)

include h

/-- Below the place of the sign, powers of two and what limits are made of them are words. -/
theorem isSignedWord_two_pow : IsSignedWord (2 ^ exponent) := by
  have hle : (2 : Int) ^ exponent ≤ 2 ^ 126 := pow_le_pow_right₀ (by norm_num) (by omega)
  have hpos : (0 : Int) < 2 ^ exponent := by positivity
  exact ⟨by omega, by omega⟩

theorem isSignedWord_neg_two_pow : IsSignedWord (-2 ^ exponent) := by
  obtain ⟨-, hlt⟩ := isSignedWord_two_pow h
  have hpos : (0 : Int) < 2 ^ exponent := by positivity
  exact ⟨by omega, by omega⟩

theorem isSignedWord_two_pow_sub_one : IsSignedWord (2 ^ exponent - 1) := by
  obtain ⟨-, hlt⟩ := isSignedWord_two_pow h
  have hpos : (0 : Int) < 2 ^ exponent := by positivity
  exact ⟨by omega, by omega⟩

end Powers

namespace Builtin

variable {target : Target} {k : Builtin}

/-- The last place of a word is that of its sign. -/
theorem powerWord_of_eq {exponent : Nat} (h : exponent % 128 = 127) :
    powerWord exponent = -2 ^ 127 := by
  unfold powerWord
  rw [h]
  rfl

theorem powerWord_of_ne {exponent : Nat} (h : exponent % 128 ≠ 127) :
    powerWord exponent = 2 ^ (exponent % 128) := by
  unfold powerWord
  rw [Nat.one_shiftLeft, Nat.cast_pow, Nat.cast_ofNat]
  exact bmod_of_isSignedWord (isSignedWord_two_pow (by omega))

/-- The number of bytes that the limits of an integral kind come out with: its own modulo 16, where
a signed kind has one byte at least. -/
def limitBytes (isSigned : Bool) (bytes : Nat) : Nat :=
  if isSigned then (bytes + 15) % 16 + 1 else bytes % 16

theorem limitBytes_of_lt {isSigned : Bool} {bytes : Nat} (hpos : 0 < bytes) (h : bytes < 16) :
    limitBytes isSigned bytes = bytes := by
  cases isSigned <;> simp [limitBytes] <;> omega

/-- The limits of an integral kind are those of the size modulo 16. -/
theorem range_eq (hk : k ≠ .bool) : k.range target =
    twosComplement (k.isSigned target) (limitBytes (k.isSigned target) (k.layout target).size) := by
  simp only [range, valueBits_of_ne hk, twosComplement, limitBytes]
  generalize (k.layout target).size = bytes
  cases k.isSigned target with
  | true =>
    simp only [if_true]
    by_cases hfull : bytes % 16 = 0
    · have hplace : (bytes * 8 % 2 ^ 32 + 127) % 128 = 127 := by omega
      have hbytes : (bytes + 15) % 16 + 1 = 16 := by omega
      rw [powerWord_of_eq hplace, hbytes]
      rfl
    · have hplace : (bytes * 8 % 2 ^ 32 + 127) % 128 = 8 * ((bytes + 15) % 16 + 1) - 1 := by omega
      have hlt : 8 * ((bytes + 15) % 16 + 1) - 1 < 127 := by omega
      rw [powerWord_of_ne (by omega), hplace, bmod_of_isSignedWord (isSignedWord_neg_two_pow hlt),
        bmod_of_isSignedWord (isSignedWord_two_pow_sub_one hlt)]
  | false =>
    have hplace : (bytes * 8 % 2 ^ 32) % 128 = 8 * (bytes % 16) := by omega
    simp only [Bool.false_eq_true, if_false]
    have hlt : 8 * (bytes % 16) < 127 := by omega
    rw [powerWord_of_ne (by omega), hplace, bmod_of_isSignedWord (isSignedWord_two_pow_sub_one hlt)]

theorem valueBits?_of_lt (hk : k ≠ .bool) (h : (k.layout target).size < 16) :
    k.valueBits? target = some ((k.layout target).size * 8) := by
  refine valueBits?_eq_some_iff.mpr ⟨?_, fun _ => by omega⟩
  rw [valueBits_of_ne hk]
  omega

theorem powerWord?_eq_some_iff {exponent : Nat} {n : Int} :
    powerWord? exponent = some n ↔ exponent < 128 ∧ powerWord exponent = n := by
  simp only [powerWord?, Option.ite_none_right_eq_some, Option.some.injEq]

theorem powerWord?_of_lt {exponent : Nat} (h : exponent < 127) :
    powerWord? exponent = some (2 ^ exponent) := by
  have hplace : exponent % 128 = exponent := Nat.mod_eq_of_lt (by omega)
  rw [powerWord?_eq_some_iff, powerWord_of_ne (by omega), hplace]
  exact ⟨by omega, rfl⟩

theorem range?_of_lt (hk : k ≠ .bool) (hpos : 0 < (k.layout target).size)
    (h : (k.layout target).size < 16) :
    k.range? target = some (twosComplement (k.isSigned target) (k.layout target).size) := by
  have hbits := valueBits?_of_lt hk h
  generalize (k.layout target).size = bytes at *
  rw [Nat.mul_comm] at hbits
  cases hsigned : k.isSigned target with
  | true =>
    have hlt : 8 * bytes - 1 < 127 := by omega
    have hne : 8 * bytes ≠ 0 := by omega
    simp only [range?, hbits, hsigned, powerWord?_of_lt hlt, if_neg hne, twosComplement, if_true,
      signedWord?_of_isSignedWord (isSignedWord_neg_two_pow hlt),
      signedWord?_of_isSignedWord (isSignedWord_two_pow_sub_one hlt), Option.bind_eq_bind,
      Option.bind_some, Option.pure_def]
  | false =>
    have hlt : 8 * bytes < 127 := by omega
    simp only [range?, hbits, hsigned, powerWord?_of_lt hlt, twosComplement, Bool.false_eq_true,
      if_false, signedWord?_of_isSignedWord (isSignedWord_two_pow_sub_one hlt), Option.bind_eq_bind,
      Option.bind_some, Option.pure_def]

/-- From 16 bytes on some step of the computation of limits fails: the narrowing of the number of
bits, the shift, or the negation of the least word. -/
theorem range?_of_le (hk : k ≠ .bool) (h : 16 ≤ (k.layout target).size) :
    k.range? target = none := by
  rw [Option.eq_none_iff_forall_ne_some]
  intro limits hlimits
  obtain ⟨bits, hbits, hlimits⟩ := Option.bind_eq_some_iff.mp hlimits
  have hwide : 128 ≤ bits := by
    obtain ⟨rfl, hsize⟩ := valueBits?_eq_some_iff.mp hbits
    have hsize := hsize hk
    rw [valueBits_of_ne hk]
    omega
  cases hsigned : k.isSigned target with
  | true =>
    rw [hsigned, if_pos rfl, if_neg (show bits ≠ 0 by omega)] at hlimits
    obtain ⟨half, hhalf, hlimits⟩ := Option.bind_eq_some_iff.mp hlimits
    obtain ⟨low, hlow, -⟩ := Option.bind_eq_some_iff.mp hlimits
    obtain ⟨hlt, rfl⟩ := powerWord?_eq_some_iff.mp hhalf
    -- The one place left is that of the sign, so `half` is the least word.
    rw [powerWord_of_eq (by omega)] at hlow
    exact absurd (signedWord?_eq_some_iff.mp hlow).2 (by decide)
  | false =>
    rw [hsigned, if_neg Bool.false_ne_true] at hlimits
    obtain ⟨power, hpower, -⟩ := Option.bind_eq_some_iff.mp hlimits
    have hlt := (powerWord?_eq_some_iff.mp hpower).1
    omega

end Builtin

namespace AlignCandidate

/-- The layout of a candidate, where the size of the array of four is a 64-bit word. -/
def layout? (target : Target) : AlignCandidate → Option Layout
  | doubleArrayStruct => do
    let size ← Layout.fits? (target.double.size * 4)
    return ⟨size, target.double.align⟩
  | c => some (c.layout target)

theorem layout?_eq_some_iff {target : Target} {c : AlignCandidate} {l : Layout} :
    c.layout? target = some l ↔
      l = c.layout target ∧ (c = .doubleArrayStruct → target.double.size < 2 ^ 62) := by
  cases c with
  | doubleArrayStruct =>
    simp only [layout?, layout, Option.bind_eq_bind, Option.bind_eq_some_iff,
      Layout.fits?_eq_some_iff, Option.pure_def, Option.some.injEq, Layout.limit,
      Nat.one_shiftLeft, forall_const]
    constructor
    · rintro ⟨size, ⟨rfl, hlt⟩, rfl⟩
      exact ⟨by rw [Nat.mod_eq_of_lt hlt], by omega⟩
    · rintro ⟨rfl, hlt⟩
      exact ⟨_, ⟨rfl, by omega⟩, by rw [Nat.mod_eq_of_lt (by omega)]⟩
  | _ => simp [layout?, eq_comm]

end AlignCandidate

namespace Enumeration

open Builtin

variable {target : Target} {e : Enumeration} {k : Builtin}

/-- An enumeration whose enumerators span a range of 128-bit words. -/
structure IsRange (e : Enumeration) : Prop where
  least : IsSignedWord e.least
  greatest : IsSignedWord e.greatest
  le : e.least ≤ e.greatest

/-- Whether every enumerator is within limits. -/
def isWithin (e : Enumeration) (limits : Int × Int) : Bool :=
  limits.1 ≤ e.least && e.greatest ≤ limits.2

/-- Whether every enumerator is a value of an integer kind, which has as many bytes as the target
says. -/
def isHeldBy (e : Enumeration) (target : Target) (k : Builtin) : Bool :=
  e.isWithin (twosComplement (k.isSigned target) (k.layout target).size)

/-- The first candidate for the underlying type that holds every enumerator. -/
def holder? (e : Enumeration) (target : Target) : Option Builtin :=
  candidates.find? (e.isHeldBy target)

/-- The first of some kinds whose limits allow every enumerator, where the limits of each kind that
is tried can be computed. -/
def firstWithin? (e : Enumeration) (target : Target) : List Builtin → Option Builtin
  | [] => some .unsignedLongLong
  | k :: rest => do
    let limits ← k.range? target
    if e.isWithin limits then some k else firstWithin? e target rest

/-- The underlying type, where every step of its computation has a result. -/
def underlying? (e : Enumeration) (target : Target) : Option Ty :=
  match e.fixedUnderlying with
  | some t => some t
  | none =>
    if e.isScoped then some (.builtin .int)
    else (e.firstWithin? target candidates).map .builtin

theorem fitsIn_eq (e : Enumeration) (target : Target) (k : Builtin) :
    e.fitsIn target k = e.isWithin (k.range target) := rfl

/-- Every range is within the limits of a signed integer of 16 bytes or more. -/
theorem IsRange.isWithin_of_le (h : e.IsRange) {bytes : Nat} (hbytes : 16 ≤ bytes) :
    e.isWithin (twosComplement true bytes) = true := by
  have hle : (2 : Int) ^ 127 ≤ 2 ^ (8 * bytes - 1) := pow_le_pow_right₀ (by norm_num) (by omega)
  have hleast := h.least.1
  have hgreatest := h.greatest.2
  simp only [isWithin, twosComplement, if_true, Bool.and_eq_true, decide_eq_true_eq]
  omega

theorem ne_bool_of_mem_candidates (hk : k ∈ candidates) : k ≠ .bool := by
  rintro rfl
  revert hk
  decide

/-- Each unsigned candidate comes right after the signed one of its size. -/
theorem exists_signed_of_prefix (target : Target) {first : List Builtin}
    (h : first <+: candidates) (hk : k ∈ first) :
    ∃ j ∈ first, j.isSigned target = true ∧ j.layout target = k.layout target := by
  have htake := List.prefix_iff_eq_take.mp h
  generalize first.length = n at htake
  subst htake
  rcases n with _ | _ | _ | _ | _ | _ | n <;>
    simp only [candidates, List.take_succ_cons, List.take_zero, List.take_nil, List.mem_cons,
      List.not_mem_nil, or_false] at hk ⊢ <;>
    rcases hk with rfl | rfl | rfl | rfl | rfl | rfl <;> simp [isSigned, layout]

/-- Candidates that hold not every enumerator have fewer than 16 bytes, up to the first one that
does. -/
theorem IsRange.size_lt_of_prefix (h : e.IsRange) {first : List Builtin}
    (hfirst : first <+: candidates) (hheld : ∀ k ∈ first, e.isHeldBy target k = false) :
    ∀ k ∈ first, (k.layout target).size < 16 := by
  intro k hk
  obtain ⟨j, hj, hsigned, hlayout⟩ := exists_signed_of_prefix target hfirst hk
  by_contra hle
  have hlarge : 16 ≤ (j.layout target).size := by
    rw [hlayout]
    omega
  have hholds := h.isWithin_of_le hlarge
  have hnot := hheld j hj
  rw [isHeldBy, hsigned, hholds] at hnot
  cases hnot

/-- What comes before the first candidate that holds every enumerator has fewer than 16 bytes, and
this one has fewer, too, or is signed. -/
theorem IsRange.holder_cases (h : e.IsRange) (hk : e.holder? target = some k) :
    ∃ first rest, candidates = first ++ k :: rest ∧ e.isHeldBy target k = true ∧
      (∀ j ∈ first, e.isHeldBy target j = false ∧ (j.layout target).size < 16) ∧
      ((k.layout target).size < 16 ∨ k.isSigned target = true) := by
  obtain ⟨hheld, first, rest, hsplit, hbefore⟩ := List.find?_eq_some_iff_append.mp hk
  have hbefore : ∀ j ∈ first, e.isHeldBy target j = false := fun j hj => by
    simpa using hbefore j hj
  have hprefix : first <+: candidates := ⟨k :: rest, hsplit.symm⟩
  have hsmall := h.size_lt_of_prefix hprefix hbefore
  refine ⟨first, rest, hsplit, hheld, fun j hj => ⟨hbefore j hj, hsmall j hj⟩, ?_⟩
  have hthis : first ++ [k] <+: candidates := ⟨rest, by rw [hsplit, List.append_assoc]; rfl⟩
  obtain ⟨j, hj, hsigned, hlayout⟩ :=
    exists_signed_of_prefix target hthis (List.mem_append_right _ List.mem_cons_self)
  rcases List.mem_append.mp hj with hj | hj
  · exact Or.inl (hlayout ▸ hsmall j hj)
  · exact Or.inr (List.mem_singleton.mp hj ▸ hsigned)

section Described

variable (htarget : target.IsDescribed)

include htarget

/-- Below 16 bytes the computed limits allow exactly what the kind holds. -/
theorem fitsIn_of_lt (hk : k ∈ candidates) (hlt : (k.layout target).size < 16) :
    e.fitsIn target k = e.isHeldBy target k := by
  rw [fitsIn_eq, range_eq (ne_bool_of_mem_candidates hk),
    limitBytes_of_lt (htarget.builtin k).1 hlt]
  rfl

/-- Candidates of fewer than 16 bytes that do not hold every enumerator are passed over. -/
theorem firstWithin?_append {first rest : List Builtin} (hfirst : ∀ k ∈ first, k ∈ candidates)
    (hbefore : ∀ k ∈ first, e.isHeldBy target k = false ∧ (k.layout target).size < 16) :
    e.firstWithin? target (first ++ rest) = e.firstWithin? target rest := by
  induction first with
  | nil => rfl
  | cons k first ih =>
    obtain ⟨⟨hheld, hlt⟩, hbefore⟩ := List.forall_mem_cons.mp hbefore
    obtain ⟨hk, hfirst⟩ := List.forall_mem_cons.mp hfirst
    rw [isHeldBy] at hheld
    rw [List.cons_append, firstWithin?, range?_of_lt (ne_bool_of_mem_candidates hk)
      (htarget.builtin k).1 hlt, Option.bind_eq_bind, Option.bind_some, hheld]
    exact ih hfirst hbefore

/-- What the checked search finds: the first candidate that holds every enumerator, if it has fewer
than 16 bytes. -/
theorem IsRange.firstWithin?_eq (h : e.IsRange) (hk : e.holder? target = some k) :
    e.firstWithin? target candidates = if (k.layout target).size < 16 then some k else none := by
  obtain ⟨first, rest, hsplit, hheld, hbefore, -⟩ := h.holder_cases hk
  have hmem : ∀ j ∈ first ++ [k], j ∈ candidates := fun j hj => by
    rw [hsplit]
    simp only [List.mem_append, List.mem_singleton] at hj
    rcases hj with hj | rfl <;> simp [*]
  have hne := ne_bool_of_mem_candidates (hmem k (by simp))
  rw [hsplit, firstWithin?_append htarget (fun j hj => hmem j (by simp [hj])) hbefore, firstWithin?]
  split
  · next hlt =>
    rw [isHeldBy] at hheld
    rw [range?_of_lt hne (htarget.builtin k).1 hlt, Option.bind_eq_bind, Option.bind_some, hheld]
    rfl
  · next hle =>
    rw [range?_of_le hne (by omega)]
    rfl

/-- Where no candidate holds every enumerator, both searches pass all of them over. -/
theorem IsRange.firstWithin?_of_none (h : e.IsRange) (hnone : e.holder? target = none) :
    e.firstWithin? target candidates = some .unsignedLongLong ∧
      candidates.find? (e.fitsIn target) = none := by
  have hheld : ∀ k ∈ candidates, e.isHeldBy target k = false := fun k hk => by
    simpa using List.find?_eq_none.mp hnone k hk
  have hsmall := h.size_lt_of_prefix List.prefix_rfl hheld
  constructor
  · rw [← List.append_nil candidates]
    exact firstWithin?_append htarget (fun _ hk => hk) fun k hk => ⟨hheld k hk, hsmall k hk⟩
  · refine List.find?_eq_none.mpr fun k hk => ?_
    rw [fitsIn_of_lt htarget hk (hsmall k hk), hheld k hk]
    exact Bool.false_ne_true

/-- The search finds the first candidate that holds every enumerator if the limits that come out for
it allow them. -/
theorem IsRange.find?_eq_iff (h : e.IsRange) (hk : e.holder? target = some k) :
    (candidates.find? (e.fitsIn target)).getD .unsignedLongLong = k ↔ e.fitsIn target k = true := by
  obtain ⟨first, rest, hsplit, hheld, hbefore, hsmall⟩ := h.holder_cases hk
  have hmem : k ∈ candidates := hsplit ▸ List.mem_append_right _ List.mem_cons_self
  constructor
  · intro hfound
    cases hfind : candidates.find? (e.fitsIn target) with
    | some j =>
      rw [hfind, Option.getD_some] at hfound
      exact hfound ▸ List.find?_some hfind
    | none =>
      -- The last candidate is unsigned: it is the first to hold the range only if it is small.
      rw [hfind, Option.getD_none] at hfound
      have hlt : (k.layout target).size < 16 := by
        rcases hsmall with hlt | hsigned
        · exact hlt
        · rw [← hfound] at hsigned
          cases hsigned
      rwa [fitsIn_of_lt htarget hmem hlt]
  · intro hfits
    have hfind : candidates.find? (e.fitsIn target) = some k := by
      refine List.find?_eq_some_iff_append.mpr ⟨hfits, first, rest, hsplit, fun j hj => ?_⟩
      have hj' : j ∈ candidates := hsplit ▸ List.mem_append_left _ hj
      rw [fitsIn_of_lt htarget hj' (hbefore j hj).2, (hbefore j hj).1]
      rfl
    rw [hfind, Option.getD_some]

/-- The limits that come out for the first candidate that holds every enumerator allow them if it
has fewer than 16 bytes or a multiple of 16, or if the bytes beyond the last multiple of 16 hold
them already. -/
theorem IsRange.fitsIn_iff (h : e.IsRange) (hk : e.holder? target = some k) :
    e.fitsIn target k = true ↔ (k.layout target).size < 16 ∨ 16 ∣ (k.layout target).size ∨
      e.isWithin (twosComplement true ((k.layout target).size % 16)) = true := by
  obtain ⟨first, rest, hsplit, hheld, -, hsmall⟩ := h.holder_cases hk
  have hmem : k ∈ candidates := hsplit ▸ List.mem_append_right _ List.mem_cons_self
  by_cases hlt : (k.layout target).size < 16
  · simp [fitsIn_of_lt htarget hmem hlt, hheld, hlt]
  · have hsigned := hsmall.resolve_left hlt
    rw [fitsIn_eq, range_eq (ne_bool_of_mem_candidates hmem), hsigned, limitBytes, if_pos rfl]
    by_cases hdvd : 16 ∣ (k.layout target).size
    · have hfull : ((k.layout target).size + 15) % 16 + 1 = 16 := by omega
      simp [hfull, h.isWithin_of_le, hdvd]
    · have hpart : ((k.layout target).size + 15) % 16 + 1 = (k.layout target).size % 16 := by omega
      simp [hpart, hlt, hdvd]

end Described

/-- Whether the underlying type is chosen by the range of the enumerators. -/
def IsUnfixed (e : Enumeration) : Prop := e.fixedUnderlying = none ∧ e.isScoped = false

theorem IsUnfixed.underlying_eq (h : e.IsUnfixed) : e.underlying target =
    .builtin ((candidates.find? (e.fitsIn target)).getD .unsignedLongLong) := by
  rw [underlying, h.1, h.2]
  rfl

theorem IsUnfixed.underlying?_eq (h : e.IsUnfixed) :
    e.underlying? target = (e.firstWithin? target candidates).map .builtin := by
  rw [underlying?, h.1, h.2]
  rfl

theorem underlying?_of_not_isUnfixed (h : ¬e.IsUnfixed) :
    e.underlying? target = some (e.underlying target) := by
  rw [underlying?, underlying]
  cases hfixed : e.fixedUnderlying with
  | some t => rfl
  | none =>
    have hscoped : e.isScoped = true := by simpa [IsUnfixed, hfixed] using h
    simp [hscoped]

/-- The checked computation gives the underlying type unless the first candidate that holds every
enumerator has 16 bytes or more. -/
theorem IsRange.underlying?_eq_some_iff (htarget : target.IsDescribed) (h : e.IsRange) {t : Ty} :
    e.underlying? target = some t ↔ t = e.underlying target ∧
      (e.IsUnfixed → ∀ k, e.holder? target = some k → (k.layout target).size < 16) := by
  by_cases hunfixed : e.IsUnfixed
  · rw [hunfixed.underlying?_eq, hunfixed.underlying_eq]
    cases hk : e.holder? target with
    | none =>
      obtain ⟨hchecked, hfind⟩ := h.firstWithin?_of_none htarget hk
      rw [hchecked, hfind]
      simp [eq_comm]
    | some k =>
      rw [h.firstWithin?_eq htarget hk]
      split
      · next hlt =>
        have hfound := (h.find?_eq_iff htarget hk).mpr ((h.fitsIn_iff htarget hk).mpr (Or.inl hlt))
        simp [hfound, hlt, eq_comm]
      · next hle => simp [hunfixed, hle]
  · rw [underlying?_of_not_isUnfixed hunfixed]
    simp [hunfixed, eq_comm]

/-- The enumeration of all 128-bit words. -/
def widest : Enumeration := ⟨⟨0⟩, "", false, none, -2 ^ 127, 2 ^ 127 - 1⟩

theorem isRange_widest : widest.IsRange := ⟨by decide, by decide, by decide⟩

theorem isUnfixed_widest : widest.IsUnfixed := ⟨rfl, rfl⟩

/-- Only signed integers of 16 bytes or more hold all 128-bit words. -/
theorem isHeldBy_widest (target : Target) (k : Builtin) : widest.isHeldBy target k =
    (k.isSigned target && decide (16 ≤ (k.layout target).size)) := by
  rw [isHeldBy]
  cases k.isSigned target with
  | false => rfl
  | true =>
    by_cases hle : 16 ≤ (k.layout target).size
    · simp [isRange_widest.isWithin_of_le hle, hle]
    · have hpow : (2 : Int) ^ (8 * (k.layout target).size - 1) < 2 ^ 127 :=
        (isSignedWord_two_pow (by omega)).2
      simp only [isWithin, twosComplement, widest, if_true, hle, decide_false, Bool.and_false,
        Bool.and_eq_false_imp, decide_eq_true_eq, decide_eq_false_iff_not]
      omega

/-- The first signed candidate of 16 bytes or more, which holds every range. -/
def widestHolder? (target : Target) : Option Builtin :=
  [Builtin.int, .long, .longLong].find? fun k => 16 ≤ (k.layout target).size

theorem widestHolder?_eq (target : Target) : widestHolder? target =
    candidates.find? fun k => k.isSigned target && decide (16 ≤ (k.layout target).size) := by
  have hfilter : widestHolder? target = (candidates.filter (·.isSigned target)).find? fun k =>
      16 ≤ (k.layout target).size := rfl
  simp only [hfilter, List.find?_filter, decide_eq_true_eq, Bool.decide_and, Bool.decide_eq_true]

/-- Every range has the underlying type that holds it first exactly where the first signed candidate
of 16 bytes or more, if there is one, has a multiple of 16. -/
theorem underlying_eq_holder_iff (htarget : target.IsDescribed) :
    (∀ (e : Enumeration) k, e.IsRange → e.IsUnfixed → e.holder? target = some k →
      e.underlying target = .builtin k) ↔
    ∀ k, widestHolder? target = some k → 16 ∣ (k.layout target).size := by
  constructor
  · intro hall k hk
    have hholder : widest.holder? target = some k := by
      rw [holder?, funext (isHeldBy_widest target), ← widestHolder?_eq, hk]
    have hfound := hall widest k isRange_widest isUnfixed_widest hholder
    rw [isUnfixed_widest.underlying_eq, Ty.builtin.injEq,
      isRange_widest.find?_eq_iff htarget hholder,
      isRange_widest.fitsIn_iff htarget hholder] at hfound
    have hlarge : 16 ≤ (k.layout target).size := by simpa using List.find?_some hk
    rcases hfound with hlt | hdvd | hwithin
    · omega
    · exact hdvd
    · have hpow : (2 : Int) ^ (8 * ((k.layout target).size % 16) - 1) < 2 ^ 127 :=
        (isSignedWord_two_pow (by omega)).2
      simp only [isWithin, twosComplement, widest, if_true, Bool.and_eq_true,
        decide_eq_true_eq] at hwithin
      omega
  · intro hdvd e k h hunfixed hk
    rw [hunfixed.underlying_eq, Ty.builtin.injEq, h.find?_eq_iff htarget hk,
      h.fitsIn_iff htarget hk]
    by_cases hlt : (k.layout target).size < 16
    · exact Or.inl hlt
    · obtain ⟨first, rest, hsplit, -, hbefore, hsmall⟩ := h.holder_cases hk
      have hwidest : widestHolder? target = some k := by
        rw [widestHolder?_eq]
        refine List.find?_eq_some_iff_append.mpr ⟨?_, first, rest, hsplit, fun j hj => ?_⟩
        · simp [hsmall.resolve_left hlt]
          omega
        · have hj := (hbefore j hj).2
          simp [hj]
      exact Or.inr (Or.inl (hdvd k hwidest))

end Enumeration

open Enumeration in
/-- Arithmetic on a data model that a text describes. Numbers of value bits are exact below `2 ^ 29`
bytes, the alignment candidates while four `double` have a size. The underlying type of a range of
enumerators is computed without loss unless the first candidate that holds the range has 16 bytes or
more. It is that candidate if it has fewer than 16 bytes or a multiple of 16, and otherwise only if
the bytes beyond the last multiple of 16 hold the range. -/
theorem Target.IsDescribed.arithmetic_exact {target : Target} (htarget : target.IsDescribed) :
    (∀ (k : Builtin) n, k.valueBits? target = some n ↔
      n = k.valueBits target ∧ (k ≠ .bool → (k.layout target).size < 2 ^ 29)) ∧
    (∀ (c : AlignCandidate) l, c.layout? target = some l ↔
      l = c.layout target ∧ (c = .doubleArrayStruct → target.double.size < 2 ^ 62)) ∧
    (∀ (e : Enumeration) t, e.IsRange → (e.underlying? target = some t ↔ t = e.underlying target ∧
      (e.IsUnfixed → ∀ k, e.holder? target = some k → (k.layout target).size < 16))) ∧
    (∀ (e : Enumeration) k, e.IsRange → e.IsUnfixed → e.holder? target = some k →
      (e.underlying target = .builtin k ↔ (k.layout target).size < 16 ∨
        16 ∣ (k.layout target).size ∨
        e.isWithin (Builtin.twosComplement true ((k.layout target).size % 16)) = true)) ∧
    ((∀ (e : Enumeration) k, e.IsRange → e.IsUnfixed → e.holder? target = some k →
      e.underlying target = .builtin k) ↔
      ∀ k, widestHolder? target = some k → 16 ∣ (k.layout target).size) := by
  refine ⟨fun _ _ => Builtin.valueBits?_eq_some_iff, fun _ _ => AlignCandidate.layout?_eq_some_iff,
    fun _ _ h => h.underlying?_eq_some_iff htarget, ?_, underlying_eq_holder_iff htarget⟩
  intro e k h hunfixed hk
  rw [hunfixed.underlying_eq, Ty.builtin.injEq, h.find?_eq_iff htarget hk, h.fitsIn_iff htarget hk]

/-- A target with four bytes more than `2 ^ 29` in its `int`, whose number of bits comes out as
32. -/
def wideInt : Target := { Target.lp64 with int := ⟨536870916, 4⟩ }

def wideIntText : String :=
  "[\"lp64\",true,true,[1,1],[1,1],[4,4],[2,2],[4,4],[2,2],[536870916,4],[8,8],[8,8],[16,16],[4,4],"
    ++ "[8,8],[16,16],[8,8],[8,8],[16,8],16]"

theorem isDescribed_wideInt : wideInt.IsDescribed :=
  Target.isDescribed_of_toOption (show (Target.ofText wideIntText).toOption = _ by decide +kernel)

/-- Enumerators up to `2 ^ 40` are values of this `int`, but their type is another one. -/
theorem Target.IsDescribed.arithmetic_exact_wideInt :
    let e : Enumeration := ⟨⟨1⟩, "Mask", false, none, 0, 2 ^ 40⟩
    wideInt.IsDescribed ∧ e.IsRange ∧ e.IsUnfixed ∧ e.holder? wideInt = some .int ∧
      e.underlying wideInt ≠ .builtin .int ∧ e.underlying? wideInt = none ∧
      Builtin.int.valueBits? wideInt = none := by
  intro e
  have hrange : e.IsRange := ⟨by decide, by decide, by decide⟩
  have hunfixed : e.IsUnfixed := ⟨rfl, rfl⟩
  have hheld : e.isHeldBy wideInt .int = true := hrange.isWithin_of_le (by decide)
  have hholder : e.holder? wideInt = some .int :=
    List.find?_eq_some_iff_append.mpr ⟨hheld, [], _, rfl, nofun⟩
  obtain ⟨hbits, -, hchecked, hunderlying, -⟩ := isDescribed_wideInt.arithmetic_exact
  refine ⟨isDescribed_wideInt, hrange, hunfixed, hholder, ?_, ?_, ?_⟩
  · rw [Ne, hunderlying e .int hrange hunfixed hholder]
    decide
  · rw [Option.eq_none_iff_forall_ne_some]
    intro t ht
    exact absurd (((hchecked e t hrange).mp ht).2 hunfixed .int hholder) (by decide)
  · rw [Option.eq_none_iff_forall_ne_some]
    intro n hn
    exact absurd (((hbits .int n).mp hn).2 (by decide)) (by decide)

end TypeTraits
