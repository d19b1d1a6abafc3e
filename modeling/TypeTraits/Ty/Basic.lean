import TypeTraits.Builtin
import TypeTraits.Qualifier

/-!
# Types

A type is a tree: builtin types, declared records and enumerations at its leaves, and the
compound types built from them. Trees need not be in normal form; `TypeTraits.Ty.Formation`
has the operations that keep them so. Records and enumerations are nominal, so a tree names
them by the number of their declaration.
-/

namespace TypeTraits

/-- The number of a class, struct or union declaration; the first is 1. -/
structure RecordId where
  index : Nat
  deriving DecidableEq, Repr, Inhabited, Hashable

/-- The number of an enumeration declaration; the first is 1. -/
structure EnumId where
  index : Nat
  deriving DecidableEq, Repr, Inhabited, Hashable

/-- What a function type says besides its result and its parameters. The qualifiers `cv` and
`ref` belong to the object parameter of a member function; a plain function type that has them
can be neither pointed nor referred to. -/
structure FunctionQualifiers where
  variadic : Bool := false
  cv : Cv := ∅
  ref : RefQualifier := .none
  noexcept : Bool := false
  deriving DecidableEq, Repr, Inhabited, Hashable

/-- A type. -/
inductive Ty where
  | void
  | nullptr
  | builtin (kind : Builtin)
  | qualified (type : Ty) (cv : Cv)
  | pointer (pointee : Ty)
  | lvalueRef (referent : Ty)
  | rvalueRef (referent : Ty)
  | array (element : Ty) (bound : Option Nat)
  | function (result : Ty) (params : List Ty) (quals : FunctionQualifiers)
  | memberPointer (cls : Ty) (pointee : Ty)
  | record (id : RecordId)
  | enum (id : EnumId)
  /-- A function type named by the number of a signature that is not known. -/
  | functionNamed (number : Nat)
  /-- A name that stands for no type. -/
  | unknown (number : Nat)
  deriving Repr, Inhabited

namespace Ty

/-- Induction on types: the step for a function type has the hypothesis for each parameter. -/
@[elab_as_elim]
theorem inductionOn {motive : Ty → Prop} (t : Ty)
    (void : motive .void) (nullptr : motive .nullptr)
    (builtin : ∀ k, motive (.builtin k))
    (qualified : ∀ t cv, motive t → motive (.qualified t cv))
    (pointer : ∀ t, motive t → motive (.pointer t))
    (lvalueRef : ∀ t, motive t → motive (.lvalueRef t))
    (rvalueRef : ∀ t, motive t → motive (.rvalueRef t))
    (array : ∀ t b, motive t → motive (.array t b))
    (function : ∀ r ps q, motive r → (∀ p ∈ ps, motive p) → motive (.function r ps q))
    (memberPointer : ∀ c t, motive c → motive t → motive (.memberPointer c t))
    (record : ∀ i, motive (.record i)) (enum : ∀ i, motive (.enum i))
    (functionNamed : ∀ n, motive (.functionNamed n)) (unknown : ∀ n, motive (.unknown n)) :
    motive t :=
  Ty.rec (motive_1 := motive) (motive_2 := fun ps => ∀ p ∈ ps, motive p)
    void nullptr builtin qualified pointer lvalueRef rvalueRef array function
    memberPointer record enum functionNamed unknown
    (fun _ h => nomatch h)
    (fun _ _ h hs p hp => by
      rcases List.mem_cons.1 hp with rfl | hp
      · exact h
      · exact hs p hp)
    t

mutual

/-- Whether two trees are the same. -/
def same : Ty → Ty → Bool
  | void, void => true
  | nullptr, nullptr => true
  | builtin k, builtin l => k == l
  | qualified t c, qualified u d => t.same u && c == d
  | pointer t, pointer u => t.same u
  | lvalueRef t, lvalueRef u => t.same u
  | rvalueRef t, rvalueRef u => t.same u
  | array t b, array u c => b == c && t.same u
  | function r ps q, function s ts w => q == w && r.same s && sameAll ps ts
  | memberPointer c t, memberPointer d u => c.same d && t.same u
  | record i, record j => i == j
  | enum i, enum j => i == j
  | functionNamed m, functionNamed n => m == n
  | unknown m, unknown n => m == n
  | _, _ => false

/-- Whether two lists hold the same trees. -/
def sameAll : List Ty → List Ty → Bool
  | [], [] => true
  | t :: ts, u :: us => t.same u && sameAll ts us
  | _, _ => false

end

theorem sameAll_iff {ps : List Ty} (h : ∀ p ∈ ps, ∀ u, p.same u = true ↔ p = u) (us : List Ty) :
    sameAll ps us = true ↔ ps = us := by
  induction ps generalizing us with
  | nil => cases us <;> simp [sameAll]
  | cons p ps ih =>
    cases us with
    | nil => simp [sameAll]
    | cons u us =>
      have hp := h p List.mem_cons_self u
      have hps := ih (fun q hq => h q (List.mem_cons_of_mem _ hq)) us
      simp [sameAll, hp, hps]

theorem same_iff (t u : Ty) : t.same u = true ↔ t = u := by
  induction t using Ty.inductionOn generalizing u with
  | qualified t cv ih => cases u <;> simp [same, ih]
  | pointer t ih => cases u <;> simp [same, ih]
  | lvalueRef t ih => cases u <;> simp [same, ih]
  | rvalueRef t ih => cases u <;> simp [same, ih]
  | array t b ih => cases u <;> simp [same, ih, and_comm]
  | function r ps q ihr ihp =>
    cases u <;> simp [same, ihr, sameAll_iff ihp]
    grind
  | memberPointer c t ihc iht => cases u <;> simp [same, ihc, iht]
  | _ => cases u <;> simp [same]

instance : DecidableEq Ty := fun t u =>
  decidable_of_iff _ (same_iff t u)

mutual

/-- A hash of the tree. -/
def hashCode : Ty → UInt64
  | void => 3
  | nullptr => 5
  | builtin k => mixHash 7 (hash k)
  | qualified t c => mixHash 11 (mixHash t.hashCode (hash c))
  | pointer t => mixHash 13 t.hashCode
  | lvalueRef t => mixHash 17 t.hashCode
  | rvalueRef t => mixHash 19 t.hashCode
  | array t b => mixHash 23 (mixHash t.hashCode (hash b))
  | function r ps q => mixHash 29 (mixHash r.hashCode (mixHash (hashAll ps) (hash q)))
  | memberPointer c t => mixHash 31 (mixHash c.hashCode t.hashCode)
  | record i => mixHash 37 (hash i)
  | enum i => mixHash 41 (hash i)
  | functionNamed n => mixHash 43 (hash n)
  | unknown n => mixHash 47 (hash n)

/-- A hash of a list of trees. -/
def hashAll : List Ty → UInt64
  | [] => 53
  | t :: ts => mixHash t.hashCode (hashAll ts)

end

instance : Hashable Ty := ⟨hashCode⟩

end Ty

/-- A function signature: what a call of the function needs to know. -/
structure Signature where
  result : Ty
  params : List Ty
  quals : FunctionQualifiers := {}
  deriving DecidableEq, Repr, Inhabited

namespace Signature

/-- Whether the function type has an object parameter's qualifiers, so that no pointer or
reference to it can be formed. -/
def isAbominable (s : Signature) : Bool :=
  !s.quals.cv.isEmpty || s.quals.ref != .none

/-- The function type with this signature. -/
def type (s : Signature) : Ty := .function s.result s.params s.quals

end Signature

end TypeTraits
