import TypeTraits.Program
import TypeTraits.Recursion.Guard

/-!
# Class hierarchies

Which classes a class derives from, and whether a derived class converts to a base. The walks
follow direct bases in declaration order under a recursion guard. A base subobject is known by
the last virtual base on the way to it and the non-virtual bases passed since, so two paths
through one virtual base reach the same subobject.
-/

namespace TypeTraits

/-- The outcome of converting a derived class to a base. -/
inductive BaseConversion where
  | notBase
  /-- More than one base subobject is reachable. -/
  | ambiguous
  /-- Every path passes a base that is not public. -/
  | inaccessible
  /-- The number of edges on the shortest path; zero for the class itself. -/
  | reachable (distance : Nat)
  deriving DecidableEq, Repr, Inhabited

namespace BaseConversion

def distance? : BaseConversion → Option Nat
  | reachable d => some d
  | _ => none

def isReachable (c : BaseConversion) : Bool := c.distance?.isSome

end BaseConversion

namespace Hierarchy

/-- A walk over base classes, which are its keys. -/
abbrev Walk := StateM (Guard Ty)

/-- Runs a walk from a fresh guard. -/
def Walk.result {α : Type} (w : Walk α) : α := (w (.fresh .hierarchy)).1

/-- The identity of a base subobject: the virtual base it lies in, and the bases passed since,
the last one first. -/
structure Subobject where
  anchor : Option Ty := none
  path : List Ty := []
  deriving DecidableEq, Repr, Inhabited

/-- The subobject reached from `s` by one more base. -/
def Subobject.step (s : Subobject) (base : BaseClass) : Subobject :=
  if base.isVirtual then ⟨some base.type, []⟩ else { s with path := base.type :: s.path }

/-- What a search for one base class has found. -/
structure Search where
  /-- The first subobject found. -/
  found : Option Subobject := none
  /-- Whether another subobject was found as well. -/
  several : Bool := false
  /-- Whether some path was public throughout. -/
  accessible : Bool := false
  shortest : Option Nat := none
  deriving DecidableEq, Repr, Inhabited

namespace Search

/-- Records that a path of `distance` edges reaches the subobject `s`. -/
def reach (search : Search) (s : Subobject) (isPublic : Bool) (distance : Nat) : Search where
  found := search.found.or (some s)
  several := search.several || search.found.any (· != s)
  accessible := search.accessible || isPublic
  shortest := some ((search.shortest.map (min · distance)).getD distance)

/-- The conversion that a finished search allows. -/
def conversion (search : Search) : BaseConversion :=
  if search.several then .ambiguous
  else if !search.accessible then .inaccessible
  else .reachable (search.shortest.getD 1)

end Search

variable (p : Program)

/-- One class of a search for `target`; `deeper` searches a base. -/
def reachStep (target : Ty) (deeper : Ty → Walk Bool) (source : Ty) : Walk Bool :=
  match p.class? source with
  | none => return false
  | some r => r.bases.anyM fun base =>
    if base.type = target then return true
    else Guard.scopeD false base.type (deeper base.type)

/-- Whether some path leads from `source` to `target`, with at most `fuel` nested scopes. -/
def reaches (target : Ty) : Nat → Ty → Walk Bool
  | 0 => reachStep p target fun _ => return false
  | fuel + 1 => reachStep p target (reaches target fuel)

/-- One class of a search for a path to `target` with a virtual edge. -/
def virtualStep (target : Ty) (deeper : Ty → Bool → Walk Bool) (source : Ty) (seen : Bool) :
    Walk Bool :=
  match p.class? source with
  | none => return false
  | some r => r.bases.anyM fun base =>
    let seen := seen || base.isVirtual
    if base.type = target && seen then return true
    else Guard.scopeD false base.type (deeper base.type seen)

/-- Whether some path from `source` to `target` has a virtual edge, or `seen` tells that one
lies before `source`. -/
def reachesVirtually (target : Ty) : Nat → Ty → Bool → Walk Bool
  | 0 => virtualStep p target fun _ _ => return false
  | fuel + 1 => virtualStep p target (reachesVirtually target fuel)

/-- One class of the exhaustive search that a base conversion makes. -/
def searchStep (target : Ty) (deeper : Ty → Subobject → Bool → Search → Walk Search)
    (source : Ty) (at_ : Subobject) (isPublic : Bool) (search : Search) : Walk Search :=
  match p.class? source with
  | none => return search
  | some r => r.bases.foldlM (fun search base => do
      let here := at_.step base
      let isPublic := isPublic && base.access == .pub
      let depth := (← get).depth
      let search := if base.type = target then search.reach here isPublic (depth + 1) else search
      Guard.scopeD search base.type (deeper base.type here isPublic search)) search

/-- Follows every path from `source` and records those that reach `target`. -/
def searchPaths (target : Ty) : Nat → Ty → Subobject → Bool → Search → Walk Search
  | 0 => searchStep p target fun _ _ _ search => return search
  | fuel + 1 => searchStep p target (searchPaths target fuel)

/-- One class of the enumeration of all bases. -/
def collectStep (deeper : Ty → List Ty → Walk (List Ty)) (source : Ty) (seen : List Ty) :
    Walk (List Ty) :=
  match p.class? source with
  | none => return seen
  | some r => r.bases.foldlM (fun seen base =>
      let seen := if base.type ∈ seen then seen else seen ++ [base.type]
      Guard.scopeD seen base.type (deeper base.type seen)) seen

/-- Adds the bases of `source` that are not in the list yet, depth first. -/
def collect : Nat → Ty → List Ty → Walk (List Ty)
  | 0 => collectStep p fun _ seen => return seen
  | fuel + 1 => collectStep p (collect fuel)

end Hierarchy

namespace Program

open Hierarchy

variable (p : Program)

/-- Whether a record number names a declared class or struct. -/
def isClassId (id : RecordId) : Bool :=
  (p.record? id).any (!·.isUnion)

/-- Whether `base` is `derived` or one of its bases, both non-union classes. A class is its own
base even while it is incomplete. -/
def isBaseOf (base derived : Ty) : Bool :=
  match base.recordId?, derived.recordId? with
  | some b, some d =>
    p.isClassId b && p.isClassId d &&
      (b == d || (reaches p base.unqualified Limits.hierarchyDepth derived.unqualified).result)
  | _, _ => false

/-- The conversion from `derived` to `base`. -/
def baseConversion (derived base : Ty) : BaseConversion :=
  let derived := derived.unqualified
  let base := base.unqualified
  if derived = base then .reachable 0
  else if !p.isBaseOf base derived then .notBase
  else
    (searchPaths p base Limits.hierarchyDepth derived {} true {}).result.conversion

/-- Whether some path from `derived` to `base` passes a virtual base. -/
def isVirtualBaseOf (base derived : Ty) : Bool :=
  let base := base.unqualified
  let derived := derived.unqualified
  base != derived && p.isBaseOf base derived &&
    (reachesVirtually p base Limits.hierarchyDepth derived false).result

/-- Every direct and indirect base, each once, in depth-first declaration order. -/
def allBases (t : Ty) : List Ty :=
  (collect p Limits.hierarchyDepth t.unqualified []).result

end Program

end TypeTraits
