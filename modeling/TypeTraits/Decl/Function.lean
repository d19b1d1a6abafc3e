import TypeTraits.Ty.View

/-!
# Function declarations

Constructors, assignment operators, destructors, conversion functions, call and indirection
operators, and free `swap` overloads are all declared by one structure. Constructors return
`void` and conversion functions their target type.
-/

namespace TypeTraits

/-- Where the definition of a function comes from. -/
inductive Origin where
  | userProvided
  | defaulted
  | deleted
  | implicit
  deriving DecidableEq, Repr, Inhabited

/-- A function declared by, or together with, a class. -/
structure FunctionDecl where
  params : List Ty
  variadic : Bool := false
  result : Ty := .void
  /-- Qualification of the object parameter. -/
  cv : Cv := ∅
  ref : RefQualifier := .none
  explicit : Bool := false
  noexcept : Bool := false
  constexpr : Bool := false
  access : Access := .pub
  origin : Origin := .userProvided
  deleted : Bool := false
  /-- Overload resolution does not see the function: a move operation that was defaulted and
  came out deleted. -/
  hidden : Bool := false
  trivial : Bool := false
  isVirtual : Bool := false
  deriving DecidableEq, Repr, Inhabited

namespace FunctionDecl

def isUserDeclared (f : FunctionDecl) : Bool := f.origin != .implicit

def isUserProvided (f : FunctionDecl) : Bool := f.origin == .userProvided

/-- Whether the compiler writes the body. -/
def isCompilerDefined (f : FunctionDecl) : Bool :=
  f.origin == .implicit || f.origin == .defaulted

/-- Whether code outside the class may call the function. -/
def isUsable (f : FunctionDecl) : Bool := !f.deleted && f.access == .pub

/-- Whether the function takes exactly `arity` arguments and no more. -/
def takes (f : FunctionDecl) (arity : Nat) : Bool :=
  f.params.length == arity && !f.variadic

/-- The function with `g` applied to its types. -/
def mapTypes (g : Ty → Ty) (f : FunctionDecl) : FunctionDecl :=
  { f with params := f.params.map g, result := g f.result }

end FunctionDecl

/-- One word that follows or precedes a function's declarator. -/
inductive FunctionSpecifier where
  | variadic
  | explicit
  | noexcept
  | constexpr
  | cv (cv : Cv)
  | ref (ref : RefQualifier)
  | virtual
  | defaulted
  | deleted
  | access (access : Access)
  deriving DecidableEq, Repr

/-- The specifier that a word gives. -/
def FunctionSpecifier.ofWord? : String → Option FunctionSpecifier
  | "variadic" => some variadic
  | "explicit" => some explicit
  | "noexcept" => some noexcept
  | "constexpr" => some constexpr
  | "const" => some (cv .const)
  | "volatile" => some (cv .volatile)
  | "cv" => some (cv .constVolatile)
  | "&" => some (ref .lvalue)
  | "&&" => some (ref .rvalue)
  | "virtual" => some virtual
  | "default" => some defaulted
  | "delete" => some deleted
  | word => (Access.ofKeyword? word).map access

namespace FunctionDecl

/-- The declaration with one more specifier. Qualifiers accumulate; of two ref-qualifiers,
access levels or definitions the later counts, but a deleted function stays deleted. -/
def specify (f : FunctionDecl) : FunctionSpecifier → FunctionDecl
  | .variadic => { f with variadic := true }
  | .explicit => { f with explicit := true }
  | .noexcept => { f with noexcept := true }
  | .constexpr => { f with constexpr := true }
  | .cv cv => { f with cv := f.cv ∪ cv }
  | .ref ref => { f with ref := ref }
  | .virtual => { f with isVirtual := true }
  | .defaulted => { f with origin := .defaulted }
  | .deleted => { f with origin := .deleted, deleted := true }
  | .access access => { f with access := access }

/-- A function with the given parameters, result and specifiers. -/
def declare (params : List Ty) (result : Ty) (specifiers : List FunctionSpecifier) :
    FunctionDecl :=
  specifiers.foldl specify { params, result }

end FunctionDecl

end TypeTraits
