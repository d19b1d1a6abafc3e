import TypeTraits.Trait.Solver
import TypeTraits.Transform

/-!
# Destruction traits

References are always destructible; `void`, functions and arrays of unknown bound never are.
For other types the destructor of the element type decides.
-/

namespace TypeTraits.Solver

variable (s : Solver)

/-- The destruction that the fallback tests. -/
def destruction (t : Ty) : Formed Effects :=
  if t.isReference then .ok .none
  else if t.isVoid || t.isFunction || t.isUnboundedArray then .error .notAnObject
  else s.program.destroy t.element

def isDestructible (t : Ty) : Bool :=
  (s.intrinsic .isDestructible
    (s.ask .isDestructible t [] (Introspection.isDestructible s.program t))).getD
    (s.destruction t).isOk

def isTriviallyDestructible (t : Ty) : Bool :=
  (s.intrinsic .isTriviallyDestructible
    (s.ask .isTriviallyDestructible t []
      (Introspection.isTriviallyDestructible s.program t))).getD
    (s.isDestructible t &&
      (t.isReference ||
        (s.intrinsic .hasTrivialDestructor
          (s.ask .hasTrivialDestructor t.element []
            (Introspection.hasTrivialDestructor s.program t.element))).getD
          ((s.destruction t).toOption.any (·.trivial))))

/-- Without `noexcept` queries only trivial destructors count. -/
def isNothrowDestructible (t : Ty) : Bool :=
  s.isDestructible t &&
    (t.isReference ||
      if !s.knowsNoexcept then s.isTriviallyDestructible t
      else
        (s.intrinsic .isDestructible
          (s.ask .isNothrowDestructible t []
            (Introspection.isNothrowDestructible s.program t))).getD
          ((s.destruction t).toOption.any (·.nothrow)))

end TypeTraits.Solver
