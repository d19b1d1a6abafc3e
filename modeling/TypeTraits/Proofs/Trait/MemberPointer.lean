import TypeTraits.Transform
import TypeTraits.Trait.MemberPointer
import TypeTraits.Proofs.Layout.Qualification

/-!
# Putting member pointers together again

The parts of a pointer to member function keep everything that its type says. The class is what is
left of the object parameter without its reference and its qualifiers, and the function type is the
plain signature with the qualifiers of the object parameter. Parameters that have been adjusted once
stay as they are, so forming the function type anew gives the one that was taken apart.
-/

namespace TypeTraits

namespace Ty

/-- The parameters of a function type in normal form are not adjusted any further. -/
theorem functionOf_of_isNormal {r : Ty} {ps : List Ty} {q : FunctionQualifiers}
    (h : (function r ps q).isNormal = true) (q' : FunctionQualifiers) :
    functionOf ⟨r, ps, q'⟩ = function r ps q' := by
  simp only [isNormal, Bool.and_eq_true, areNormalParameters_iff] at h
  have hparams : ps.map asParameter = ps.map id :=
    List.map_congr_left fun t ht => asParameter_of_isParameter (h.2 t ht).1
  rw [functionOf, hparams, List.map_id]

/-- A possibly qualified member pointer is split into the parts of its unqualified version. -/
theorem memberPointerParts?_of_removeCv {t c m : Ty} (h : t.removeCv = memberPointer c m) :
    t.memberPointerParts? = some (c, m) := by
  cases t with
  | qualified t cv =>
    change t = _ at h
    rw [h]
    rfl
  | array t b =>
    simp only [removeCv, unqualified, splitCv] at h
    split at h <;> cases h
  | memberPointer c' m' =>
    cases h
    rfl
  | _ => cases h

theorem eq_function_of_signature? {t : Ty} {f : Signature} (h : t.signature? = some f) :
    t = function f.result f.params f.quals := by
  cases t <;> cases h
  rfl

end Ty

namespace ReceiverQualifier

/-- An object parameter: an object of a class as a member function with this qualification sees
it. -/
def objectOf (q : ReceiverQualifier) (cls : Ty) : Ty :=
  match q.ref with
  | .none => cls.qualify q.cv
  | .lvalue => (cls.qualify q.cv).lvalueRefTo
  | .rvalue => (cls.qualify q.cv).rvalueRefTo

/-- The class of an object parameter is what is left of it without reference and qualifiers. -/
theorem removeCvref_objectOf (q : ReceiverQualifier) (id : RecordId) :
    (q.objectOf (.record id)).removeCvref = .record id := by
  cases q <;> rfl

end ReceiverQualifier

namespace MemberPointerParts

/-- The signature that the parts tell: the plain one with the qualifiers of the object parameter. -/
def qualifiedSignature (parts : MemberPointerParts) (plain : Signature) : Signature :=
  { plain with
    quals := { plain.quals with cv := parts.qualifier.cv, ref := parts.qualifier.ref } }

/-- The pointer to member function that the parts tell. -/
def pointer? (parts : MemberPointerParts) : Option Ty :=
  parts.signature.signature?.map fun plain =>
    .memberPointer parts.classType.removeCvref (.functionOf (parts.qualifiedSignature plain))

/-- The parts of a pointer to a member of a class that is a function. -/
def ofSignature (cls : Ty) (f : Signature) : MemberPointerParts where
  classType := (ReceiverQualifier.ofParts f.quals.cv f.quals.ref).objectOf cls
  result := f.result
  signature := .functionOf { f with quals := { f.quals with cv := ∅, ref := .none } }
  params := f.params
  qualifier := .ofParts f.quals.cv f.quals.ref
  variadic := f.quals.variadic

/-- The parts of a pointer to a member function, put together again. -/
theorem pointer?_ofSignature {id : RecordId} {f : Signature} (h : f.type.isNormal = true) :
    (ofSignature (.record id) f).pointer? = some (.memberPointer (.record id) f.type) := by
  have hplain := Ty.functionOf_of_isNormal h { f.quals with cv := ∅, ref := .none }
  have hwhole := Ty.functionOf_of_isNormal h f.quals
  have hsignature : (ofSignature (.record id) f).signature.signature? =
      some ⟨f.result, f.params, { f.quals with cv := ∅, ref := .none }⟩ :=
    congrArg Ty.signature? hplain
  rw [pointer?, hsignature, Option.map_some]
  simp only [qualifiedSignature, ofSignature, ReceiverQualifier.cv_ofParts,
    ReceiverQualifier.ref_ofParts, ReceiverQualifier.removeCvref_objectOf, hwhole]
  rfl

end MemberPointerParts

namespace Solver

variable {s : Solver} {t m : Ty} {id : RecordId} {f : Signature}

/-- Where ref-qualifiers are known, or there is none, a pointer to member function has parts. -/
theorem memberPointerParts?_eq (ht : t.removeCv = .memberPointer (.record id) m)
    (hf : m.signature? = some f) (href : s.knowsRefQualifiers = true ∨ f.quals.ref = .none) :
    s.memberPointerParts? t = some (.ofSignature (.record id) f) := by
  have hknown : (f.quals.ref != .none && !s.knowsRefQualifiers) = false := by
    rcases href with href | href <;> simp [href]
  simp only [memberPointerParts?, Ty.memberPointerParts?_of_removeCv ht, hf, Option.bind_eq_bind,
    Option.bind_some, hknown]
  rfl

/-- The parts of a pointer to member function lose nothing. Whatever the class and the signature,
the pointer has parts, unless it has a ref-qualifier that is not known; put together again they give
the pointer without its own qualifiers, and the result, the parameters and the ellipsis among them
are those of the plain signature. -/
theorem memberPointerParts_lossless (h : t.IsFormed)
    (ht : t.removeCv = .memberPointer (.record id) m) (hf : m.signature? = some f)
    (href : s.knowsRefQualifiers = true ∨ f.quals.ref = .none) :
    ∃ parts, s.memberPointerParts? t = some parts ∧ parts.pointer? = some t.removeCv ∧
      ∃ plain, parts.signature.signature? = some plain ∧ parts.result = plain.result ∧
        parts.params = plain.params ∧ parts.variadic = plain.quals.variadic := by
  obtain rfl : m = f.type := Ty.eq_function_of_signature? hf
  have hpointer : (Ty.memberPointer (.record id) f.type).isNormal = true :=
    ht ▸ Ty.isNormal_unqualified (Ty.isFormed_iff_isNormal.mp h)
  have hnormal : f.type.isNormal = true := by simpa [Ty.isNormal] using hpointer
  refine ⟨_, memberPointerParts?_eq ht hf href, ?_, ?_⟩
  · rw [ht, MemberPointerParts.pointer?_ofSignature hnormal]
  · exact ⟨⟨f.result, f.params, { f.quals with cv := ∅, ref := .none }⟩,
      congrArg Ty.signature? (Ty.functionOf_of_isNormal hnormal _), rfl, rfl, rfl⟩

/-- A `volatile` pointer to a member function of an rvalue that is `const`, declared with an array,
a function and a `const` parameter before an ellipsis. -/
def listener : Ty :=
  let handler : Signature := ⟨.void, [.builtin .double], { noexcept := true }⟩
  let params : List Ty :=
    [.array (.builtin .int) (some 3), handler.type, .qualified (.builtin .char) .const]
  let signature : Signature :=
    ⟨.lvalueRef (.record ⟨1⟩), params, ⟨true, .const, .rvalue, true⟩⟩
  (Ty.memberPointer (.record ⟨1⟩) (.functionOf signature)).qualify .volatile

theorem memberPointerParts_lossless_listener :
    let s : Solver := { program := { target := .lp64 } }
    listener.IsFormed ∧ s.knowsRefQualifiers = true ∧
      ∃ parts, s.memberPointerParts? listener = some parts ∧
        parts.pointer? = some listener.removeCv ∧
        ∃ plain, parts.signature.signature? = some plain ∧ parts.params = plain.params := by
  intro s
  have hformed : listener.IsFormed := Ty.isFormed_iff_isNormal.mpr rfl
  have hknown : s.knowsRefQualifiers = true := Capabilities.supports_all .refQualifiedFunctions
  obtain ⟨parts, hparts, hpointer, plain, hplain, -, hparams, -⟩ :=
    memberPointerParts_lossless (s := s) hformed rfl rfl (Or.inl hknown)
  exact ⟨hformed, hknown, parts, hparts, hpointer, plain, hplain, hparams⟩

end Solver
end TypeTraits
