import TypeTraits.Pool.TypeFormation
import TypeTraits.Proofs.Pool.TypeTable

/-!
# The identity of types

Types formed step by step in one table, each from the handles of types formed before. Whatever is
formed, and in whatever order, a handle reads back as the normal form of what was written, and
two handles are equal exactly when the normal forms are. On a table that types have been entered
into, each operation on handles does what entering the type that it forms does.
-/

namespace TypeTraits

namespace Ty

mutual

/-- The type that a tree writes: its normal form, from the leaves up. -/
def normalForm : Ty → Ty
  | qualified t cv => t.normalForm.qualify cv
  | pointer t => pointer t.normalForm
  | lvalueRef t => t.normalForm.lvalueRefTo
  | rvalueRef t => t.normalForm.rvalueRefTo
  | array t b => array t.normalForm b
  | function r ps quals => functionOf ⟨r.normalForm, normalForms ps, quals⟩
  | memberPointer c t => memberPointer c.normalForm t.normalForm
  | void => void
  | nullptr => nullptr
  | builtin k => builtin k
  | record id => record id
  | enum id => enum id
  | functionNamed n => functionNamed n
  | unknown n => unknown n

/-- The types that several trees write. -/
def normalForms : List Ty → List Ty
  | [] => []
  | t :: ts => t.normalForm :: normalForms ts

end

mutual

/-- Whether the tree has no part that is only named by a number. -/
def isSpelledOut : Ty → Bool
  | qualified t _ | pointer t | lvalueRef t | rvalueRef t | array t _ => t.isSpelledOut
  | function r ps _ => r.isSpelledOut && areSpelledOut ps
  | memberPointer c t => c.isSpelledOut && t.isSpelledOut
  | functionNamed _ | unknown _ => false
  | _ => true

/-- Whether no tree of a list has a part that is only named by a number. -/
def areSpelledOut : List Ty → Bool
  | [] => true
  | t :: ts => t.isSpelledOut && areSpelledOut ts

end

theorem areSpelledOut_iff {ts : List Ty} :
    areSpelledOut ts = true ↔ ∀ t ∈ ts, t.isSpelledOut = true := by
  induction ts with
  | nil => simp [areSpelledOut]
  | cons t ts ih => simp [areSpelledOut, ih]

theorem normalForms_eq_map (ts : List Ty) : normalForms ts = ts.map normalForm := by
  induction ts with
  | nil => rfl
  | cons t ts ih => rw [normalForms, ih, List.map_cons]

/-- A type in normal form writes itself. -/
theorem normalForm_of_isNormal {t : Ty} (h : t.isNormal = true) : t.normalForm = t := by
  induction t using Ty.inductionOn with
  | qualified t cv ih =>
    simp only [isNormal, Bool.and_eq_true, Bool.not_eq_true'] at h
    rw [normalForm, ih h.2, qualify_of_not_isEmpty h.1.1, withCv_of_takesQualifier h.1.2]
  | lvalueRef t ih =>
    simp only [isNormal, Bool.and_eq_true, Bool.not_eq_true'] at h
    rw [normalForm, ih h.2]
    cases t <;> simp_all [lvalueRefTo, isReference, referent?]
  | rvalueRef t ih =>
    simp only [isNormal, Bool.and_eq_true, Bool.not_eq_true'] at h
    rw [normalForm, ih h.2]
    cases t <;> simp_all [rvalueRefTo, isReference, referent?]
  | function r ps quals ihr ihps =>
    simp only [isNormal, Bool.and_eq_true, areNormalParameters_iff] at h
    have hparams : (ps.map normalForm).map asParameter = ps := by
      rw [List.map_map]
      refine (List.map_congr_left fun p hp => ?_).trans (List.map_id' ps)
      rw [Function.comp, ihps p hp (h.2 p hp).2, asParameter_of_isParameter (h.2 p hp).1]
    rw [normalForm, normalForms_eq_map, ihr h.1, functionOf, hparams]
  | _ => simp_all [normalForm, isNormal]

end Ty

namespace Cv

theorem union_eq_of_covers {a b : Cv} (h : a.covers b = true) : a ∪ b = a := by
  rcases a with ⟨_ | _, _ | _⟩ <;> rcases b with ⟨_ | _, _ | _⟩ <;> first | rfl | cases h

end Cv

namespace TypeTable

section Operations

variable {sharding : Sharding TypeNode} {table : TypeTable} {handle : TypeHandle} {t : Ty}

theorem pointerTo_eq_add (h : table.Distinct sharding) (ht : table.Stands handle t) :
    table.pointerTo sharding handle = table.add sharding (.pointer t) := by
  rw [add, h.add_eq t handle ht, pointerTo]

theorem arrayOf_eq_add (h : table.Distinct sharding) (ht : table.Stands handle t)
    (bound : Option Nat) :
    table.arrayOf sharding handle bound = table.add sharding (.array t bound) := by
  rw [add, h.add_eq t handle ht, arrayOf]

theorem memberPointerTo_eq_add (h : table.Distinct sharding) {cls : TypeHandle} {c : Ty}
    (hc : table.Stands cls c) (ht : table.Stands handle t) :
    table.memberPointerTo sharding cls handle = table.add sharding (.memberPointer c t) := by
  simp only [add, h.add_eq c cls hc, h.add_eq t handle ht, memberPointerTo]

theorem lvalueRefTo_eq_add (h : table.Distinct sharding) (ht : table.Stands handle t) :
    table.lvalueRefTo sharding handle = table.add sharding t.lvalueRefTo := by
  have hself := h.add_eq t handle ht
  have hwrap : table.add sharding (.lvalueRef t) = table.intern sharding (.lvalueRef handle) := by
    rw [add, hself]
  obtain ⟨n, hn, hmeans⟩ := ht
  cases t with
  | lvalueRef t =>
    obtain ⟨part, rfl, -⟩ := hmeans
    simp only [lvalueRefTo, hn, Ty.lvalueRefTo, hself]
  | rvalueRef t =>
    obtain ⟨part, rfl, hpart⟩ := hmeans
    simp only [lvalueRefTo, hn, Ty.lvalueRefTo, add, h.add_eq t part hpart]
  | functionNamed _ | unknown _ => exact hmeans.elim
  | _ =>
    simp only [Means] at hmeans
    grind [lvalueRefTo, Ty.lvalueRefTo]

theorem rvalueRefTo_eq_add (h : table.Distinct sharding) (ht : table.Stands handle t) :
    table.rvalueRefTo sharding handle = table.add sharding t.rvalueRefTo := by
  have hself := h.add_eq t handle ht
  have hwrap : table.add sharding (.rvalueRef t) = table.intern sharding (.rvalueRef handle) := by
    rw [add, hself]
  obtain ⟨n, hn, hmeans⟩ := ht
  cases t with
  | lvalueRef t | rvalueRef t =>
    obtain ⟨part, rfl, -⟩ := hmeans
    simp only [rvalueRefTo, hn, Ty.rvalueRefTo, hself]
  | functionNamed _ | unknown _ => exact hmeans.elim
  | _ =>
    simp only [Means] at hmeans
    grind [rvalueRefTo, Ty.rvalueRefTo]

theorem withCvWithin_eq_add (h : table.Distinct sharding) (cv : Cv) {bound : Nat}
    (ht : table.Stands handle t) (hbound : t.height ≤ bound) :
    withCvWithin sharding cv bound table handle = table.add sharding (t.withCv cv) := by
  induction bound generalizing t handle with
  | zero => cases t <;> simp [Ty.height] at hbound
  | succ bound ih =>
    have hself := h.add_eq t handle ht
    have hwrap : table.add sharding (.qualified t cv) =
        table.intern sharding (.qualified handle cv) := by
      rw [add, hself]
    obtain ⟨n, hn, hmeans⟩ := ht
    cases t with
    | qualified t c =>
      obtain ⟨part, rfl, hpart⟩ := hmeans
      simp only [withCvWithin, hn, Ty.withCv]
      split
      · next hcovers => rw [Cv.union_eq_of_covers hcovers, hself]
      · rw [add, h.add_eq t part hpart]
    | array t b =>
      obtain ⟨part, rfl, hpart⟩ := hmeans
      simp only [Ty.height] at hbound
      simp only [withCvWithin, hn, Ty.withCv, add, ih hpart (by omega)]
    | lvalueRef t | rvalueRef t =>
      obtain ⟨part, rfl, -⟩ := hmeans
      simp only [withCvWithin, hn, Ty.withCv, hself]
    | function r ps quals =>
      obtain ⟨number, s, rfl, -⟩ := hmeans
      simp only [withCvWithin, hn, Ty.withCv, hself]
    | functionNamed _ | unknown _ => exact hmeans.elim
    | _ =>
      simp only [Means] at hmeans
      grind [withCvWithin, Ty.withCv]

theorem qualify_eq_add (h : table.Valid sharding) (ht : table.Stands handle t) (cv : Cv) :
    table.qualify sharding handle cv = table.add sharding (t.qualify cv) := by
  rw [qualify, Ty.qualify]
  split
  · rw [h.add_eq t handle ht]
  · exact withCvWithin_eq_add h.toDistinct cv ht (h.height_le ht)

theorem asParameter_eq_add (h : table.Distinct sharding) (ht : table.Stands handle t) :
    table.asParameter sharding handle = table.add sharding t.asParameter := by
  have hself := h.add_eq t handle ht
  have hpointer := pointerTo_eq_add h ht
  obtain ⟨n, hn, hmeans⟩ := ht
  cases t with
  | qualified t c =>
    obtain ⟨part, rfl, hpart⟩ := hmeans
    simp only [asParameter, hn, Ty.asParameter, h.add_eq t part hpart]
  | array t b =>
    obtain ⟨part, rfl, hpart⟩ := hmeans
    simp only [asParameter, hn, Ty.asParameter, pointerTo_eq_add h hpart]
  | function r ps quals =>
    obtain ⟨number, s, rfl, -⟩ := hmeans
    simp only [asParameter, hn, Ty.asParameter, hpointer]
  | functionNamed _ | unknown _ => exact hmeans.elim
  | _ =>
    simp only [Means] at hmeans
    grind [asParameter, Ty.asParameter]

theorem asParameters_eq_addAll (h : table.Distinct sharding) {ts : List Ty}
    {handles : List TypeHandle} (hts : table.AllMean ts handles) :
    table.asParameters sharding handles = table.addAll sharding (ts.map .asParameter) := by
  induction ts generalizing table handles with
  | nil => cases handles <;> simp_all [AllMean, asParameters, addAll]
  | cons t ts ih =>
    cases handles with
    | nil => simp [AllMean] at hts
    | cons handle handles =>
      have hext : (table.add sharding t.asParameter).2.Extends table := add_extends _ table
      have htail := ih (h.add t.asParameter) (hts.2.imp hext fun u _ => hext.means u)
      simp only [asParameters, List.map_cons, addAll, asParameter_eq_add h hts.1, htail]

theorem functionOf_eq_add (h : table.Distinct sharding) {s : StoredSignature} {r : Ty}
    {ps : List Ty} (hr : table.Stands s.result r) (hps : table.AllMean ps s.params) :
    table.functionOf sharding s = table.add sharding (.functionOf ⟨r, ps, s.quals⟩) := by
  simp only [functionOf, Ty.functionOf, add, h.add_eq r s.result hr, asParameters_eq_addAll h hps]

theorem withCvWithin_extends (cv : Cv) (bound : Nat) (table : TypeTable) (handle : TypeHandle) :
    (withCvWithin sharding cv bound table handle).2.Extends table := by
  induction bound generalizing handle with
  | zero => exact .refl table
  | succ bound ih =>
    rw [withCvWithin]
    split
    · split
      · exact .refl table
      · exact intern_extends ..
    · exact .refl table
    · exact .refl table
    · exact .refl table
    · exact (intern_extends ..).trans (ih _)
    · exact intern_extends ..

theorem asParameter_extends (table : TypeTable) (handle : TypeHandle) :
    (table.asParameter sharding handle).2.Extends table := by
  rw [asParameter]
  split <;> first | exact .refl table | exact intern_extends ..

theorem asParameters_extends (table : TypeTable) (handles : List TypeHandle) :
    (table.asParameters sharding handles).2.Extends table := by
  induction handles generalizing table with
  | nil => exact .refl table
  | cons handle handles ih =>
    rw [asParameters]
    exact (ih _).trans (asParameter_extends table handle)

end Operations

/-- One step of forming types: from the handles of types formed before, each with what was
written for it, one operation forms a type. -/
inductive Forms (sharding : Sharding TypeNode) (table : TypeTable) (known : List (Ty × TypeHandle)) :
    Ty → TypeHandle × TypeTable → Prop
  | void : Forms sharding table known .void (table.intern sharding .void)
  | nullptr : Forms sharding table known .nullptr (table.intern sharding .nullptr)
  | builtin (k : Builtin) :
      Forms sharding table known (.builtin k) (table.intern sharding (.builtin k))
  | record (id : RecordId) :
      Forms sharding table known (.record id) (table.intern sharding (.record id))
  | enum (id : EnumId) : Forms sharding table known (.enum id) (table.intern sharding (.enum id))
  | qualified {t : Ty × TypeHandle} (cv : Cv) : t ∈ known →
      Forms sharding table known (.qualified t.1 cv) (table.qualify sharding t.2 cv)
  | pointer {t : Ty × TypeHandle} : t ∈ known →
      Forms sharding table known (.pointer t.1) (table.pointerTo sharding t.2)
  | lvalueRef {t : Ty × TypeHandle} : t ∈ known →
      Forms sharding table known (.lvalueRef t.1) (table.lvalueRefTo sharding t.2)
  | rvalueRef {t : Ty × TypeHandle} : t ∈ known →
      Forms sharding table known (.rvalueRef t.1) (table.rvalueRefTo sharding t.2)
  | array {t : Ty × TypeHandle} (bound : Option Nat) : t ∈ known →
      Forms sharding table known (.array t.1 bound) (table.arrayOf sharding t.2 bound)
  | function {r : Ty × TypeHandle} {ps : List (Ty × TypeHandle)} (quals : FunctionQualifiers) :
      r ∈ known → (∀ p ∈ ps, p ∈ known) →
      Forms sharding table known (.function r.1 (ps.map (·.1)) quals)
        (table.functionOf sharding ⟨r.2, ps.map (·.2), quals⟩)
  | memberPointer {c t : Ty × TypeHandle} : c ∈ known → t ∈ known →
      Forms sharding table known (.memberPointer c.1 t.1) (table.memberPointerTo sharding c.2 t.2)

/-- The tables and the handles that forming types one after another leads to, in any order: a
type may be formed as soon as its parts have been. -/
inductive Formed (sharding : Sharding TypeNode) : TypeTable → List (Ty × TypeHandle) → Prop
  | start : Formed sharding .fresh []
  | step {table : TypeTable} {known : List (Ty × TypeHandle)} {t : Ty}
      {outcome : TypeHandle × TypeTable} : Formed sharding table known →
      Forms sharding table known t outcome → Formed sharding outcome.2 ((t, outcome.1) :: known)

section Runs

variable {sharding : Sharding TypeNode} {table : TypeTable} {known : List (Ty × TypeHandle)}

theorem Forms.extends {t : Ty} {outcome : TypeHandle × TypeTable}
    (h : Forms sharding table known t outcome) : outcome.2.Extends table := by
  cases h with
  | qualified cv _ =>
    rw [qualify]
    split
    · exact .refl table
    · exact withCvWithin_extends ..
  | lvalueRef _ =>
    rw [lvalueRefTo]
    split <;> first | exact .refl table | exact intern_extends ..
  | rvalueRef _ =>
    rw [rvalueRefTo]
    split <;> first | exact .refl table | exact intern_extends ..
  | function quals _ _ =>
    exact (intern_extends ..).trans ((internSignature_extends ..).trans (asParameters_extends ..))
  | _ => exact intern_extends ..

theorem allMean_normalForms {ts : List (Ty × TypeHandle)}
    (h : ∀ x ∈ ts, table.Stands x.2 x.1.normalForm) :
    table.AllMean (Ty.normalForms (ts.map (·.1))) (ts.map (·.2)) := by
  induction ts with
  | nil => trivial
  | cons x ts ih => exact ⟨h x (by simp), ih fun y hy => h y (by simp [hy])⟩

/-- A step does what entering the type that is written does. -/
theorem Forms.eq_add {t : Ty} {outcome : TypeHandle × TypeTable}
    (h : Forms sharding table known t outcome) (hvalid : table.Valid sharding)
    (hknown : ∀ x ∈ known, table.Stands x.2 x.1.normalForm) :
    outcome = table.add sharding t.normalForm := by
  have hdistinct := hvalid.toDistinct
  cases h with
  | qualified cv ht => exact qualify_eq_add hvalid (hknown _ ht) cv
  | pointer ht => exact pointerTo_eq_add hdistinct (hknown _ ht)
  | lvalueRef ht => exact lvalueRefTo_eq_add hdistinct (hknown _ ht)
  | rvalueRef ht => exact rvalueRefTo_eq_add hdistinct (hknown _ ht)
  | array bound ht => exact arrayOf_eq_add hdistinct (hknown _ ht) bound
  | function quals hr hps =>
    exact functionOf_eq_add hdistinct (hknown _ hr)
      (allMean_normalForms fun p hp => hknown p (hps p hp))
  | memberPointer hc ht => exact memberPointerTo_eq_add hdistinct (hknown _ hc) (hknown _ ht)
  | _ => rfl

theorem Forms.isNormal {t : Ty} {outcome : TypeHandle × TypeTable}
    (h : Forms sharding table known t outcome)
    (hknown : ∀ x ∈ known, x.1.normalForm.isNormal = true) : t.normalForm.isNormal = true := by
  cases h with
  | qualified cv ht => exact Ty.isNormal_qualify (hknown _ ht)
  | lvalueRef ht => exact Ty.isNormal_lvalueRefTo (hknown _ ht)
  | rvalueRef ht => exact Ty.isNormal_rvalueRefTo (hknown _ ht)
  | pointer ht | array bound ht => exact hknown _ ht
  | function quals hr hps =>
    simp only [Ty.normalForm, Ty.functionOf, Ty.normalForms_eq_map, Ty.isNormal, Bool.and_eq_true,
      Ty.areNormalParameters_iff, List.mem_map]
    refine ⟨hknown _ hr, ?_⟩
    rintro u ⟨v, ⟨w, ⟨p, hp, rfl⟩, rfl⟩, rfl⟩
    exact Ty.isNormal_asParameter (hknown p (hps p hp))
  | memberPointer hc ht => simp [Ty.normalForm, Ty.isNormal, hknown _ hc, hknown _ ht]
  | _ => rfl

/-- Every handle that has been given out stands for the normal form of what was written for it. -/
theorem Formed.valid (h : Formed sharding table known) (hroom : table.HasRoom) :
    table.Valid sharding ∧
      ∀ x ∈ known, x.1.normalForm.isNormal = true ∧ table.Stands x.2 x.1.normalForm := by
  induction h with
  | start => exact ⟨fresh_valid, by simp⟩
  | step _ hforms ih =>
    obtain ⟨hvalid, hknown⟩ := ih (hforms.extends.hasRoom hroom)
    have hnormal := hforms.isNormal fun x hx => (hknown x hx).1
    have heq := hforms.eq_add hvalid fun x hx => (hknown x hx).2
    have hentered := hvalid.add _ hnormal (heq ▸ hroom)
    rw [← heq] at hentered
    refine ⟨hentered.valid, fun x hx => ?_⟩
    rcases List.mem_cons.1 hx with rfl | hx
    · exact ⟨hnormal, hentered.stands⟩
    · exact ⟨(hknown x hx).1, hforms.extends.stands (hknown x hx).2⟩

/-- The identity of types: in whatever order types are formed in one table, each handle reads back
as the normal form of what was written for it, and two handles are the same exactly when the
normal forms are. -/
theorem Formed.handles_identify (h : Formed sharding table known) (hroom : table.HasRoom) :
    (∀ x ∈ known, table.read x.2 = x.1.normalForm) ∧
      ∀ x ∈ known, ∀ y ∈ known, x.2 = y.2 ↔ x.1.normalForm = y.1.normalForm := by
  obtain ⟨hvalid, hknown⟩ := h.valid hroom
  refine ⟨fun x hx => hvalid.read_eq (hknown x hx).2, fun x hx y hy => ?_⟩
  exact hvalid.stands_iff (hknown x hx).2 (hknown y hy).2

/-- An array of `const` elements and a `const` array, each formed in its own order. -/
theorem handles_identify_const_array :
    ∃ table known handle handle', Formed (fun _ => 0) table known ∧ table.HasRoom ∧
      (.qualified (.array (.builtin .int) none) .const, handle) ∈ known ∧
      (.array (.qualified (.builtin .int) .const) none, handle') ∈ known ∧
      handle = handle' ∧ table.read handle = .array (.qualified (.builtin .int) .const) none := by
  have hint : Formed (fun _ => 0) _ _ := Formed.start.step (.builtin .int)
  have harray := hint.step (.array none (.head _))
  have hconst := harray.step (.qualified .const (.tail _ (.head _)))
  have hfirst := hconst.step (.qualified .const (.tail _ (.head _)))
  have hsecond := hfirst.step (.array none (.tail _ (.head _)))
  have hidentify := hsecond.handles_identify (by decide +kernel)
  refine ⟨_, _, _, _, hsecond, by decide +kernel, .tail _ (.head _), .head _, ?_, ?_⟩
  · exact (hidentify.2 _ (.tail _ (.head _)) _ (.head _)).2 (by decide)
  · exact hidentify.1 _ (.tail _ (.head _))

/-- Entering the normal form of what was written finds its handle. -/
theorem Formed.add_eq (h : Formed sharding table known) (hroom : table.HasRoom)
    {x : Ty × TypeHandle} (hx : x ∈ known) :
    table.add sharding x.1.normalForm = (x.2, table) :=
  (h.valid hroom).1.add_eq _ _ ((h.valid hroom).2 x hx).2

/-- At every point any number of further types can be formed. -/
theorem Formed.exists_handles {ts : List Ty}
    (hts : ∀ t ∈ ts, ∀ table known, Formed sharding table known → ∃ table' known' handle,
      Formed sharding table' known' ∧ known ⊆ known' ∧ (t, handle) ∈ known')
    (h : Formed sharding table known) : ∃ table' known', ∃ ps : List (Ty × TypeHandle),
      Formed sharding table' known' ∧ known ⊆ known' ∧ ps.map (·.1) = ts ∧ ∀ p ∈ ps, p ∈ known' := by
  induction ts generalizing table known with
  | nil => exact ⟨table, known, [], h, fun _ hx => hx, rfl, by simp⟩
  | cons t ts ih =>
    obtain ⟨_, _, handle, h, hsub, ht⟩ := hts t (by simp) table known h
    obtain ⟨_, _, ps, h, hsub', rfl, hps⟩ := ih (fun u hu => hts u (by simp [hu])) h
    refine ⟨_, _, (t, handle) :: ps, h, fun x hx => hsub' (hsub hx), rfl, ?_⟩
    exact List.forall_mem_cons.2 ⟨hsub' ht, hps⟩

/-- At every point every type that is spelled out can be formed. -/
theorem Formed.exists_handle (t : Ty) (ht : t.isSpelledOut = true)
    (h : Formed sharding table known) : ∃ table' known' handle,
      Formed sharding table' known' ∧ known ⊆ known' ∧ (t, handle) ∈ known' := by
  induction t using Ty.inductionOn generalizing table known with
  | qualified t cv ih =>
    obtain ⟨_, _, handle, h, hsub, hmem⟩ := ih ht h
    exact ⟨_, _, _, h.step (.qualified cv hmem), fun x hx => .tail _ (hsub hx), .head _⟩
  | pointer t ih =>
    obtain ⟨_, _, handle, h, hsub, hmem⟩ := ih ht h
    exact ⟨_, _, _, h.step (.pointer hmem), fun x hx => .tail _ (hsub hx), .head _⟩
  | lvalueRef t ih =>
    obtain ⟨_, _, handle, h, hsub, hmem⟩ := ih ht h
    exact ⟨_, _, _, h.step (.lvalueRef hmem), fun x hx => .tail _ (hsub hx), .head _⟩
  | rvalueRef t ih =>
    obtain ⟨_, _, handle, h, hsub, hmem⟩ := ih ht h
    exact ⟨_, _, _, h.step (.rvalueRef hmem), fun x hx => .tail _ (hsub hx), .head _⟩
  | array t b ih =>
    obtain ⟨_, _, handle, h, hsub, hmem⟩ := ih ht h
    exact ⟨_, _, _, h.step (.array b hmem), fun x hx => .tail _ (hsub hx), .head _⟩
  | function r ps quals ihr ihps =>
    simp only [Ty.isSpelledOut, Bool.and_eq_true, Ty.areSpelledOut_iff] at ht
    obtain ⟨_, _, handle, h, hsub, hr⟩ := ihr ht.1 h
    obtain ⟨_, _, ps, h, hsub', rfl, hps⟩ :=
      h.exists_handles fun p hp _ _ h => ihps p hp (ht.2 p hp) h
    exact ⟨_, _, _, h.step (.function quals (hsub' hr) hps),
      fun x hx => .tail _ (hsub' (hsub hx)), .head _⟩
  | memberPointer c t ihc iht =>
    simp only [Ty.isSpelledOut, Bool.and_eq_true] at ht
    obtain ⟨_, _, _, h, hsub, hc⟩ := ihc ht.1 h
    obtain ⟨_, _, _, h, hsub', hmem⟩ := iht ht.2 h
    exact ⟨_, _, _, h.step (.memberPointer (hsub' hc) hmem),
      fun x hx => .tail _ (hsub' (hsub hx)), .head _⟩
  | void => exact ⟨_, _, _, h.step .void, fun x hx => .tail _ hx, .head _⟩
  | nullptr => exact ⟨_, _, _, h.step .nullptr, fun x hx => .tail _ hx, .head _⟩
  | builtin k => exact ⟨_, _, _, h.step (.builtin k), fun x hx => .tail _ hx, .head _⟩
  | record id => exact ⟨_, _, _, h.step (.record id), fun x hx => .tail _ hx, .head _⟩
  | enum id => exact ⟨_, _, _, h.step (.enum id), fun x hx => .tail _ hx, .head _⟩
  | functionNamed _ | unknown _ => simp [Ty.isSpelledOut] at ht

end Runs

end TypeTable

end TypeTraits
