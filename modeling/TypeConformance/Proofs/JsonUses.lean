import TypeConformance.Proofs.Assignability
import TypeConformance.Proofs.Casting

/-! # Uses of structs as JSON compared

Whatever a constraint accepts in a field a conversion accepts too, with one exception. An array
for which an implicit cast into `json` is registered satisfies a constraint as a whole, while a
conversion looks at its base.

A struct whose fields all go into `json` can constrain `json`, with one exception. A field that is
a struct is judged by its own fields, also where an implicit cast of it into `json` is registered.
-/
namespace TypeConformance

namespace TypeTable

variable (t : TypeTable) (r : Registry)

structure CastWhole (field : Handle) : Prop where
  array : t.kind field = .ok .array
  registered : ∃ o, r.lookup t .implicitCast field Handle.json = .ok (some o)

def BaseConverts (owner field : Handle) : Prop :=
  ∃ b, t.elementType field = .ok b ∧
    t.FieldHolds r .conversion (fun s => t.isJsonConvertible r s = .ok true) owner b

/-- All arrays cast as a whole that the check of a constraint meets have bases that convert. -/
def CastArraysConvert (h : Handle) : Prop :=
  ∀ s, Relation.ReflTransGen (t.LeadsTo r .constraint) h s →
    ∀ fields, t.structFields s = .ok fields →
      ∀ f ∈ fields, t.CastWhole r f.type → t.BaseConverts r s f.type

variable {t r} {use : JsonUse} {h s owner field part : Handle}

theorem goesIntoJson_iff_registered {kind : Kind} (ht : Layered t) (hk : t.kind field = .ok kind)
    (huser : kind.isUserDefined = true) :
    t.GoesIntoJson r field ↔ ∃ o, r.lookup t .implicitCast field Handle.json = .ok (some o) := by
  obtain ⟨F, hF⟩ := layered_unfold ht (has_of_kind hk)
  have hJ := unfold_json ht
  obtain rfl : F.kind = kind := Except.ok.inj ((kind_eq hF).symm.trans hk)
  have hassign : F.assignable .plainJson = false := by
    cases F with
    | array => rfl
    | nominal => rfl
    | _ => cases huser
  have hcasts (registered : Bool) : F.castsImplicitly registered .plainJson = registered := by
    simp [Tree.castsImplicitly, Tree.plainJson, Tree.isConstrained]
  rw [GoesIntoJson, isAssignable_eq hF hJ, castsImplicitly_eq ht r hF hJ,
    lookup_eq ht r .implicitCast hF hJ]
  simp [hassign, hcasts, Option.isSome_iff_exists]

theorem operator_of_registered {kind : Kind} {o : Operator} (ht : Layered t)
    (hk : t.kind field = .ok kind) (huser : kind.isUserDefined = true)
    (ho : r.lookup t .implicitCast field Handle.json = .ok (some o)) :
    o ∈ r.operators ∧ o.kind = .implicitCast ∧ o.source = field ∧ o.target = Handle.json := by
  obtain ⟨F, hF⟩ := layered_unfold ht (has_of_kind hk)
  obtain rfl : F.kind = kind := Except.ok.inj ((kind_eq hF).symm.trans hk)
  have hsource : F.canonical field = field := by
    cases F with
    | array => rfl
    | nominal => rfl
    | _ => cases huser
  rw [lookup_eq ht r .implicitCast hF (unfold_json ht), hsource] at ho
  exact Registry.find?_spec (Option.filter_eq_some_iff.mp (Except.ok.inj ho)).1

/-- A conversion judges a field by the same part as a constraint, and arrays that a constraint
takes as a whole by their base. -/
theorem judgedBy_conversion_iff (ht : Layered t) :
    t.JudgedBy r .conversion field part ↔
      t.JudgedBy r .constraint field part ∨
        t.CastWhole r field ∧ t.elementType field = .ok part := by
  constructor
  · intro hp
    cases hp with
    | self hk hne => exact .inl (.self hk hne)
    | base hk _ he =>
      by_cases hwhole : t.GoesIntoJson r field
      · exact .inr ⟨⟨hk, (goesIntoJson_iff_registered ht hk rfl).mp hwhole⟩, he⟩
      · exact .inl (.base hk (fun hboth => hwhole hboth.2) he)
  · rintro (hp | ⟨hcast, he⟩)
    · cases hp with
      | self hk hne => exact .self hk hne
      | base hk _ he => exact .base hk (by simp) he
    · exact .base hcast.array (by simp) he

theorem badPart_constraint (hbad : t.BadPart r .conversion owner part) :
    t.BadPart r .constraint owner part :=
  { hbad with closed := by simp }

theorem leadsTo_conversion (ht : Layered t) (hs : t.LeadsTo r .constraint h s) :
    t.LeadsTo r .conversion h s := by
  obtain ⟨hk, fields, hfields, f, hf, hp⟩ := hs
  exact ⟨hk, fields, hfields, f, hf, (judgedBy_conversion_iff ht).mpr (.inl hp)⟩

theorem Sane.reaches (hh : t.Sane r use h)
    (hreach : Relation.ReflTransGen (t.LeadsTo r use) h s) : t.Sane r use s := by
  refine ⟨?_, fun u hu => hh.2 u (hreach.trans hu)⟩
  rcases Relation.ReflTransGen.cases_tail hreach with rfl | ⟨_, _, hlead⟩
  · exact hh.1
  · exact hlead.1

theorem fitsUse_iff_sane (ht : Layered t) (hc : Closed t) :
    t.fitsUse r use s = .ok true ↔ t.Sane r use s := by
  constructor
  · intro hs
    obtain ⟨kind, hk, _⟩ := bind_eq_ok.mp hs
    exact (fitsUse_decides ht hc (has_of_kind hk)).eq_true_iff.mp hs
  · intro hs
    exact (fitsUse_decides ht hc (has_of_kind hs.1)).eq_true_iff.mpr hs

theorem sane_castArraysConvert (ht : Layered t) (hc : Closed t) (hh : t.Sane r .conversion h) :
    t.CastArraysConvert r h := by
  intro s hreach fields hfields f hf hcast
  have hs : t.Sane r .conversion s :=
    hh.reaches (Relation.ReflTransGen.mono (fun _ _ => leadsTo_conversion ht) _ _ hreach)
  obtain ⟨S, hS⟩ := layered_unfold ht (has_of_kind hs.1)
  obtain ⟨F, hF⟩ := field_unfold ht hc hS hfields hf
  obtain ⟨b, hb, hB⟩ := elementType_eq hF
  have hp : t.JudgedBy r .conversion f.type b := (judgedBy_conversion_iff ht).mpr (.inr ⟨hcast, hb⟩)
  have hset := sane_settled hs fields hfields f hf
  refine ⟨b, hb, part_holds hS hB F.base_kind_ne_array (fun hbad => hset.1 ⟨b, hp, hbad⟩) ?_⟩
  intro hk
  exact (hset.2 b hp hk).imp_right (fitsUse_iff_sane ht hc).mpr

theorem part_settled (ht : Layered t) (hc : Closed t) (hs : t.Sane r .constraint s)
    {fields : List Field} (hfields : t.structFields s = .ok fields) {f : Field} (hf : f ∈ fields)
    (hcast : t.CastWhole r f.type → t.BaseConverts r s f.type)
    (hp : t.JudgedBy r .conversion f.type part) :
    ¬t.BadPart r .conversion s part ∧ (t.kind part = .ok (.nominal .struct) →
      t.unfold s = t.unfold part ∨ t.LeadsTo r .constraint s part ∨ t.Sane r .conversion part) := by
  rcases (judgedBy_conversion_iff ht).mp hp with hp | ⟨hwhole, he⟩
  · constructor
    · intro hbad
      exact hs.2 s .refl ⟨fields, hfields, f, hf, part, hp, badPart_constraint hbad⟩
    · intro hk
      exact .inr (.inl ⟨hk, fields, hfields, f, hf, hp⟩)
  · obtain ⟨b, hb, hholds⟩ := hcast hwhole
    cases hb.symm.trans he
    obtain ⟨S, hS⟩ := layered_unfold ht (has_of_kind hs.1)
    obtain ⟨F, hF⟩ := field_unfold ht hc hS hfields hf
    have hB := judgedBy_unfold hF hp
    have hstruct : S.kind = .nominal .struct := Except.ok.inj ((kind_eq hS).symm.trans hs.1)
    have hset := fieldHolds_settled hS (by simp [hstruct]) hB hholds
    have hself : t.JudgedBy r .conversion part part :=
      .self (kind_eq hB) F.base_kind_ne_array
    refine ⟨fun hbad => hset.1 ⟨part, hself, hbad⟩, fun hk => ?_⟩
    exact (hset.2 part hself hk).imp_right fun hgood => .inr ((fitsUse_iff_sane ht hc).mp hgood)

theorem castArraysConvert_sane (ht : Layered t) (hc : Closed t) (hh : t.Sane r .constraint h)
    (hcast : t.CastArraysConvert r h) : t.Sane r .conversion h := by
  -- What the constraint reaches, with all that converts anyway, leads only into itself.
  let seen (s : Handle) : Prop :=
    Relation.ReflTransGen (t.LeadsTo r .constraint) h s ∨ t.Sane r .conversion s
  have hset (s : Handle) (hs : seen s) : t.Has s ∧ t.Settled r .conversion seen s := by
    rcases hs with hreach | hs
    · have hsane := hh.reaches hreach
      refine ⟨has_of_kind hsane.1, ?_⟩
      intro fields hfields f hf
      have hpart {p : Handle} (hp : t.JudgedBy r .conversion f.type p) :=
        part_settled ht hc hsane hfields hf (hcast s hreach fields hfields f hf) hp
      constructor
      · rintro ⟨p, hp, hbad⟩
        exact (hpart hp).1 hbad
      · intro s' hs' hk
        rcases (hpart hs').2 hk with hsame | hlead | hsane'
        · exact .inl hsame
        · exact .inr (.inl (hreach.tail hlead))
        · exact .inr (.inr hsane')
    · exact ⟨has_of_kind hs.1, (sane_settled hs).mono fun _ => .inr⟩
  have hgood := settled_not_bad ht hc hset (.inl .refl)
  exact ⟨hh.1, fun s hreach hbad => hgood ⟨s, hreach, hbad⟩⟩

theorem castWhole_operator (ht : Layered t) (hcast : t.CastWhole r field) :
    ∃ o ∈ r.operators, o.kind = .implicitCast ∧ o.source = field ∧ o.target = Handle.json := by
  obtain ⟨o, ho⟩ := hcast.registered
  obtain ⟨hmem, hspec⟩ := operator_of_registered ht hcast.array rfl ho
  exact ⟨o, hmem, hspec⟩

/-- A struct that can constrain `json` can be converted to `json` exactly if the arrays that a
registered cast takes into `json` as a whole have bases that convert. Without such a cast every
struct that can constrain `json` can be converted. -/
theorem compatible_converts_iff_cast_arrays_do (ht : Reachable t)
    (hcompat : t.isJsonCompatible r h = .ok true) :
    Decides (t.isJsonConvertible r h) (t.CastArraysConvert r h) ∧
      ((∀ o ∈ r.operators, o.kind = .implicitCast → o.target = Handle.json →
          t.kind o.source ≠ .ok .array) →
        t.isJsonConvertible r h = .ok true) := by
  have hl := reachable_layered ht
  have hc := reachable_closed ht
  have hh : t.Sane r .constraint h := (fitsUse_iff_sane hl hc).mp hcompat
  have hiff : t.Sane r .conversion h ↔ t.CastArraysConvert r h :=
    ⟨sane_castArraysConvert hl hc, castArraysConvert_sane hl hc hh⟩
  have hdec : Decides (t.isJsonConvertible r h) (t.CastArraysConvert r h) :=
    (fitsUse_decides hl hc (has_of_kind hh.1)).congr hiff
  refine ⟨hdec, fun hnone => hdec.eq_true_iff.mpr ?_⟩
  intro s _ fields _ f _ hcast
  obtain ⟨o, ho, hkind, hsource, htarget⟩ := castWhole_operator hl hcast
  exact absurd (hsource ▸ hcast.array) (hnone o ho hkind htarget)

def arrayHolder (element : Basic) : TypeTable :=
  initial.grow [.array element.handle, .struct ⟨1⟩ [⟨⟨2⟩, ⟨14⟩, {}⟩]]

def arrayCasts : Registry :=
  Registry.builtin.register ⟨.implicitCast, ⟨14⟩, Handle.json, true, .nop⟩

theorem arrayHolder_converts_by_element :
    (arrayHolder .int).CastArraysConvert arrayCasts ⟨15⟩ ∧
      ¬(arrayHolder .xml).CastArraysConvert arrayCasts ⟨15⟩ ∧
      (arrayHolder .int).isJsonConvertible Registry.builtin ⟨15⟩ = .ok true := by
  have ht (element : Basic) : Reachable (arrayHolder element) := reachable_grow .refl _
  refine ⟨?_, ?_, ?_⟩
  · exact (compatible_converts_iff_cast_arrays_do (ht .int) (by decide +kernel)).1.eq_true_iff.mp
      (by decide +kernel)
  · exact (compatible_converts_iff_cast_arrays_do (ht .xml) (by decide +kernel)).1.eq_false_iff.mp
      (by decide +kernel)
  · exact (compatible_converts_iff_cast_arrays_do (ht .int) (by decide +kernel)).2
      (by decide +kernel)

/-- `xml` itself does not go into `json`, so an array of it that does is fit for a constraint
only. -/
theorem xmlArray_compatible_only :
    (arrayHolder .xml).isJsonCompatible arrayCasts ⟨15⟩ = .ok true ∧
      (arrayHolder .xml).isJsonConvertible arrayCasts ⟨15⟩ = .ok false := by
  decide +kernel

variable {fields : List Field} {F : Tree} {seen : Handle → Prop}

theorem fieldSettled_iff_of_goesIntoJson (hF : t.unfold field = .ok F)
    (hjson : t.GoesIntoJson r field) :
    t.FieldSettled r .constraint seen owner field ↔
      (t.kind field = .ok (.nominal .struct) → t.unfold owner = t.unfold field ∨ seen field) := by
  constructor
  · intro hsettled hstruct
    exact hsettled.2 field (.self hstruct (by simp)) hstruct
  · intro hstruct
    by_cases harr : F.kind = .array
    · exact fieldSettled_of_whole ((kind_iff hF).mpr harr) ⟨rfl, hjson⟩
    · exact fieldSettled_of_part (.self (kind_eq hF) harr) (fun hbad => hbad.notJson hjson) hstruct

/-- If all fields of a struct go into `json`, then it can constrain `json` exactly if the structs
among the fields can, or are the struct itself. Without a cast from a struct into `json` there are
none. -/
theorem castable_fields_fit_iff_structs_do (ht : Reachable t)
    (hs : t.kind s = .ok (.nominal .struct)) (hfields : t.structFields s = .ok fields)
    (hjson : ∀ f ∈ fields, t.GoesIntoJson r f.type) :
    Decides (t.isJsonCompatible r s)
      (∀ f ∈ fields, t.kind f.type = .ok (.nominal .struct) →
        t.identical s f.type = .ok true ∨ t.isJsonCompatible r f.type = .ok true) ∧
    ((∀ o ∈ r.operators, o.kind = .implicitCast → o.target = Handle.json →
        t.kind o.source ≠ .ok (.nominal .struct)) →
      t.isJsonCompatible r s = .ok true) := by
  have hl := reachable_layered ht
  have hc := reachable_closed ht
  obtain ⟨S, hS⟩ := layered_unfold hl (has_of_kind hs)
  have hfield (f : Field) (hf : f ∈ fields) :
      t.FieldSettled r .constraint (t.Sane r .constraint) s f.type ↔
        (t.kind f.type = .ok (.nominal .struct) →
          t.identical s f.type = .ok true ∨ t.isJsonCompatible r f.type = .ok true) := by
    obtain ⟨F, hF⟩ := field_unfold hl hc hS hfields hf
    rw [fieldSettled_iff_of_goesIntoJson hF (hjson f hf),
      identical_iff_unfold hl (has_of_kind hs) (has_of_unfold hF), isJsonCompatible,
      fitsUse_iff_sane hl hc]
  have hsane : t.Sane r .constraint s ↔ ∀ f ∈ fields, t.kind f.type = .ok (.nominal .struct) →
      t.identical s f.type = .ok true ∨ t.isJsonCompatible r f.type = .ok true := by
    rw [sane_iff_settled hl hc, and_iff_right hs, Settled]
    simp only [hfields, Except.ok.injEq, forall_eq']
    exact forall₂_congr hfield
  have hdec := (fitsUse_decides hl hc (has_of_kind hs)).congr hsane
  refine ⟨hdec, fun hnone => hdec.eq_true_iff.mpr ?_⟩
  intro f hf hstruct
  obtain ⟨o, ho⟩ := (goesIntoJson_iff_registered hl hstruct rfl).mp (hjson f hf)
  obtain ⟨hmem, hkind, hsource, htarget⟩ := operator_of_registered hl hstruct rfl ho
  exact absurd (hsource ▸ hstruct) (hnone o hmem hkind htarget)

def wrapperFields : List Field := [⟨⟨4⟩, ⟨14⟩, {}⟩, ⟨⟨5⟩, Basic.string.handle, {}⟩]

def wrapper (inner : Basic) : TypeTable :=
  initial.grow [.struct ⟨1⟩ [⟨⟨3⟩, inner.handle, {}⟩], .struct ⟨2⟩ wrapperFields]

def wrapperCasts : Registry :=
  Registry.builtin.register ⟨.implicitCast, ⟨14⟩, Handle.json, true, .nop⟩

theorem wrapper_fields_castable (inner : Basic) :
    ∀ f ∈ wrapperFields, (wrapper inner).GoesIntoJson wrapperCasts f.type := by
  have hcast : ∀ f ∈ wrapperFields,
      (wrapper inner).castsImplicitly wrapperCasts f.type Handle.json = .ok true := by
    cases inner <;> decide +kernel
  exact fun f hf => .inr (hcast f hf)

theorem wrapper_judged_by_inner :
    (wrapper .int).isJsonCompatible wrapperCasts ⟨15⟩ = .ok true ∧
      (wrapper .xml).isJsonCompatible wrapperCasts ⟨15⟩ = .ok false := by
  have ht (inner : Basic) : Reachable (wrapper inner) := reachable_grow .refl _
  constructor
  · apply (castable_fields_fit_iff_structs_do (ht .int) (by decide +kernel) (by decide +kernel)
      (wrapper_fields_castable .int)).1.eq_true_iff.mpr
    decide +kernel
  · apply (castable_fields_fit_iff_structs_do (ht .xml) (by decide +kernel) (by decide +kernel)
      (wrapper_fields_castable .xml)).1.eq_false_iff.mpr
    decide +kernel

/-- All fields of the outer struct go into `json`, yet with `xml` inside it cannot constrain
`json`. -/
theorem wrapper_castable_but_unfit :
    (wrapper .xml).structFields ⟨15⟩ = .ok wrapperFields ∧
      (∀ f ∈ wrapperFields,
        (wrapper .xml).castsImplicitly wrapperCasts f.type Handle.json = .ok true) ∧
      (wrapper .xml).isJsonCompatible wrapperCasts ⟨15⟩ = .ok false := by
  decide +kernel

end TypeTable

end TypeConformance
