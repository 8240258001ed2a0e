import TypeConformance.Proofs.Representation

/-! # The fields of a struct are defined once

Fields belong to a declaration, and several types may share it: copies of a struct, and also
types that call themselves connectors or enums. Any of them that is a struct can be used to
define the fields, once. All of them have these fields from then on, whatever operations follow.
A definition that is refused changes nothing. Operations may be given handles that the table does
not have, since handles are not looked at when a type is made of them.
-/
namespace TypeConformance

namespace Construction

def ReferencesIn (t : TypeTable) (op : Construction) : Prop := ∀ d ∈ op.references, t.Declares d

end Construction

namespace TypeTable

def Develops (t u : TypeTable) : Prop := Growth (fun t op => op.ReferencesIn t) t u

/-- The second table is the first with the fields put into one declaration. Now and after any
further operations the types are what they were, and each type of the declaration has the
fields. -/
structure FieldsDefined (t : TypeTable) (d : DeclRef) (fields : List Field) (u : TypeTable) :
    Prop where
  slots : u.slots = t.slots
  shared : u.shared = t.shared
  others : ∀ d', d' ≠ d → u.declarationAt d' = t.declarationAt d'
  declaration : ∃ name, t.declarationAt d = .ok ⟨name, .struct none⟩ ∧
    u.declarationAt d = .ok ⟨name, .struct (some fields)⟩
  types : ∀ v, Develops u v → ∀ g s, t.shape g = .ok s → v.shape g = .ok s
  fields : ∀ v, Develops u v → ∀ g n, v.shape g = .ok (.nominal n d) → v.structFields g = .ok fields

/-- Why the fields of a type cannot be defined. A type may call itself a struct and have the
declaration of something else; then there is nothing left to define either. -/
inductive Refusal (t : TypeTable) (h : Handle) : TableError → Prop where
  | notAStruct {k} : t.kind h = .ok k → k ≠ .nominal .struct → Refusal t h (.notAStruct h k)
  | alreadyDefined {d decl} : t.shape h = .ok (.nominal .struct d) →
      t.declarationAt d = .ok decl → decl.body ≠ .struct none →
      Refusal t h (.fieldsAlreadyDefined h)

/-- What operations keep. A declaration is settled unless it is a struct without fields. -/
structure Keeps (t u : TypeTable) : Prop where
  grounded : Grounded t → Grounded u
  slots : ∀ (i : Nat) s, t.slots[i]? = some s → u.slots[i]? = some s
  settled : ∀ (i : Nat) decl, t.declarations[i]? = some decl → decl.body ≠ .struct none →
    u.declarations[i]? = some decl

variable {t u v : TypeTable} {g h : Handle} {s : Shape} {n : Nominal} {d : DeclRef}
  {decl : Declaration} {fields : List Field}

theorem Keeps.refl (t : TypeTable) : Keeps t t :=
  ⟨fun ht => ht, fun _ _ hs => hs, fun _ _ hd _ => hd⟩

theorem Keeps.trans (hu : Keeps t u) (hv : Keeps u v) : Keeps t v where
  grounded ht := hv.grounded (hu.grounded ht)
  slots i s hs := hv.slots i s (hu.slots i s hs)
  settled i decl hd hbody := hv.settled i decl (hu.settled i decl hd hbody) hbody

theorem alloc_keeps (hs : ∀ d ∈ s.references, t.Declares d) (hu : t.alloc s = .ok (h, u)) :
    Keeps t u := by
  rw [TypeTable.alloc] at hu
  split at hu
  · cases hu
    refine ⟨fun ht => ⟨?_, declared_push hs ht.declared⟩, fun _ _ hi => getElem?_push_of_some hi,
      fun _ _ hd _ => hd⟩
    exact fun s h hm => getElem?_push_of_some (ht.shared s h hm)
  · cases hu

theorem intern_keeps (hs : ∀ d ∈ s.references, t.Declares d) (hu : t.intern s = .ok (h, u)) :
    Keeps t u := by
  rcases intern_cases hu with ⟨-, rfl⟩ | ⟨-, -, -, rfl⟩
  · exact .refl u
  · exact ⟨fun ht => ⟨shared_push ht.shared, declared_push hs ht.declared⟩,
      fun _ _ hi => getElem?_push_of_some hi, fun _ _ hd _ => hd⟩

theorem arrayOf_keeps {dims : Nat} {element : Handle}
    (hu : t.arrayOf element dims = .ok (h, u)) : Keeps t u := by
  induction dims generalizing t element with
  | zero =>
    cases hu
    exact .refl _
  | succ dims ih =>
    obtain ⟨⟨inner, v⟩, hv, hu⟩ := bind_eq_ok.mp hu
    exact (intern_keeps (by simp [Shape.references]) hv).trans (ih hu)

theorem push_keeps (t : TypeTable) (decl : Declaration) :
    Keeps t { t with declarations := t.declarations.push decl } := by
  refine ⟨fun ht => ⟨ht.shared, ?_⟩, fun _ _ hi => hi, ?_⟩
  · intro i n d hi
    exact Nat.lt_of_lt_of_le (ht.declared i n d hi) (by simp)
  · intro i old hd _
    obtain ⟨hlt, -⟩ := Array.getElem?_eq_some_iff.mp hd
    rw [Array.getElem?_push, if_neg (Nat.ne_of_lt hlt), hd]

theorem declare_keeps (hu : t.declare n decl = .ok (h, u)) : Keeps t u := by
  refine (push_keeps t decl).trans (intern_keeps ?_ hu)
  simp [Shape.references, Declares]

theorem defineFields_keeps (hu : t.defineFields h fields = .ok u) : Keeps t u := by
  obtain ⟨d, name, -, hd, rfl⟩ := defineFields_eq_ok.mp hu
  refine ⟨fun ht => ⟨ht.shared, ?_⟩, fun _ _ hi => hi, ?_⟩
  · intro i n d hi
    simpa [Declares] using ht.declared i n d hi
  · intro i decl hi hbody
    rw [Array.getElem?_setIfInBounds_ne, hi]
    rintro rfl
    rw [getElem?_of_declarationAt hd, Option.some.injEq] at hi
    exact hbody (hi ▸ rfl)

theorem apply_keeps {op : Construction} (hr : op.ReferencesIn t) (hu : op.apply t = .ok u) :
    Keeps t u := by
  cases op with
  | intern s =>
    obtain ⟨h, hu⟩ := map_snd_eq_ok hu
    exact intern_keeps hr hu
  | alloc s =>
    obtain ⟨h, hu⟩ := map_snd_eq_ok hu
    exact alloc_keeps hr hu
  | array | json | function =>
    obtain ⟨h, hu⟩ := map_snd_eq_ok hu
    exact intern_keeps (by simp [Shape.references]) hu
  | arrayOf element dims =>
    obtain ⟨h, hu⟩ := map_snd_eq_ok hu
    exact arrayOf_keeps hu
  | declareStruct | connector | enum =>
    obtain ⟨h, hu⟩ := map_snd_eq_ok hu
    exact declare_keeps hu
  | defineFields type fields => exact defineFields_keeps hu
  | struct name fields =>
    obtain ⟨h, hu⟩ := map_snd_eq_ok hu
    obtain ⟨⟨i, v⟩, hv, hu⟩ := bind_eq_ok.mp hu
    obtain ⟨w, hw, hu⟩ := bind_eq_ok.mp hu
    cases hu
    exact (declare_keeps hv).trans (defineFields_keeps hw)

theorem after_keeps {op : Construction} (hr : op.ReferencesIn t) (hu : op.after t = u) :
    Keeps t u := by
  rcases after_cases hu with hu | hleft
  · exact apply_keeps hr hu
  · cases hleft with
    | nothing => exact .refl t
    | declaration => exact push_keeps t _
    | layers hu => exact arrayOf_keeps hu
    | undefined hu => exact declare_keeps hu

theorem develops_keeps (hu : Develops t u) : Keeps t u := by
  induction hu with
  | refl => exact .refl t
  | tail _ hr hop ih => exact ih.trans (after_keeps hr hop)

theorem develops_grounded (ht : Develops initial t) : Grounded t :=
  (develops_keeps ht).grounded (grounded_of_closed initial_layered initial_closed)

theorem Reachable.develops (ht : Reachable t) : Develops initial t :=
  ht.mono fun _ _ hwithin => hwithin.2

theorem fieldsDefined_of_define {name : Name} (hd : t.declarationAt d = .ok ⟨name, .struct none⟩)
    (hu : u = { t with declarations :=
      t.declarations.setIfInBounds d.index ⟨name, .struct (some fields)⟩ }) :
    FieldsDefined t d fields u := by
  obtain ⟨hlt, -⟩ := Array.getElem?_eq_some_iff.mp (getElem?_of_declarationAt hd)
  have hset : u.declarations[d.index]? = some ⟨name, .struct (some fields)⟩ := by
    rw [hu, Array.getElem?_setIfInBounds_self_of_lt hlt]
  have hslots : u.slots = t.slots := by rw [hu]
  refine {
    slots := hslots
    shared := by rw [hu]
    others := ?_
    declaration := ⟨name, hd, declarationAt_of_getElem? hset⟩
    types := ?_
    fields := ?_ }
  · intro d' hne
    have hindex : d.index ≠ d'.index := fun heq => hne (congrArg DeclRef.mk heq.symm)
    simp only [declarationAt, hu, Array.getElem?_setIfInBounds_ne hindex,
      Array.size_setIfInBounds]
  · intro v hv g s hs
    rw [shape, ← hslots] at hs
    exact shape_of_getElem? ((develops_keeps hv).slots _ _ (getElem?_of_shape hs))
  · intro v hv g n hs
    have hkept := (develops_keeps hv).settled _ _ hset (by simp)
    exact structFields_eq hs (declarationAt_of_getElem? hkept)

theorem defineFields_refused (ht : Grounded t) (hh : t.Has h) {f : TableFailure}
    (he : t.defineFields h fields = .error f) : Refusal t h f.error := by
  obtain ⟨s, hslot, hs⟩ := exists_shape hh
  have hkind : t.kind h = .ok s.kind := by rw [TypeTable.kind, hs, bind_ok]; rfl
  rw [TypeTable.defineFields, hs] at he
  split at he
  · cases ‹Except.ok s = _›
  · rename_i d heq
    cases heq
    obtain ⟨⟨name, body⟩, hd⟩ : ∃ decl, t.declarationAt d = .ok decl :=
      ⟨_, declarationAt_of_getElem?
        (Array.getElem?_eq_getElem (ht.declared h.index .struct d hslot))⟩
    rw [hd] at he
    split at he
    · rename_i heq
      cases heq
    · cases he
    · rename_i hother heq
      cases heq
      cases he
      refine .alreadyDefined hs hd ?_
      rintro rfl
      exact hother name rfl
  · rename_i hother heq
    cases heq
    cases he
    refine .notAStruct hkind ?_
    intro hstruct
    cases s with
    | nominal n d =>
      cases hstruct
      exact hother d rfl
    | _ => cases hstruct

/-- The fields of a struct can be defined exactly as long as its declaration has none. Then the
declaration gets them, for all its types and for good, and nothing else changes; a refusal leaves
the table as it was. A struct that is declared with its fields is always made, if there is room. -/
theorem struct_fields_defined_once (ht : Develops initial t) (hh : t.Has h)
    (fields : List Field) :
    ((∃ u, t.defineFields h fields = .ok u) ↔ ∃ d name,
      t.shape h = .ok (.nominal .struct d) ∧ t.declarationAt d = .ok ⟨name, .struct none⟩) ∧
    (∀ u, t.defineFields h fields = .ok u → ∃ d,
      t.shape h = .ok (.nominal .struct d) ∧ FieldsDefined t d fields u) ∧
    (∀ f, t.defineFields h fields = .error f → Refusal t h f.error ∧ f.table = t) ∧
    (t.slots.size < capacity → ∀ name, ∃ u, t.struct name fields = .ok (⟨t.slots.size⟩, u) ∧
      u.structFields ⟨t.slots.size⟩ = .ok fields) := by
  have hg := develops_grounded ht
  refine ⟨?_, ?_, ?_, ?_⟩
  · constructor
    · rintro ⟨u, hu⟩
      obtain ⟨d, name, hs, hd, -⟩ := defineFields_eq_ok.mp hu
      exact ⟨d, name, hs, hd⟩
    · rintro ⟨d, name, hs, hd⟩
      exact ⟨_, defineFields_eq_ok.mpr ⟨d, name, hs, hd, rfl⟩⟩
  · intro u hu
    obtain ⟨d, name, hs, hd, hset⟩ := defineFields_eq_ok.mp hu
    exact ⟨d, hs, fieldsDefined_of_define hd hset⟩
  · intro f hf
    exact ⟨defineFields_refused hg hh hf, defineFields_failed hf⟩
  · intro room name
    obtain ⟨u, hu, hslots, hdecls⟩ : ∃ u, t.struct name fields = .ok (⟨t.slots.size⟩, u) ∧ _ :=
      struct_new hg room
    refine ⟨u, hu, ?_⟩
    have hs : u.shape ⟨t.slots.size⟩ = .ok (.nominal .struct ⟨t.declarations.size⟩) :=
      shape_of_getElem? (by rw [hslots, Array.getElem?_push_size])
    exact structFields_eq hs (declarationAt_of_getElem? (by rw [hdecls, Array.getElem?_push_size]))

def sharedDeclaration : TypeTable :=
  initial.grow [
    .declareStruct ⟨1⟩, .alloc (.nominal .struct ⟨0⟩), .intern (.nominal .connector ⟨0⟩)]

/-- Fields that are defined through the copy are fields of the struct and of the connector, and
cannot be defined again through the struct. -/
theorem sharedDeclaration_defined_through_copy :
    ∃ u, sharedDeclaration.defineFields ⟨15⟩ [⟨⟨2⟩, ⟨14⟩, {}⟩] = .ok u ∧
      u.structFields ⟨14⟩ = .ok [⟨⟨2⟩, ⟨14⟩, {}⟩] ∧ u.structFields ⟨16⟩ = .ok [⟨⟨2⟩, ⟨14⟩, {}⟩] ∧
      u.defineFields ⟨14⟩ [] = .error ⟨.fieldsAlreadyDefined ⟨14⟩, u⟩ := by
  have ht : Develops initial sharedDeclaration := (reachable_grow .refl _).develops
  have hhas : sharedDeclaration.Has ⟨15⟩ := by decide +kernel
  have hs : sharedDeclaration.shape ⟨14⟩ = .ok (.nominal .struct ⟨0⟩) ∧
      sharedDeclaration.shape ⟨15⟩ = .ok (.nominal .struct ⟨0⟩) ∧
      sharedDeclaration.shape ⟨16⟩ = .ok (.nominal .connector ⟨0⟩) := by
    decide +kernel
  have hd : sharedDeclaration.declarationAt ⟨0⟩ = .ok ⟨⟨1⟩, .struct none⟩ := by decide +kernel
  obtain ⟨hdefinable, hdefined, -, -⟩ :=
    struct_fields_defined_once ht hhas [⟨⟨2⟩, ⟨14⟩, {}⟩]
  obtain ⟨u, hu⟩ := hdefinable.mpr ⟨⟨0⟩, ⟨1⟩, hs.2.1, hd⟩
  obtain ⟨d, hshape, hfields⟩ := hdefined u hu
  cases hs.2.1.symm.trans hshape
  have hkept := hfields.types u .refl
  -- The struct is defined by now, so a second definition through it has to be refused.
  have happly : (Construction.defineFields ⟨15⟩ [⟨⟨2⟩, ⟨14⟩, {}⟩]).apply sharedDeclaration = .ok u :=
    hu
  have htu : Develops initial u :=
    .tail ht (by simp [Construction.ReferencesIn, Construction.references])
      (Construction.after_of_apply happly)
  obtain ⟨hdefinable', -, hrefused, -⟩ :=
    struct_fields_defined_once htu (has_of_shape (hkept _ _ hs.1)) []
  refine ⟨u, hu, hfields.fields u .refl _ _ (hkept _ _ hs.1),
    hfields.fields u .refl _ _ (hkept _ _ hs.2.2), ?_⟩
  cases hagain : u.defineFields ⟨14⟩ [] with
  | ok v =>
    obtain ⟨d, name, hs', hd'⟩ := hdefinable'.mp ⟨v, hagain⟩
    obtain ⟨_, -, hset⟩ := hfields.declaration
    cases (hkept _ _ hs.1).symm.trans hs'
    cases hset.symm.trans hd'
  | error f =>
    obtain ⟨e, v⟩ := f
    obtain ⟨hrefusal, rfl⟩ := hrefused _ hagain
    cases hrefusal with
    | notAStruct hk hne =>
      rw [TypeTable.kind, hkept _ _ hs.1] at hk
      cases hk
      exact absurd rfl hne
    | alreadyDefined => rfl

end TypeTable

end TypeConformance
