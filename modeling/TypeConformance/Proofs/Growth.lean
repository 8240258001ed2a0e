import Mathlib.Logic.Relation
import TypeConformance.Proofs.Answer
import TypeConformance.Table

/-! # Growth of the type table

A table grows from the built-in types by construction operations. Their handle arguments must be
in the table already. Then each component of a type lies in an earlier slot, except for the
built-in `json`, which refers forward to `none`; so every type has a finite form.
-/
namespace TypeConformance

namespace Shape

def components : Shape → List Handle
  | basic _ | nominal _ _ => []
  | json constraint => [constraint]
  | array element => [element]
  | function params rets => params ++ rets

def references : Shape → List DeclRef
  | nominal _ d => [d]
  | _ => []

end Shape

inductive Construction where
  | intern (s : Shape)
  | alloc (s : Shape)
  | array (element : Handle)
  | arrayOf (element : Handle) (dims : Nat)
  | json (constraint : Handle)
  | function (params rets : List Handle)
  | declareStruct (name : Name)
  | defineFields (type : Handle) (fields : List Field)
  | struct (name : Name) (fields : List Field)
  | connector (name : Name)
  | enum (name : Name) (members : List Name)

namespace TypeTable

def Has (t : TypeTable) (h : Handle) : Prop := h.index < t.slots.size
instance (t : TypeTable) (h : Handle) : Decidable (t.Has h) :=
  inferInstanceAs (Decidable (h.index < t.slots.size))

def Declares (t : TypeTable) (d : DeclRef) : Prop := d.index < t.declarations.size
instance (t : TypeTable) (d : DeclRef) : Decidable (t.Declares d) :=
  inferInstanceAs (Decidable (d.index < t.declarations.size))

end TypeTable

namespace Construction

def handles : Construction → List Handle
  | intern s | alloc s => s.components
  | array h | arrayOf h _ | json h => [h]
  | function params rets => params ++ rets
  | defineFields type fields => type :: fields.map Field.type
  | struct _ fields => fields.map Field.type
  | declareStruct _ | connector _ | enum _ _ => []

def references : Construction → List DeclRef
  | intern s | alloc s => s.references
  | _ => []

def apply (t : TypeTable) : Construction → Except TableFailure TypeTable
  | intern s => Prod.snd <$> t.intern s
  | alloc s => Prod.snd <$> t.alloc s
  | array h => Prod.snd <$> t.array h
  | arrayOf h dims => Prod.snd <$> t.arrayOf h dims
  | json h => Prod.snd <$> t.json h
  | function params rets => Prod.snd <$> t.function params rets
  | declareStruct name => Prod.snd <$> t.declareStruct name
  | defineFields type fields => t.defineFields type fields
  | struct name fields => Prod.snd <$> t.struct name fields
  | connector name => Prod.snd <$> t.connector name
  | enum name members => Prod.snd <$> t.enum name members

/-- The table after the operation, whether it succeeded or failed. -/
def after (t : TypeTable) (op : Construction) : TypeTable :=
  match op.apply t with
  | .ok u => u
  | .error failure => failure.table

theorem after_of_apply {t u : TypeTable} {op : Construction} (hop : op.apply t = .ok u) :
    op.after t = u := by
  rw [after, hop]

def HandlesIn (t : TypeTable) (op : Construction) : Prop := ∀ h ∈ op.handles, t.Has h
instance (t : TypeTable) (op : Construction) : Decidable (op.HandlesIn t) :=
  inferInstanceAs (Decidable (∀ h ∈ op.handles, t.Has h))

/-- The table has all types and declarations that the operation is given. -/
def Within (t : TypeTable) (op : Construction) : Prop :=
  op.HandlesIn t ∧ ∀ d ∈ op.references, t.Declares d
instance (t : TypeTable) (op : Construction) : Decidable (op.Within t) :=
  inferInstanceAs (Decidable (op.HandlesIn t ∧ ∀ d ∈ op.references, t.Declares d))

end Construction

namespace TypeTable

/-- Any number of operations, each of them allowed where it is applied. Some may fail and leave
the first part of their work. -/
inductive Growth (allowed : TypeTable → Construction → Prop) (t : TypeTable) :
    TypeTable → Prop where
  | refl : Growth allowed t t
  | tail {u v op} : Growth allowed t u → allowed u op → op.after u = v → Growth allowed t v

def Reachable (t : TypeTable) : Prop := Growth (fun t op => op.Within t) initial t

def step (t : TypeTable) (op : Construction) : TypeTable := if op.Within t then op.after t else t

def grow (t : TypeTable) (ops : List Construction) : TypeTable := ops.foldl step t

theorem Growth.mono {allowed allowed' : TypeTable → Construction → Prop} {t u}
    (hle : ∀ t op, allowed t op → allowed' t op) (h : Growth allowed t u) :
    Growth allowed' t u := by
  induction h with
  | refl => exact .refl
  | tail _ ha hop ih => exact .tail ih (hle _ _ ha) hop

/-- What a failed operation leaves: the table as it was, or with a part of the operation done. -/
inductive Leftover (t : TypeTable) : Construction → TypeTable → Prop where
  | nothing {op} : Leftover t op t
  | declaration {op d} : d.fields = [] →
      Leftover t op { t with declarations := t.declarations.push d }
  | layers {element dims inner h u} : t.arrayOf element inner = .ok (h, u) →
      Leftover t (.arrayOf element dims) u
  | undefined {name fields h u} : t.declareStruct name = .ok (h, u) →
      Leftover t (.struct name fields) u

def Fits (known : TypeTable → DeclRef → Prop) (t : TypeTable) (s : Shape) : Prop :=
  (∀ h ∈ s.components, t.Has h) ∧ ∀ d ∈ s.references, known t d

/-- Every operation is made of these elementary changes. -/
inductive Edit (known : TypeTable → DeclRef → Prop) : TypeTable → TypeTable → Prop where
  | alloc {t s} : t.Fits known s → t.slots.size < capacity →
      Edit known t { t with slots := t.slots.push s }
  | share {t s} : t.Fits known s → t.slots.size < capacity → t.shared[s.code]? = none →
      Edit known t
        { t with slots := t.slots.push s, shared := t.shared.insert s.code ⟨t.slots.size⟩ }
  | declare {t d} : d.fields = [] →
      Edit known t { t with declarations := t.declarations.push d }
  | define {t i name fields} : t.declarations[i]? = some ⟨name, .struct none⟩ →
      (∀ f ∈ fields, t.Has f.type) →
      Edit known t { t with declarations :=
        t.declarations.setIfInBounds i ⟨name, .struct (some fields)⟩ }

/-- Slots are laid down in layers: a type follows its components. -/
structure Layered (t : TypeTable) : Prop where
  builtins : ∀ (i : Nat) s, Shape.builtins[i]? = some s → t.slots[i]? = some s
  bounded : t.slots.size ≤ capacity
  earlier : ∀ (i : Nat) s, t.slots[i]? = some s → Handle.builtinCount ≤ i →
    ∀ h ∈ s.components, h.index < i
  shared : ∀ (s : Shape) (h : Handle), t.shared[s.code]? = some h → t.slots[h.index]? = some s

/-- No declaration leads out of the table. -/
structure Closed (t : TypeTable) : Prop where
  declared : ∀ (i : Nat) n d, t.slots[i]? = some (.nominal n d) → t.Declares d
  fields : ∀ (i : Nat) d, t.declarations[i]? = some d → ∀ f ∈ d.fields, t.Has f.type

variable {known : TypeTable → DeclRef → Prop} {t u : TypeTable}

theorem has_of_getElem? {i : Nat} {s : Shape} (h : t.slots[i]? = some s) : t.Has ⟨i⟩ := by
  obtain ⟨hi, _⟩ := Array.getElem?_eq_some_iff.mp h
  exact hi

theorem getElem?_push_of_some {i : Nat} {s s' : Shape} (h : t.slots[i]? = some s) :
    (t.slots.push s')[i]? = some s := by
  rw [Array.getElem?_push, if_neg (Nat.ne_of_lt (has_of_getElem? h)), h]

theorem getElem?_of_declarationAt {d : DeclRef} {decl : Declaration}
    (h : t.declarationAt d = .ok decl) : t.declarations[d.index]? = some decl := by
  rw [declarationAt] at h
  split at h
  · cases h
    assumption
  · cases h

theorem declarationAt_of_getElem? {d : DeclRef} {decl : Declaration}
    (h : t.declarations[d.index]? = some decl) : t.declarationAt d = .ok decl := by
  simp [declarationAt, h]

private theorem filled_index {holds : Shape → Handle → Prop} (entries : List (Shape × Nat))
    (m : Std.TreeMap (List Nat) Handle) (hm : ∀ s h, m[Shape.code s]? = some h → holds s h)
    (he : ∀ e ∈ entries, holds e.1 ⟨e.2⟩) (s : Shape) (h : Handle)
    (hs : (entries.foldl (fun m (s, i) => m.insert s.code ⟨i⟩) m)[s.code]? = some h) :
    holds s h := by
  induction entries generalizing m with
  | nil => exact hm s h hs
  | cons e entries ih =>
    refine ih _ ?_ (fun e he' => he e (List.mem_cons_of_mem _ he')) hs
    intro s h hs
    rw [Std.TreeMap.getElem?_insert] at hs
    split at hs
    · rename_i heq
      cases hs
      rw [← Shape.code_injective (Std.LawfulEqOrd.eq_of_compare heq)]
      exact he e List.mem_cons_self
    · exact hm s h hs

theorem initial_layered : Layered initial := by
  constructor
  · intro i s h
    simpa [initial] using h
  · decide
  · intro i s h hi
    have hlt : i < Handle.builtinCount := has_of_getElem? h
    omega
  · intro s h hs
    have hb : ∀ s h, initial.shared[Shape.code s]? = some h → Shape.builtins[h.index]? = some s :=
      filled_index Shape.builtins.zipIdx ∅ (by simp) (by decide)
    simpa [initial] using hb s h hs

theorem initial_closed : Closed initial := by
  constructor
  · intro i n d h
    have hs : Shape.nominal n d ∈ Shape.builtins :=
      List.mem_of_getElem? (i := i) (by simpa [initial] using h)
    have hr : ∀ s ∈ Shape.builtins, s.references = [] := by decide
    cases hr _ hs
  · intro i d h
    simp [initial] at h

theorem shared_push {s' : Shape}
    (ht : ∀ (s : Shape) (h : Handle), t.shared[s.code]? = some h → t.slots[h.index]? = some s)
    (s : Shape) (h : Handle) (hs : (t.shared.insert s'.code ⟨t.slots.size⟩)[s.code]? = some h) :
    (t.slots.push s')[h.index]? = some s := by
  rw [Std.TreeMap.getElem?_insert] at hs
  split at hs
  · rename_i heq
    cases hs
    rw [← Shape.code_injective (Std.LawfulEqOrd.eq_of_compare heq)]
    simp
  · exact getElem?_push_of_some (ht s h hs)

theorem layered_push {s : Shape} (ht : Layered t) (hs : ∀ h ∈ s.components, t.Has h)
    (room : t.slots.size < capacity) (hu : u.slots = t.slots.push s)
    (hshared : ∀ (s : Shape) (h : Handle), u.shared[s.code]? = some h →
      u.slots[h.index]? = some s) : Layered u := by
  constructor
  · intro i b hb
    rw [hu]
    exact getElem?_push_of_some (ht.builtins i b hb)
  · simp only [hu, Array.size_push]
    exact room
  · intro i b hb hi h hh
    rw [hu, Array.getElem?_push] at hb
    split at hb
    · rename_i heq
      cases hb
      exact heq ▸ hs h hh
    · exact ht.earlier i b hb hi h hh
  · exact hshared

theorem edit_preserves_layered (h : Edit known t u) (ht : Layered t) : Layered u := by
  cases h with
  | alloc hs room =>
    refine layered_push ht hs.1 room rfl ?_
    exact fun s h hs => getElem?_push_of_some (ht.shared s h hs)
  | share hs room =>
    exact layered_push ht hs.1 room rfl (shared_push ht.shared)
  | declare => exact ⟨ht.builtins, ht.bounded, ht.earlier, ht.shared⟩
  | define => exact ⟨ht.builtins, ht.bounded, ht.earlier, ht.shared⟩

theorem edit_keeps_handle {h : Handle} (hu : Edit known t u) (hh : t.Has h) : u.Has h := by
  cases hu with
  | alloc | share => exact Nat.lt_of_lt_of_le hh (by simp)
  | declare | define => exact hh

theorem edit_keeps_declaration {d : DeclRef} (hu : Edit known t u) (hd : t.Declares d) :
    u.Declares d := by
  cases hu with
  | alloc | share => exact hd
  | declare => exact Nat.lt_of_lt_of_le hd (by simp)
  | define => simpa [Declares] using hd

theorem declared_push {s : Shape} (hs : ∀ d ∈ s.references, t.Declares d)
    (ht : ∀ (i : Nat) n d, t.slots[i]? = some (.nominal n d) → t.Declares d) (i : Nat)
    (n : Nominal) (d : DeclRef) (hi : (t.slots.push s)[i]? = some (.nominal n d)) :
    t.Declares d := by
  rw [Array.getElem?_push] at hi
  split at hi
  · cases hi
    exact hs d (by simp [Shape.references])
  · exact ht i n d hi

theorem closed_push {s : Shape} (ht : Closed t) (hs : ∀ d ∈ s.references, t.Declares d)
    (hu : u.slots = t.slots.push s) (hd : u.declarations = t.declarations) : Closed u := by
  constructor
  · intro i n d h
    rw [Declares, hd]
    rw [hu] at h
    exact declared_push hs ht.declared i n d h
  · intro i d h f hf
    rw [hd] at h
    rw [Has, hu, Array.size_push]
    exact Nat.lt_succ_of_lt (ht.fields i d h f hf)

theorem edit_preserves_closed (h : Edit Declares t u) (ht : Closed t) : Closed u := by
  have keep := fun d => edit_keeps_declaration (d := d) h
  cases h with
  | alloc hs _ => exact closed_push ht hs.2 rfl rfl
  | share hs _ _ => exact closed_push ht hs.2 rfl rfl
  | declare hd =>
    refine ⟨fun i n d h => keep d (ht.declared i n d h), ?_⟩
    intro i d h f hf
    rw [Array.getElem?_push] at h
    split at h
    · cases h
      rw [hd] at hf
      cases hf
    · exact ht.fields i d h f hf
  | define hi hf =>
    refine ⟨fun i n d h => keep d (ht.declared i n d h), ?_⟩
    intro j d h f hf'
    rw [Array.getElem?_setIfInBounds] at h
    split at h
    · split at h
      · cases h
        exact hf f hf'
      · cases h
    · exact ht.fields j d h f hf'

open Relation in
theorem edits_preserve_layered (h : ReflTransGen (Edit known) t u) (ht : Layered t) :
    Layered u := by
  induction h with
  | refl => exact ht
  | tail _ h ih => exact edit_preserves_layered h ih

open Relation in
theorem edits_keep_handle {h : Handle} (hu : ReflTransGen (Edit known) t u) (hh : t.Has h) :
    u.Has h := by
  induction hu with
  | refl => exact hh
  | tail _ hu ih => exact edit_keeps_handle hu ih

theorem alloc_edit {s : Shape} {h : Handle} (hs : t.Fits known s)
    (hu : t.alloc s = .ok (h, u)) : Edit known t u := by
  unfold TypeTable.alloc at hu
  split at hu
  · cases hu
    exact .alloc hs ‹_›
  · cases hu

open Relation in
theorem intern_edits {s : Shape} {h : Handle} (ht : Layered t) (hs : t.Fits known s)
    (hu : t.intern s = .ok (h, u)) :
    ReflTransGen (Edit known) t u ∧ u.slots[h.index]? = some s := by
  unfold TypeTable.intern at hu
  split at hu
  · rename_i hm
    cases hu
    exact ⟨.refl, ht.shared s h hm⟩
  · rename_i hm
    obtain ⟨⟨i, v⟩, hv, hu⟩ := bind_eq_ok.mp hu
    unfold TypeTable.alloc at hv
    split at hv
    · cases hv
      cases hu
      exact ⟨.single (.share hs ‹_› hm), by simp⟩
    · cases hv

open Relation in
theorem arrayOf_edits {dims : Nat} {element h : Handle} (ht : Layered t) (he : t.Has element)
    (hu : t.arrayOf element dims = .ok (h, u)) : ReflTransGen (Edit known) t u := by
  induction dims generalizing t element with
  | zero =>
    cases hu
    exact .refl
  | succ dims ih =>
    obtain ⟨⟨inner, v⟩, hv, hu⟩ := bind_eq_ok.mp hu
    have fits : t.Fits known (.array element) := by
      simpa [Fits, Shape.components, Shape.references] using he
    obtain ⟨htv, hinner⟩ := intern_edits ht fits hv
    exact htv.trans (ih (edits_preserve_layered htv ht) (has_of_getElem? hinner) hu)

open Relation in
theorem declare_edits {n : Nominal} {d : Declaration} {h : Handle}
    (hk : ∀ t d, t.Declares d → known t d) (ht : Layered t) (hd : d.fields = [])
    (hu : t.declare n d = .ok (h, u)) : ReflTransGen (Edit known) t u := by
  have first : Edit known t { t with declarations := t.declarations.push d } := .declare hd
  refine .head first (intern_edits (edit_preserves_layered first ht) ⟨?_, ?_⟩ hu).1
  · simp [Shape.components]
  · intro d hd
    simp only [Shape.references, List.mem_singleton] at hd
    exact hk _ _ (by simp [Declares, hd])

theorem defineFields_edit {h : Handle} {fields : List Field} (hf : ∀ f ∈ fields, t.Has f.type)
    (hu : t.defineFields h fields = .ok u) : Edit known t u := by
  unfold TypeTable.defineFields at hu
  split at hu
  · cases hu
  · split at hu
    · cases hu
    · rename_i hd
      cases hu
      exact .define (getElem?_of_declarationAt hd) hf
    · cases hu
  · cases hu

theorem map_snd_eq_ok {x : Except TableFailure (Handle × TypeTable)}
    (h : Prod.snd <$> x = .ok u) : ∃ i, x = .ok (i, u) := by
  cases x with
  | error e => cases h
  | ok p =>
    cases h
    exact ⟨p.1, rfl⟩

theorem map_snd_eq_error {x : Except TableFailure (Handle × TypeTable)} {f : TableFailure}
    (h : Prod.snd <$> x = .error f) : x = .error f := by
  cases x with
  | error e => exact congrArg _ (Except.error.inj h)
  | ok p => cases h

open Relation in
/-- What an operation can do to a table, whatever it is. -/
theorem apply_edits {op : Construction} (hk : ∀ t d, t.Declares d → known t d) (ht : Layered t)
    (hh : op.HandlesIn t) (hr : ∀ d ∈ op.references, known t d) (hu : op.apply t = .ok u) :
    ReflTransGen (Edit known) t u := by
  cases op with
  | intern s =>
    obtain ⟨h, hu⟩ := map_snd_eq_ok hu
    exact (intern_edits ht ⟨hh, hr⟩ hu).1
  | alloc s =>
    obtain ⟨h, hu⟩ := map_snd_eq_ok hu
    exact .single (alloc_edit ⟨hh, hr⟩ hu)
  | array element =>
    obtain ⟨h, hu⟩ := map_snd_eq_ok hu
    exact (intern_edits (s := .array element) ht ⟨hh, by simp [Shape.references]⟩ hu).1
  | arrayOf element dims =>
    obtain ⟨h, hu⟩ := map_snd_eq_ok hu
    exact arrayOf_edits ht (hh element (by simp [Construction.handles])) hu
  | json constraint =>
    obtain ⟨h, hu⟩ := map_snd_eq_ok hu
    exact (intern_edits (s := .json constraint) ht ⟨hh, by simp [Shape.references]⟩ hu).1
  | function params rets =>
    obtain ⟨h, hu⟩ := map_snd_eq_ok hu
    exact (intern_edits (s := .function params rets) ht ⟨hh, by simp [Shape.references]⟩ hu).1
  | declareStruct name =>
    obtain ⟨h, hu⟩ := map_snd_eq_ok hu
    exact declare_edits hk ht rfl hu
  | defineFields h fields =>
    refine .single (defineFields_edit (fun f hf => hh f.type ?_) hu)
    exact List.mem_cons_of_mem _ (List.mem_map_of_mem hf)
  | struct name fields =>
    -- The fields were in the table before the declaration, so they still are after it.
    obtain ⟨h, hu⟩ := map_snd_eq_ok hu
    obtain ⟨⟨i, v⟩, hv, hu⟩ := bind_eq_ok.mp hu
    obtain ⟨w, hw, hu⟩ := bind_eq_ok.mp hu
    cases hu
    have htv := declare_edits hk ht rfl hv
    refine htv.tail (defineFields_edit (fun f hf => edits_keep_handle htv (hh f.type ?_)) hw)
    exact List.mem_map_of_mem hf
  | connector name =>
    obtain ⟨h, hu⟩ := map_snd_eq_ok hu
    exact declare_edits hk ht rfl hu
  | enum name members =>
    obtain ⟨h, hu⟩ := map_snd_eq_ok hu
    exact declare_edits hk ht rfl hu

theorem alloc_failed {s : Shape} {f : TableFailure} (hf : t.alloc s = .error f) : f.table = t := by
  rw [TypeTable.alloc] at hf
  split at hf
  · cases hf
  · cases hf
    rfl

theorem intern_failed {s : Shape} {f : TableFailure} (hf : t.intern s = .error f) :
    f.table = t := by
  rw [TypeTable.intern] at hf
  split at hf
  · cases hf
  · rcases bind_eq_error.mp hf with hf | ⟨p, -, hf⟩
    · exact alloc_failed hf
    · cases hf

theorem arrayOf_failed {dims : Nat} {element : Handle} {f : TableFailure}
    (hf : t.arrayOf element dims = .error f) :
    ∃ inner h, t.arrayOf element inner = .ok (h, f.table) := by
  induction dims generalizing t element with
  | zero => cases hf
  | succ dims ih =>
    rcases bind_eq_error.mp hf with hf | ⟨⟨layer, v⟩, hv, hf⟩
    · exact ⟨0, element, by rw [intern_failed hf]; rfl⟩
    · obtain ⟨inner, h, hinner⟩ := ih hf
      exact ⟨inner + 1, h, bind_eq_ok.mpr ⟨_, hv, hinner⟩⟩

theorem declare_failed {n : Nominal} {d : Declaration} {f : TableFailure}
    (hf : t.declare n d = .error f) :
    f.table = { t with declarations := t.declarations.push d } :=
  intern_failed hf

theorem defineFields_failed {h : Handle} {fields : List Field} {f : TableFailure}
    (hf : t.defineFields h fields = .error f) : f.table = t := by
  unfold TypeTable.defineFields at hf
  split at hf
  · cases hf
    rfl
  · split at hf
    · cases hf
      rfl
    · cases hf
    · cases hf
      rfl
  · cases hf
    rfl

theorem leftover_of_failed {op : Construction} {f : TableFailure} (hf : op.apply t = .error f) :
    Leftover t op f.table := by
  have hdeclared {op : Construction} {n : Nominal} {d : Declaration} (hd : d.fields = [])
      (hf : t.declare n d = .error f) : Leftover t op f.table := by
    rw [declare_failed hf]
    exact .declaration hd
  cases op with
  | intern | array | json | function =>
    rw [intern_failed (map_snd_eq_error hf)]
    exact .nothing
  | alloc s =>
    rw [alloc_failed (map_snd_eq_error hf)]
    exact .nothing
  | arrayOf element dims =>
    obtain ⟨inner, h, hinner⟩ := arrayOf_failed (map_snd_eq_error hf)
    exact .layers hinner
  | declareStruct | connector | enum => exact hdeclared rfl (map_snd_eq_error hf)
  | defineFields h fields =>
    rw [defineFields_failed hf]
    exact .nothing
  | struct name fields =>
    rcases bind_eq_error.mp (map_snd_eq_error hf) with hf | ⟨⟨h, v⟩, hv, hf⟩
    · exact hdeclared rfl hf
    · rcases bind_eq_error.mp hf with hf | ⟨w, -, hf⟩
      · rw [defineFields_failed hf]
        exact .undefined hv
      · cases hf

/-- An operation either succeeds or leaves a part of its work. -/
theorem after_cases {op : Construction} (hu : op.after t = u) :
    op.apply t = .ok u ∨ Leftover t op u := by
  rw [Construction.after] at hu
  split at hu
  · exact .inl (hu ▸ ‹_›)
  · exact .inr (hu ▸ leftover_of_failed ‹_›)

open Relation in
theorem after_edits {op : Construction} (hk : ∀ t d, t.Declares d → known t d) (ht : Layered t)
    (hh : op.HandlesIn t) (hr : ∀ d ∈ op.references, known t d) (hu : op.after t = u) :
    ReflTransGen (Edit known) t u := by
  rcases after_cases hu with hu | hleft
  · exact apply_edits hk ht hh hr hu
  · cases hleft with
    | nothing => exact .refl
    | declaration hd => exact .single (.declare hd)
    | layers hu => exact arrayOf_edits ht (hh _ (by simp [Construction.handles])) hu
    | undefined hu => exact declare_edits hk ht rfl hu

theorem growth_preserves_layered (h : Growth (fun t op => op.HandlesIn t) t u) (ht : Layered t) :
    Layered u := by
  induction h with
  | refl => exact ht
  | tail _ hh hop ih =>
    have hedits : Relation.ReflTransGen (Edit fun _ _ => True) _ _ :=
      after_edits (fun _ _ _ => trivial) ih hh (fun _ _ => trivial) hop
    exact edits_preserve_layered hedits ih

theorem reachable_layered (h : Reachable t) : Layered t :=
  growth_preserves_layered (h.mono fun _ _ hw => hw.1) initial_layered

open Relation in
/-- A run comes to a sequence of elementary changes. -/
theorem growth_edits (ht : Layered t) (hu : Growth (fun t op => op.Within t) t u) :
    ReflTransGen (Edit Declares) t u := by
  induction hu with
  | refl => exact .refl
  | tail _ hw hop ih =>
    exact ih.trans (after_edits (fun _ _ hd => hd) (edits_preserve_layered ih ht) hw.1 hw.2 hop)

theorem reachable_closed (h : Reachable t) : Closed t := by
  have hedits := growth_edits initial_layered h
  clear h
  induction hedits with
  | refl => exact initial_closed
  | tail _ hedit ih => exact edit_preserves_closed hedit ih

theorem step_of_apply {op : Construction} (hw : op.Within t) (hop : op.apply t = .ok u) :
    t.step op = u := by
  rw [step, if_pos hw, Construction.after_of_apply hop]

section Run

variable {allowed : TypeTable → Construction → Prop}

theorem Growth.trans {v : TypeTable} (h : Growth allowed t u) (h' : Growth allowed u v) :
    Growth allowed t v := by
  induction h' with
  | refl => exact h
  | tail _ ha hop ih => exact .tail ih ha hop

theorem growth_step {op : Construction} (hallowed : op.Within u → allowed u op)
    (h : Growth allowed t u) : Growth allowed t (u.step op) := by
  unfold step
  split
  · exact .tail h (hallowed ‹_›) rfl
  · exact h

theorem growth_grow {ops : List Construction}
    (hallowed : ∀ op ∈ ops, ∀ u : TypeTable, op.Within u → allowed u op)
    (h : Growth allowed t u) : Growth allowed t (u.grow ops) := by
  induction ops generalizing u with
  | nil => exact h
  | cons op ops ih =>
    apply ih
    · intro op' hop'
      exact hallowed op' (List.mem_cons_of_mem op hop')
    · exact growth_step (hallowed op List.mem_cons_self u) h

end Run

theorem reachable_grow (ht : Reachable t) (ops : List Construction) : Reachable (t.grow ops) :=
  growth_grow (fun _ _ _ hw => hw) ht

/-- The reachable tables are those that can be computed. -/
theorem reachable_iff_grow : Reachable t ↔ ∃ ops, initial.grow ops = t := by
  constructor
  · intro ht
    induction ht with
    | refl => exact ⟨[], rfl⟩
    | @tail u v op _ hw hop ih =>
      obtain ⟨ops, rfl⟩ := ih
      refine ⟨ops ++ [op], ?_⟩
      rw [grow, List.foldl_append]
      exact (if_pos hw).trans hop
  · rintro ⟨ops, rfl⟩
    exact reachable_grow .refl ops

end TypeTable

end TypeConformance
