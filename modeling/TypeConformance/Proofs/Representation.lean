import TypeConformance.Proofs.Decision

/-! # The type table over whole runs

A table keeps its slots, its index of shared shapes and its declarations consistent, whatever
operations it grows by. Slots and entries of the index are never changed or removed; a slot that
was allocated separately never gets into the index; a declaration always makes a new type. A table
that is built without separate allocations has no two slots with the same shape, so identical types
have the same handle there: comparing handles is enough.
-/
namespace TypeConformance

def Construction.allocates : Construction → Bool
  | alloc _ => true
  | _ => false

namespace TypeTable

/-- Each slot is the one that interning gives out for its shape. -/
def Deduplicated (t : TypeTable) : Prop :=
  ∀ (i : Nat) s, t.slots[i]? = some s → t.shared[s.code]? = some ⟨i⟩

variable {t u : TypeTable} {s s' : Shape} {a b h : Handle} {T : Tree}

/-- Interning finds a shared slot, or makes one behind all others. -/
theorem intern_cases (hu : t.intern s = .ok (h, u)) :
    (t.shared[s.code]? = some h ∧ u = t) ∨
    (t.shared[s.code]? = none ∧ t.slots.size < capacity ∧ h = ⟨t.slots.size⟩ ∧
      u = { t with slots := t.slots.push s, shared := t.shared.insert s.code ⟨t.slots.size⟩ }) := by
  unfold TypeTable.intern at hu
  split at hu
  · rename_i hm
    cases hu
    exact .inl ⟨hm, rfl⟩
  · rename_i hm
    obtain ⟨⟨i, v⟩, hv, hu⟩ := bind_eq_ok.mp hu
    unfold TypeTable.alloc at hv
    split at hv
    · cases hv
      cases hu
      exact .inr ⟨hm, ‹_›, rfl, rfl⟩
    · cases hv

theorem initial_deduplicated : Deduplicated initial := by
  have hall : ∀ p ∈ Shape.builtins.zipIdx, initial.shared[p.1.code]? = some ⟨p.2⟩ := by
    decide +kernel
  intro i s hs
  have hi : Shape.builtins[i]? = some s := by simpa [initial] using hs
  exact hall (s, i) (List.mem_zipIdx_iff_getElem?.mpr hi)

theorem intern_deduplicated (ht : Deduplicated t) (hu : t.intern s = .ok (h, u)) :
    Deduplicated u := by
  rcases intern_cases hu with ⟨-, rfl⟩ | ⟨hnew, -, -, rfl⟩
  · exact ht
  · intro i s' hs'
    rw [Array.getElem?_push] at hs'
    rw [Std.TreeMap.getElem?_insert]
    split at hs'
    · rename_i heq
      cases hs'
      simp [heq]
    · -- The new shape had no slot, so no older slot holds it.
      have hold := ht i s' hs'
      rw [if_neg, hold]
      intro heq
      rw [Std.LawfulEqOrd.eq_of_compare heq, hold] at hnew
      cases hnew

theorem arrayOf_deduplicated {dims : Nat} {element : Handle} (ht : Deduplicated t)
    (hu : t.arrayOf element dims = .ok (h, u)) : Deduplicated u := by
  induction dims generalizing t element with
  | zero =>
    cases hu
    exact ht
  | succ dims ih =>
    obtain ⟨⟨inner, v⟩, hv, hu⟩ := bind_eq_ok.mp hu
    exact ih (intern_deduplicated ht hv) hu

theorem declare_deduplicated {n : Nominal} {d : Declaration} (ht : Deduplicated t)
    (hu : t.declare n d = .ok (h, u)) : Deduplicated u :=
  intern_deduplicated (t := { t with declarations := t.declarations.push d }) ht hu

/-- Fields are defined exactly where they are missing, and nothing else changes. -/
theorem defineFields_eq_ok {fields : List Field} :
    t.defineFields h fields = .ok u ↔ ∃ d name, t.shape h = .ok (.nominal .struct d) ∧
      t.declarationAt d = .ok ⟨name, .struct none⟩ ∧
      u = { t with declarations :=
        t.declarations.setIfInBounds d.index ⟨name, .struct (some fields)⟩ } := by
  constructor
  · intro hu
    unfold TypeTable.defineFields at hu
    split at hu
    · cases hu
    · rename_i d hs
      split at hu
      · cases hu
      · rename_i name hd
        cases hu
        exact ⟨d, name, hs, hd, rfl⟩
      · cases hu
    · cases hu
  · rintro ⟨d, name, hs, hd, rfl⟩
    simp [TypeTable.defineFields, hs, hd]

theorem defineFields_deduplicated {fields : List Field} (ht : Deduplicated t)
    (hu : t.defineFields h fields = .ok u) : Deduplicated u := by
  obtain ⟨d, name, -, -, rfl⟩ := defineFields_eq_ok.mp hu
  exact ht

theorem apply_deduplicated {op : Construction} (ht : Deduplicated t)
    (hop : op.allocates = false) (hu : op.apply t = .ok u) : Deduplicated u := by
  cases op with
  | intern | array | json | function =>
    obtain ⟨h, hu⟩ := map_snd_eq_ok hu
    exact intern_deduplicated ht hu
  | alloc s => cases hop
  | arrayOf element dims =>
    obtain ⟨h, hu⟩ := map_snd_eq_ok hu
    exact arrayOf_deduplicated ht hu
  | declareStruct | connector | enum =>
    obtain ⟨h, hu⟩ := map_snd_eq_ok hu
    exact declare_deduplicated ht hu
  | defineFields type fields => exact defineFields_deduplicated ht hu
  | struct name fields =>
    obtain ⟨h, hu⟩ := map_snd_eq_ok hu
    obtain ⟨⟨i, v⟩, hv, hu⟩ := bind_eq_ok.mp hu
    obtain ⟨w, hw, hu⟩ := bind_eq_ok.mp hu
    cases hu
    exact defineFields_deduplicated (declare_deduplicated ht hv) hw

theorem after_deduplicated {op : Construction} (ht : Deduplicated t)
    (hop : op.allocates = false) (hu : op.after t = u) : Deduplicated u := by
  rcases after_cases hu with hu | hleft
  · exact apply_deduplicated ht hop hu
  · cases hleft with
    | nothing | declaration => exact ht
    | layers hu => exact arrayOf_deduplicated ht hu
    | undefined hu => exact declare_deduplicated ht hu

theorem growth_deduplicated {allowed : TypeTable → Construction → Prop}
    (halloc : ∀ t op, allowed t op → op.allocates = false) (ht : Deduplicated t)
    (hu : Growth allowed t u) : Deduplicated u := by
  induction hu with
  | refl => exact ht
  | tail _ ha hop ih => exact after_deduplicated ih (halloc _ _ ha) hop

theorem opens_injective {sub : Handle → Except Fault Tree}
    (hsub : ∀ a b T, sub a = .ok T → sub b = .ok T → a = b) (ho : Opens sub s T)
    (ho' : Opens sub s' T) : s = s' := by
  have hunique : Relator.LeftUnique fun h T => sub h = .ok T := fun a b T => hsub a b T
  cases ho with
  | basic b => cases ho'; rfl
  | json hc =>
    cases ho' with
    | json hc' => rw [hsub _ _ _ hc hc']
  | array he =>
    cases ho' with
    | array he' => rw [hsub _ _ _ he he']
  | nominal n d => cases ho'; rfl
  | function hp hr =>
    cases ho' with
    | function hp' hr' =>
      rw [List.left_unique_forall₂' hunique hp hp', List.left_unique_forall₂' hunique hr hr']

/-- By induction on the height of the tree: equal trees have equal parts, hence equal shapes,
hence one slot. -/
theorem unfoldWithin_injective (ht : Deduplicated t) (n : Nat) (a b : Handle) (T : Tree)
    (ha : t.unfoldWithin n a = .ok T) (hb : t.unfoldWithin n b = .ok T) : a = b := by
  induction n generalizing a b T with
  | zero => cases ha
  | succ n ih =>
    obtain ⟨s, hs, ho⟩ := unfoldWithin_succ.mp ha
    obtain ⟨s', hs', ho'⟩ := unfoldWithin_succ.mp hb
    obtain rfl := opens_injective ih ho ho'
    have hslot := ht a.index s (getElem?_of_shape hs)
    have hslot' := ht b.index s (getElem?_of_shape hs')
    exact Option.some.inj (hslot.symm.trans hslot')

/-- Without separate allocations, types are identical exactly if their handles are the same. -/
theorem interned_types_identical_iff_same_handle
    (ht : Growth (fun t op => op.HandlesIn t ∧ op.allocates = false) initial t)
    (ha : t.Has a) (hb : t.Has b) : Decides (t.identical a b) (a = b) := by
  have hl := growth_preserves_layered (ht.mono fun _ _ h => h.1) initial_layered
  have hd := growth_deduplicated (fun _ _ h => h.2) initial_deduplicated ht
  obtain ⟨A, hA⟩ := layered_unfold hl ha
  obtain ⟨B, hB⟩ := layered_unfold hl hb
  apply (identical_decides hA hB).congr
  constructor
  · rintro rfl
    exact unfoldWithin_injective hd _ a b A hA hB
  · rintro rfl
    exact Except.ok.inj (hA.symm.trans hB)

def sharingRun : List Construction := [
  .declareStruct ⟨1⟩, .arrayOf ⟨14⟩ 2, .json ⟨14⟩, .function [⟨15⟩, ⟨17⟩] [⟨16⟩],
  .defineFields ⟨14⟩ [⟨⟨2⟩, ⟨16⟩, {}⟩], .array ⟨15⟩, .function [⟨17⟩, ⟨15⟩] [⟨16⟩],
  .intern (.json ⟨14⟩)]

theorem sharingRun_functions_differ :
    (initial.grow sharingRun).Has ⟨18⟩ ∧ (initial.grow sharingRun).Has ⟨19⟩ ∧
      ¬(initial.grow sharingRun).Has ⟨20⟩ ∧
      (initial.grow sharingRun).identical ⟨18⟩ ⟨19⟩ = .ok false := by
  have hinterned : ∀ op ∈ sharingRun, op.allocates = false := by decide
  have ht : Growth (fun t op => op.HandlesIn t ∧ op.allocates = false) initial
      (initial.grow sharingRun) :=
    growth_grow (fun op hop _ hw => ⟨hw.1, hinterned op hop⟩) .refl
  have hhas : (initial.grow sharingRun).Has ⟨18⟩ ∧ (initial.grow sharingRun).Has ⟨19⟩ ∧
      ¬(initial.grow sharingRun).Has ⟨20⟩ := by
    decide +kernel
  have hsame := interned_types_identical_iff_same_handle ht hhas.1 hhas.2.1
  exact ⟨hhas.1, hhas.2.1, hhas.2.2, hsame.eq_false_iff.mpr (by decide)⟩

end TypeTable

namespace Construction

def made (x : Except TableFailure (Handle × TypeTable)) :
    Except TableFailure (Option Handle × TypeTable) :=
  Prod.map some id <$> x

def outcome (t : TypeTable) : Construction → Except TableFailure (Option Handle × TypeTable)
  | intern s => made (t.intern s)
  | alloc s => made (t.alloc s)
  | array h => made (t.array h)
  | arrayOf h dims => made (t.arrayOf h dims)
  | json h => made (t.json h)
  | function params rets => made (t.function params rets)
  | declareStruct name => made (t.declareStruct name)
  | defineFields type fields => Prod.mk none <$> t.defineFields type fields
  | struct name fields => made (t.struct name fields)
  | connector name => made (t.connector name)
  | enum name members => made (t.enum name members)

def finds : Construction → Bool
  | intern _ | array _ | arrayOf _ _ | json _ | function _ _ => true
  | _ => false

def declares : Construction → Bool
  | declareStruct _ | struct _ _ | connector _ | enum _ _ => true
  | _ => false

/-- Whether the handle that the operation returns comes from interning. An array without
dimensions is its element, which is not interned again. -/
def interns : Construction → Bool
  | alloc _ | defineFields _ _ | arrayOf _ 0 => false
  | _ => true

theorem made_eq_ok {x : Except TableFailure (Handle × TypeTable)} {o : Option Handle}
    {u : TypeTable} : made x = .ok (o, u) ↔ ∃ h, o = some h ∧ x = .ok (h, u) := by
  cases x with
  | error e => simp [made]
  | ok p =>
    obtain ⟨h, t⟩ := p
    simp [made, eq_comm]

theorem apply_eq_outcome (t : TypeTable) (op : Construction) :
    op.apply t = Prod.snd <$> op.outcome t := by
  have hmade (x : Except TableFailure (Handle × TypeTable)) :
      Prod.snd <$> x = Prod.snd <$> made x := by
    cases x <;> rfl
  cases op with
  | defineFields type fields =>
    simp only [apply, outcome]
    cases t.defineFields type fields <;> rfl
  | _ => exact hmade _

end Construction

namespace TypeTable

/-- The second table arises from the first by operations on types and declarations that it has. -/
def Later (t u : TypeTable) : Prop := Growth (fun t op => op.Within t) t u

structure Represented (t : TypeTable) : Prop where
  builtins : ∀ (i : Nat) s, Shape.builtins[i]? = some s → t.shape ⟨i⟩ = .ok s
  shared : ∀ code h, t.shared[code]? = some h → ∃ s, s.code = code ∧ t.shape h = .ok s
  components : ∀ h s, t.shape h = .ok s → ∀ c ∈ s.components,
    t.Has c ∧ (h ≠ Handle.json → c.index < h.index)
  declarations : ∀ h s, t.shape h = .ok s → ∀ d ∈ s.references, t.Declares d

/-- The second table has all slots and entries of the first, and only new slots have entries that
the first does not have. -/
structure Enlarges (t u : TypeTable) : Prop where
  size : t.slots.size ≤ u.slots.size
  slots : ∀ (i : Nat) s, t.slots[i]? = some s → u.slots[i]? = some s
  shared : ∀ (code : List Nat) h, t.shared[code]? = some h → u.shared[code]? = some h
  fresh : ∀ (code : List Nat) h, u.shared[code]? = some h →
    t.shared[code]? = some h ∨ t.slots.size ≤ h.index

variable {known : TypeTable → DeclRef → Prop} {t u v : TypeTable} {s : Shape} {g h : Handle}

theorem Enlarges.refl (t : TypeTable) : Enlarges t t :=
  ⟨Nat.le_refl _, fun _ _ h => h, fun _ _ h => h, fun _ _ h => .inl h⟩

theorem Enlarges.trans (h₁ : Enlarges t u) (h₂ : Enlarges u v) : Enlarges t v where
  size := Nat.le_trans h₁.size h₂.size
  slots i s hs := h₂.slots i s (h₁.slots i s hs)
  shared code h hc := h₂.shared code h (h₁.shared code h hc)
  fresh code h hc := by
    rcases h₂.fresh code h hc with hc | hle
    · exact h₁.fresh code h hc
    · exact .inr (Nat.le_trans h₁.size hle)

theorem Enlarges.shape (hu : Enlarges t u) (hs : t.shape h = .ok s) : u.shape h = .ok s :=
  shape_of_getElem? (hu.slots _ _ (getElem?_of_shape hs))

theorem edit_enlarges (hu : Edit known t u) : Enlarges t u := by
  cases hu with
  | alloc =>
    exact ⟨by simp, fun _ _ hs => getElem?_push_of_some hs, fun _ _ h => h, fun _ _ h => .inl h⟩
  | share _ _ hnew =>
    refine ⟨by simp, fun _ _ hs => getElem?_push_of_some hs, ?_, ?_⟩
    · intro code h hc
      rw [Std.TreeMap.getElem?_insert, if_neg, hc]
      intro heq
      rw [Std.LawfulEqOrd.eq_of_compare heq, hc] at hnew
      cases hnew
    · intro code h hc
      rw [Std.TreeMap.getElem?_insert] at hc
      split at hc
      · cases hc
        exact .inr (Nat.le_refl _)
      · exact .inl hc
  | declare => exact ⟨Nat.le_refl _, fun _ _ h => h, fun _ _ h => h, fun _ _ h => .inl h⟩
  | define => exact ⟨Nat.le_refl _, fun _ _ h => h, fun _ _ h => h, fun _ _ h => .inl h⟩

open Relation in
theorem edits_enlarge (hu : ReflTransGen (Edit known) t u) : Enlarges t u := by
  induction hu with
  | refl => exact .refl t
  | tail _ hedit ih => exact ih.trans (edit_enlarges hedit)

def Indexed (t : TypeTable) : Prop :=
  ∀ (code : List Nat) (h : Handle), t.shared[code]? = some h → ∃ s : Shape, s.code = code

theorem initial_indexed : Indexed initial := by
  have hall : ∀ e ∈ initial.shared.toList, ∃ s ∈ Shape.builtins, s.code = e.1 := by
    decide +kernel
  intro code h hc
  obtain ⟨s, -, hs⟩ := hall (code, h) (Std.TreeMap.mem_toList_iff_getElem?_eq_some.mpr hc)
  exact ⟨s, hs⟩

theorem edit_preserves_indexed (hu : Edit known t u) (ht : Indexed t) : Indexed u := by
  cases hu with
  | alloc => exact ht
  | @share s =>
    intro code h hc
    rw [Std.TreeMap.getElem?_insert] at hc
    split at hc
    · rename_i heq
      exact ⟨s, Std.LawfulEqOrd.eq_of_compare heq⟩
    · exact ht code h hc
  | declare => exact ht
  | define => exact ht

theorem later_enlarges (ht : Reachable t) (hu : Later t u) : Enlarges t u :=
  edits_enlarge (growth_edits (reachable_layered ht) hu)

theorem reachable_indexed (ht : Reachable t) : Indexed t := by
  have hedits := growth_edits initial_layered ht
  clear ht
  induction hedits with
  | refl => exact initial_indexed
  | tail _ hedit ih => exact edit_preserves_indexed hedit ih

theorem reachable_represented (ht : Reachable t) : Represented t := by
  have hl := reachable_layered ht
  have hc := reachable_closed ht
  refine ⟨fun i s hs => shape_of_getElem? (hl.builtins i s hs), ?_, ?_, ?_⟩
  · intro code h hs
    obtain ⟨s, rfl⟩ := reachable_indexed ht code h hs
    exact ⟨s, rfl, shape_of_getElem? (hl.shared s h hs)⟩
  · intro h s hs c hcomp
    have hslot := getElem?_of_shape hs
    by_cases hb : Handle.builtinCount ≤ h.index
    · have hlt := hl.earlier h.index s hslot hb c hcomp
      exact ⟨Nat.lt_trans hlt (has_of_shape hs), fun _ => hlt⟩
    · -- Of the built-in types only `json` has a component.
      have hforward : ∀ p ∈ Shape.builtins.zipIdx, ∀ c ∈ p.1.components,
          c.isBuiltin = true ∧ Handle.json = ⟨p.2⟩ := by decide
      have hlt : h.index < Shape.builtins.length := Nat.lt_of_not_le hb
      have hbuiltin := hl.builtins h.index _ (List.getElem?_eq_getElem hlt)
      obtain rfl := Option.some.inj (hslot.symm.trans hbuiltin)
      obtain ⟨hcb, hjson⟩ := hforward (Shape.builtins[h.index], h.index)
        (List.mem_zipIdx_iff_getElem?.mpr (List.getElem?_eq_getElem hlt)) c hcomp
      exact ⟨builtin_has hl hcb, fun hne => absurd hjson.symm hne⟩
  · intro h s hs d hd
    cases s with
    | nominal n d' =>
      obtain rfl := List.mem_singleton.mp hd
      exact hc.declared h.index n d (getElem?_of_shape hs)
    | _ => cases hd

/-! Types that are asked for by their content. -/

theorem intern_shared (hu : t.intern s = .ok (h, u)) : u.shared[s.code]? = some h := by
  rcases intern_cases hu with ⟨hold, rfl⟩ | ⟨-, -, rfl, rfl⟩
  · exact hold
  · simp

theorem intern_of_shared (hs : t.shared[s.code]? = some h) : t.intern s = .ok (h, t) := by
  simp [TypeTable.intern, hs]

theorem intern_again (hu : t.intern s = .ok (h, u)) (hv : Enlarges u v) :
    v.intern s = .ok (h, v) :=
  intern_of_shared (hv.shared _ _ (intern_shared hu))

theorem arrayOf_again {dims : Nat} {element : Handle} (ht : Layered t) (he : t.Has element)
    (hu : t.arrayOf element dims = .ok (h, u)) (hv : Enlarges u v) :
    v.arrayOf element dims = .ok (h, v) := by
  induction dims generalizing t element with
  | zero =>
    cases hu
    rfl
  | succ dims ih =>
    obtain ⟨⟨inner, w⟩, hw, hu⟩ := bind_eq_ok.mp hu
    have fits : t.Fits (fun _ _ => True) (.array element) := by
      simpa [Fits, Shape.components, Shape.references] using he
    obtain ⟨htw, hslot⟩ := intern_edits ht fits hw
    have hinner := has_of_getElem? hslot
    have hlw := edits_preserve_layered htw ht
    have hwu : Relation.ReflTransGen (Edit fun _ _ => True) w u := arrayOf_edits hlw hinner hu
    have hfirst : v.array element = .ok (inner, v) :=
      intern_again hw ((edits_enlarge hwu).trans hv)
    have hrest := ih hlw hinner hu
    simp [TypeTable.arrayOf, hfirst, hrest]

theorem arrayOf_shared {dims : Nat} {element : Handle}
    (hu : t.arrayOf element (dims + 1) = .ok (h, u)) :
    ∃ s : Shape, u.shared[s.code]? = some h := by
  induction dims generalizing t element with
  | zero =>
    obtain ⟨⟨inner, w⟩, hw, hu⟩ := bind_eq_ok.mp hu
    cases hu
    exact ⟨_, intern_shared hw⟩
  | succ dims ih =>
    obtain ⟨⟨inner, w⟩, -, hu⟩ := bind_eq_ok.mp hu
    exact ih hu

end TypeTable

namespace Construction

open TypeTable

variable {t u v : TypeTable} {op : Construction} {o : Option Handle} {h : Handle}

theorem outcome_again (hop : op.finds = true) (ht : Layered t) (hh : op.HandlesIn t)
    (hu : op.outcome t = .ok (o, u)) (hv : Enlarges u v) : op.outcome v = .ok (o, v) := by
  cases op with
  | intern | array | json | function =>
    obtain ⟨h, rfl, hfound⟩ := made_eq_ok.mp hu
    exact made_eq_ok.mpr ⟨h, rfl, intern_again hfound hv⟩
  | arrayOf element dims =>
    obtain ⟨h, rfl, hfound⟩ := made_eq_ok.mp hu
    have he : t.Has element := hh element (by simp [handles])
    exact made_eq_ok.mpr ⟨h, rfl, arrayOf_again ht he hfound hv⟩
  | _ => cases hop

theorem outcome_shared (hop : op.interns = true) (hu : op.outcome t = .ok (some h, u)) :
    ∃ s : Shape, u.shared[s.code]? = some h := by
  cases op with
  | intern | array | json | function | declareStruct | connector | enum =>
    obtain ⟨_, ⟨⟩, hu⟩ := made_eq_ok.mp hu
    exact ⟨_, intern_shared hu⟩
  | alloc | defineFields => cases hop
  | arrayOf element dims =>
    obtain ⟨_, ⟨⟩, hu⟩ := made_eq_ok.mp hu
    cases dims with
    | zero => cases hop
    | succ dims => exact arrayOf_shared hu
  | struct name fields =>
    obtain ⟨_, ⟨⟩, hu⟩ := made_eq_ok.mp hu
    obtain ⟨⟨i, v⟩, hv, hu⟩ := bind_eq_ok.mp hu
    obtain ⟨w, hw, hu⟩ := bind_eq_ok.mp hu
    cases hu
    obtain ⟨d, _, -, -, rfl⟩ := defineFields_eq_ok.mp hw
    exact ⟨_, intern_shared (u := v) hv⟩

theorem later_of_outcome (hw : op.Within t) (hu : op.outcome t = .ok (o, u)) : Later t u := by
  apply Growth.tail .refl hw
  apply after_of_apply
  rw [apply_eq_outcome, hu]
  rfl

end Construction

namespace TypeTable

def Separate (t : TypeTable) (h : Handle) : Prop :=
  t.Has h ∧ ∀ code : List Nat, t.shared[code]? ≠ some h

theorem alloc_separate (ht : Reachable t) (hu : t.alloc s = .ok (h, u)) : Separate u h := by
  unfold TypeTable.alloc at hu
  split at hu
  · cases hu
    refine ⟨by simp [Has], ?_⟩
    intro code hc
    obtain ⟨s, -, hs⟩ := (reachable_represented ht).shared code _ hc
    exact Nat.lt_irrefl _ (has_of_shape hs)
  · cases hu

theorem enlarges_separate (hv : Enlarges u v) (hh : Separate u h) : Separate v h := by
  refine ⟨Nat.lt_of_lt_of_le hh.1 hv.size, ?_⟩
  intro code hc
  rcases hv.fresh code h hc with hold | hle
  · exact hh.2 code hold
  · exact Nat.not_lt_of_le hle hh.1

/-- What a shape is shared through holds it, and types refer to declarations that there are. -/
structure Grounded (t : TypeTable) : Prop where
  shared : ∀ (s : Shape) (h : Handle), t.shared[s.code]? = some h → t.slots[h.index]? = some s
  declared : ∀ (i : Nat) n d, t.slots[i]? = some (.nominal n d) → t.Declares d

theorem grounded_of_closed (ht : Layered t) (hc : Closed t) : Grounded t := ⟨ht.shared, hc.declared⟩

/-- No slot refers to a declaration that is still to come, so a declaration gets a new slot. -/
theorem declare_new {n : Nominal} {d : Declaration} (ht : Grounded t)
    (room : t.slots.size < capacity) :
    t.declare n d = .ok (⟨t.slots.size⟩,
      { slots := t.slots.push (.nominal n ⟨t.declarations.size⟩)
        shared := t.shared.insert (Shape.nominal n ⟨t.declarations.size⟩).code ⟨t.slots.size⟩
        declarations := t.declarations.push d }) := by
  have hnone : t.shared[(Shape.nominal n ⟨t.declarations.size⟩).code]? = none := by
    rw [Option.eq_none_iff_forall_ne_some]
    intro h hs
    exact Nat.lt_irrefl _ (ht.declared h.index n _ (ht.shared _ h hs))
  simp [TypeTable.declare, TypeTable.intern, hnone, TypeTable.alloc, room]

theorem struct_new {name : Name} {fields : List Field} (ht : Grounded t)
    (room : t.slots.size < capacity) :
    ∃ u, t.struct name fields = .ok (⟨t.slots.size⟩, u) ∧
      u.slots = t.slots.push (.nominal .struct ⟨t.declarations.size⟩) ∧
      u.declarations = t.declarations.push ⟨name, .struct (some fields)⟩ := by
  obtain ⟨v, hv, hslots, hdecls⟩ : ∃ v, t.declareStruct name = .ok (⟨t.slots.size⟩, v) ∧
      v.slots = t.slots.push (.nominal .struct ⟨t.declarations.size⟩) ∧
      v.declarations = t.declarations.push ⟨name, .struct none⟩ :=
    ⟨_, declare_new ht room, rfl, rfl⟩
  have hshape : v.shape ⟨t.slots.size⟩ = .ok (.nominal .struct ⟨t.declarations.size⟩) := by
    simp [TypeTable.shape, hslots]
  have hdecl : v.declarationAt ⟨t.declarations.size⟩ = .ok ⟨name, .struct none⟩ := by
    simp [declarationAt, hdecls]
  obtain ⟨w, hw, hsame, hfilled⟩ : ∃ w, v.defineFields ⟨t.slots.size⟩ fields = .ok w ∧
      w.slots = v.slots ∧ w.declarations =
        v.declarations.setIfInBounds t.declarations.size ⟨name, .struct (some fields)⟩ :=
    ⟨_, defineFields_eq_ok.mpr ⟨_, name, hshape, hdecl, rfl⟩, rfl, rfl⟩
  refine ⟨w, bind_eq_ok.mpr ⟨_, hv, bind_eq_ok.mpr ⟨w, hw, rfl⟩⟩, hsame.trans hslots, ?_⟩
  simp [hfilled, hdecls, Array.setIfInBounds, Array.set_push]

theorem outcome_declares {op : Construction} (hop : op.declares = true) (ht : Layered t)
    (hc : Closed t) (room : t.slots.size < capacity) :
    ∃ u n, op.outcome t = .ok (some ⟨t.slots.size⟩, u) ∧
      u.slots = t.slots.push (.nominal n ⟨t.declarations.size⟩) := by
  have hg := grounded_of_closed ht hc
  cases op with
  | declareStruct | connector | enum =>
    exact ⟨_, _, Construction.made_eq_ok.mpr ⟨_, rfl, declare_new hg room⟩, rfl⟩
  | struct name fields =>
    obtain ⟨u, hu, hslots, -⟩ := struct_new hg room
    exact ⟨u, .struct, Construction.made_eq_ok.mpr ⟨_, rfl, hu⟩, hslots⟩
  | _ => cases hop

theorem declared_distinct {n : Nominal} (hc : Closed t) (hv : Layered v) (htv : Enlarges t v)
    (hslot : v.slots[t.slots.size]? = some (.nominal n ⟨t.declarations.size⟩)) (hg : t.Has g) :
    v.identical ⟨t.slots.size⟩ g = .ok false := by
  obtain ⟨s, hs, hshape⟩ := exists_shape hg
  obtain ⟨D, hD⟩ := layered_unfold hv (has_of_getElem? hslot)
  obtain ⟨G, hG⟩ := layered_unfold hv (has_of_shape (htv.shape hshape))
  have hne : D ≠ G := by
    rintro rfl
    obtain ⟨s₁, hs₁, ho⟩ := unfold_inv hD
    obtain ⟨s₂, hs₂, ho'⟩ := unfold_inv hG
    obtain rfl := Except.ok.inj ((shape_of_getElem? hslot).symm.trans hs₁)
    obtain rfl := Except.ok.inj ((htv.shape hshape).symm.trans hs₂)
    cases ho
    cases ho'
    exact Nat.lt_irrefl _ (hc.declared g.index n _ hs)
  simp [identical_eq hD hG, hne]

/-- What holds of every table that grows from the built-in types. Its parts are consistent. Slots
keep their shapes in all later tables. A type asked for by its content is found again under the
same handle, without any change; so is the type that any interning operation returns, a
declaration included, if its content is interned later. A handle that was allocated is never given
out by interning. A declaration succeeds while there is room: its type is the next slot, and is
not identical to any type before it. -/
theorem growth_keeps_representation (ht : Reachable t) :
    Represented t ∧
    (∀ u, Later t u → ∀ h s, t.shape h = .ok s → u.shape h = .ok s) ∧
    (∀ op : Construction, op.finds = true → op.Within t → ∀ o u, op.outcome t = .ok (o, u) →
      ∀ v, Later u v → op.outcome v = .ok (o, v)) ∧
    (∀ op : Construction, op.interns = true → op.Within t →
      ∀ h u, op.outcome t = .ok (some h, u) → ∀ v, Later u v →
      ∃ s, v.shape h = .ok s ∧ v.intern s = .ok (h, v)) ∧
    (∀ s h u, (Construction.alloc s).Within t →
      (Construction.alloc s).outcome t = .ok (some h, u) → ∀ v, Later u v →
      ∀ op : Construction, op.interns = true → op.Within v →
      ∀ h' w, op.outcome v = .ok (some h', w) → h' ≠ h) ∧
    (∀ op : Construction, op.declares = true → op.Within t → t.slots.size < capacity →
      ∃ u, op.outcome t = .ok (some ⟨t.slots.size⟩, u) ∧
        ∀ v, Later u v → ∀ g, t.Has g → v.identical ⟨t.slots.size⟩ g = .ok false) := by
  have hl := reachable_layered ht
  have hc := reachable_closed ht
  refine ⟨reachable_represented ht, ?_, ?_, ?_, ?_, ?_⟩
  · intro u hu h s hs
    exact (later_enlarges ht hu).shape hs
  · intro op hop hw o u hu v hv
    have hru : Reachable u := Growth.trans ht (Construction.later_of_outcome hw hu)
    exact Construction.outcome_again hop hl hw.1 hu (later_enlarges hru hv)
  · intro op hop hw h u hu v hv
    have hru : Reachable u := Growth.trans ht (Construction.later_of_outcome hw hu)
    obtain ⟨s, hs⟩ := Construction.outcome_shared hop hu
    have hkept := (later_enlarges hru hv).shared _ _ hs
    have hslot := (reachable_layered (Growth.trans hru hv)).shared s h hkept
    exact ⟨s, shape_of_getElem? hslot, intern_of_shared hkept⟩
  · intro s h u hw hu v hv op hop hwv h' w hres
    have hru : Reachable u := Growth.trans ht (Construction.later_of_outcome hw hu)
    have huw : Later u w := Growth.trans hv (Construction.later_of_outcome hwv hres)
    obtain ⟨_, ⟨⟩, halloc⟩ := Construction.made_eq_ok.mp hu
    have hsep := enlarges_separate (later_enlarges hru huw) (alloc_separate ht halloc)
    obtain ⟨s', hs'⟩ := Construction.outcome_shared hop hres
    rintro rfl
    exact hsep.2 _ hs'
  · intro op hop hw room
    obtain ⟨u, n, hu, hslots⟩ := outcome_declares hop hl hc room
    refine ⟨u, hu, ?_⟩
    intro v hv g hg
    have htu := Construction.later_of_outcome hw hu
    have huv := later_enlarges (Growth.trans ht htu) hv
    have hslot : v.slots[t.slots.size]? = some (.nominal n ⟨t.declarations.size⟩) :=
      huv.slots _ _ (by simp [hslots])
    have hrv : Reachable v := Growth.trans (Growth.trans ht htu) hv
    exact declared_distinct hc (reachable_layered hrv) ((later_enlarges ht htu).trans huv) hslot hg

theorem initial_json_copy_stays_separate :
    ∃ t, (Construction.alloc (.json ⟨12⟩)).outcome initial = .ok (some ⟨14⟩, t) ∧
      (Construction.json ⟨12⟩).outcome t = .ok (some ⟨8⟩, t) ∧
      (∀ h u, (Construction.json ⟨12⟩).outcome t = .ok (some h, u) → h ≠ ⟨14⟩) ∧
      ∃ u, (Construction.declareStruct ⟨1⟩).outcome t = .ok (some ⟨15⟩, u) ∧
        u.identical ⟨15⟩ ⟨14⟩ = .ok false ∧
        ∃ s, u.shape ⟨15⟩ = .ok s ∧ u.intern s = .ok (⟨15⟩, u) := by
  let t : TypeTable := { initial with slots := initial.slots.push (.json ⟨12⟩) }
  have halloc : (Construction.alloc (.json ⟨12⟩)).outcome initial = .ok (some ⟨14⟩, t) := rfl
  have hw : (Construction.alloc (.json ⟨12⟩)).Within initial := by decide
  have hlater := Construction.later_of_outcome hw halloc
  obtain ⟨-, -, hagain, -, hseparate, -⟩ := growth_keeps_representation .refl
  obtain ⟨-, -, -, hfind, -, hnew⟩ := growth_keeps_representation (t := t) hlater
  have hshared : initial.shared[(Shape.json ⟨12⟩).code]? = some ⟨8⟩ := by decide +kernel
  have hfound : (Construction.json ⟨12⟩).outcome initial = .ok (some ⟨8⟩, initial) :=
    Construction.made_eq_ok.mpr ⟨⟨8⟩, rfl, intern_of_shared hshared⟩
  refine ⟨t, halloc, hagain _ rfl (by decide) _ _ hfound t hlater, ?_, ?_⟩
  · exact hseparate _ _ _ hw halloc t .refl _ rfl (by decide)
  · obtain ⟨u, hu, hdistinct⟩ := hnew (.declareStruct ⟨1⟩) rfl (by decide) (by decide)
    exact ⟨u, hu, hdistinct u .refl ⟨14⟩ (by decide),
      hfind (.declareStruct ⟨1⟩) rfl (by decide) _ _ hu u .refl⟩

end TypeTable

end TypeConformance
