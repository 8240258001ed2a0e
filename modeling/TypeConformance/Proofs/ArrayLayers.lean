import TypeConformance.Proofs.Persistence

/-! # Array layers are put on and taken off

Layers are put on a type one by one, each in its shared slot, whether or not the slot was there
before. Walking back through as many layers ends at the very handle that was given, also where
the table has copies of the same arrays.
-/
namespace TypeConformance.TypeTable

def peel (t : TypeTable) : Nat → Handle → Except Fault (Option Handle)
  | 0, h => return some h
  | n + 1, h => do
    match ← t.arrayElement? h with
    | some element => t.peel n element
    | none => return none

/-- Putting `n` layers on `e` gave the handle `a` and the table `u`. -/
structure LayersPut (t : TypeTable) (e : Handle) (n : Nat) (a : Handle) (u : TypeTable) :
    Prop where
  dimensions : ∃ k, u.dimensions e = .ok k ∧ u.dimensions a = .ok (k + n) ∧ k + n < UInt32.size
  elementType : SameAnswer (u.elementType a) (u.elementType e)
  peel : u.peel n a = .ok (some e)
  /-- It makes no difference where the layers are divided, also if there is no room for them. -/
  divided : ∀ m, u.arrayOf a m = t.arrayOf e (n + m)
  again : ∀ v, Later u v → v.arrayOf e n = .ok (a, v)
  joined : ∀ m c v, u.arrayOf a m = .ok (c, v) → ∀ w, Later v w → w.arrayOf e (n + m) = .ok (c, w)

variable {t u v : TypeTable} {a e h x : Handle} {A E : Tree} {n m k : Nat}

theorem peel_succ_iff : t.peel (n + 1) h = .ok (some e) ↔
    ∃ x, t.arrayElement? h = .ok (some x) ∧ t.peel n x = .ok (some e) := by
  rw [peel, bind_eq_ok]
  constructor
  · rintro ⟨element?, helement, hrest⟩
    cases element? with
    | none => cases hrest
    | some x => exact ⟨x, helement, hrest⟩
  · rintro ⟨x, hx, hrest⟩
    exact ⟨some x, hx, hrest⟩

theorem peel_last (hx : t.peel n h = .ok (some x)) (he : t.arrayElement? x = .ok (some e)) :
    t.peel (n + 1) h = .ok (some e) := by
  induction n generalizing h with
  | zero =>
    cases hx
    exact peel_succ_iff.mpr ⟨e, he, rfl⟩
  | succ n ih =>
    obtain ⟨y, hy, hrest⟩ := peel_succ_iff.mp hx
    exact peel_succ_iff.mpr ⟨y, hy, ih hrest⟩

theorem stripWithin_of_peel {b : Handle} (hp : t.peel n a = .ok (some e))
    (hb : t.stripWithin m e = .ok (b, k)) : t.stripWithin (m + n) a = .ok (b, k + n) := by
  induction n generalizing a with
  | zero =>
    cases hp
    exact hb
  | succ n ih =>
    obtain ⟨x, hx, hrest⟩ := peel_succ_iff.mp hp
    rw [← Nat.add_assoc, stripWithin, hx, bind_ok]
    exact bind_eq_ok.mpr ⟨_, ih hrest, rfl⟩

theorem dims_of_peel (hA : t.unfold a = .ok A) (hp : t.peel n a = .ok (some e)) :
    ∃ E, t.unfold e = .ok E ∧ A.dims = E.dims + n := by
  induction n generalizing a A with
  | zero =>
    cases hp
    exact ⟨A, hA, rfl⟩
  | succ n ih =>
    obtain ⟨x, hx, hrest⟩ := peel_succ_iff.mp hp
    rcases arrayElement?_cases hA with ⟨y, Y, rfl, hy, hY⟩ | ⟨-, hnone⟩
    · cases hx.symm.trans hy
      obtain ⟨E, hE, hdims⟩ := ih hY hrest
      exact ⟨E, hE, by rw [Tree.dims, hdims, Nat.add_assoc]⟩
    · cases hx.symm.trans hnone

/-- Both walks through the layers of `a` come past `e`, so they end at the same base. -/
theorem strip_of_peel (ht : Layered t) (ha : t.Has a) (hp : t.peel n a = .ok (some e)) :
    SameAnswer (t.elementType a) (t.elementType e) ∧
      ∃ k, t.dimensions e = .ok k ∧ t.dimensions a = .ok (k + n) ∧ k + n < UInt32.size := by
  obtain ⟨A, hA⟩ := layered_unfold ht ha
  obtain ⟨E, hE, hdims⟩ := dims_of_peel hA hp
  obtain ⟨b, hb, -⟩ := stripWithin_eq hE (Nat.lt_succ_self E.dims)
  -- The walks have more steps than they need, which changes nothing.
  have hbudget : E.dims + 1 + n ≤ t.walkBudget := by
    have := dims_lt_walkBudget hA
    omega
  have hbase : t.stripWithin t.walkBudget e = .ok (b, E.dims) :=
    stripWithin_enlarged (.refl t) (by omega) hb
  have hsame : t.stripWithin t.walkBudget a = .ok (b, E.dims + n) :=
    stripWithin_enlarged (.refl t) hbudget (stripWithin_of_peel hp hb)
  refine ⟨⟨b, by simp [elementType, hsame], by simp [elementType, hbase]⟩, E.dims,
    by simp [dimensions, hbase], by simp [dimensions, hsame], ?_⟩
  rw [← hdims]
  exact dims_lt_size ht hA

theorem intern_of_room (s : Shape) (room : t.slots.size < capacity) :
    ∃ h u, t.intern s = .ok (h, u) ∧ u.slots.size ≤ t.slots.size + 1 := by
  rw [intern]
  cases t.shared[s.code]? with
  | some h => exact ⟨h, t, rfl, Nat.le_succ _⟩
  | none => exact ⟨_, _, bind_eq_ok.mpr ⟨_, if_pos room, rfl⟩, by simp⟩

theorem arrayOf_of_room (room : t.slots.size + n ≤ capacity) :
    ∃ a u, t.arrayOf e n = .ok (a, u) := by
  induction n generalizing t e with
  | zero => exact ⟨e, t, rfl⟩
  | succ n ih =>
    obtain ⟨inner, w, hw, hsize⟩ := intern_of_room (t := t) (.array e) (by omega)
    obtain ⟨a, u, hu⟩ := ih (t := w) (e := inner) (by omega)
    exact ⟨a, u, bind_eq_ok.mpr ⟨_, hw, hu⟩⟩

theorem arrayOf_add (t : TypeTable) (e : Handle) (n m : Nat) :
    t.arrayOf e (n + m) = t.arrayOf e n >>= fun p => p.2.arrayOf p.1 m := by
  induction n generalizing t e with
  | zero => simp [arrayOf]
  | succ n ih =>
    rw [Nat.succ_add, arrayOf, arrayOf]
    cases t.array e with
    | error error => rfl
    | ok p => exact ih p.2 p.1

theorem arrayOf_peel (ht : Layered t) (he : t.Has e) (hu : t.arrayOf e n = .ok (a, u)) :
    u.Has a ∧ u.peel n a = .ok (some e) := by
  induction n generalizing t e with
  | zero =>
    cases hu
    exact ⟨he, rfl⟩
  | succ n ih =>
    obtain ⟨⟨inner, w⟩, hw, hu⟩ := bind_eq_ok.mp hu
    have fits : t.Fits (fun _ _ => True) (.array e) := by
      simpa [Fits, Shape.components, Shape.references] using he
    obtain ⟨htw, hslot⟩ := intern_edits ht fits hw
    have hlw := edits_preserve_layered htw ht
    have hinner := has_of_getElem? hslot
    have hwu : Relation.ReflTransGen (Edit fun _ _ => True) w u := arrayOf_edits hlw hinner hu
    have hlayer : u.arrayElement? inner = .ok (some e) := by
      rw [arrayElement?, (edits_enlarge hwu).shape (shape_of_getElem? hslot)]
      rfl
    obtain ⟨ha, hpeel⟩ := ih hlw hinner hu
    exact ⟨ha, peel_last hpeel hlayer⟩

theorem arrayOf_later (he : t.Has e) (hu : t.arrayOf e n = .ok (a, u)) : Later t u := by
  have hwithin : (Construction.arrayOf e n).Within t := by
    simpa [Construction.Within, Construction.HandlesIn, Construction.handles,
      Construction.references] using he
  exact Construction.later_of_outcome hwithin (Construction.made_eq_ok.mpr ⟨a, rfl, hu⟩)

theorem arrayOf_repeated (ht : Reachable t) (he : t.Has e) (hu : t.arrayOf e n = .ok (a, u))
    (hv : Later u v) : v.arrayOf e n = .ok (a, v) := by
  have hru : Reachable u := Growth.trans ht (arrayOf_later he hu)
  exact arrayOf_again (reachable_layered ht) he hu (later_enlarges hru hv)

/-- Layers can be put on any type as long as there is room. They are counted and taken off as they
were put on; they may be put on in two parts; and they are put on only once. -/
theorem array_layers_come_off_as_put_on (ht : Reachable t) (he : t.Has e) :
    (∀ n, t.slots.size + n ≤ capacity → ∃ a u, t.arrayOf e n = .ok (a, u)) ∧
    ∀ n a u, t.arrayOf e n = .ok (a, u) → LayersPut t e n a u := by
  refine ⟨fun n room => arrayOf_of_room room, ?_⟩
  intro n a u hu
  have hlu := reachable_layered (Growth.trans ht (arrayOf_later he hu))
  obtain ⟨ha, hpeel⟩ := arrayOf_peel (reachable_layered ht) he hu
  obtain ⟨hbase, hdims⟩ := strip_of_peel hlu ha hpeel
  have hdivided (m : Nat) : u.arrayOf a m = t.arrayOf e (n + m) := by
    rw [arrayOf_add, hu, bind_ok]
  refine ⟨hdims, hbase, hpeel, hdivided, fun v hv => arrayOf_repeated ht he hu hv, ?_⟩
  intro m c v hv w hw
  rw [hdivided] at hv
  exact arrayOf_repeated ht he hv hw

def partialLayers : TypeTable :=
  initial.grow [.array ⟨0⟩, .alloc (.array ⟨0⟩), .array ⟨15⟩]

def fullLayers : TypeTable := partialLayers.grow [.arrayOf ⟨15⟩ 2]

theorem partialLayers_completed :
    partialLayers.arrayOf ⟨15⟩ 2 = .ok (⟨17⟩, fullLayers) ∧
      fullLayers.dimensions ⟨15⟩ = .ok 1 ∧ fullLayers.dimensions ⟨17⟩ = .ok 3 ∧
      fullLayers.elementType ⟨17⟩ = .ok ⟨0⟩ ∧ fullLayers.peel 2 ⟨17⟩ = .ok (some ⟨15⟩) ∧
      fullLayers.arrayOf ⟨17⟩ 1 = partialLayers.arrayOf ⟨15⟩ 3 ∧
      fullLayers.arrayOf ⟨15⟩ 2 = .ok (⟨17⟩, fullLayers) := by
  have ht : Reachable partialLayers := reachable_grow .refl _
  have hhas : partialLayers.Has ⟨15⟩ := by decide +kernel
  obtain ⟨hroom, hput⟩ := array_layers_come_off_as_put_on ht hhas
  obtain ⟨a, u, hu⟩ := hroom 2 (by decide +kernel)
  obtain rfl : a = ⟨17⟩ := by
    have hfirst : (partialLayers.arrayOf ⟨15⟩ 2).toOption.map Prod.fst = some ⟨17⟩ := by
      decide +kernel
    rw [hu] at hfirst
    exact Option.some.inj hfirst
  obtain rfl : fullLayers = u := by
    have happly : (Construction.arrayOf ⟨15⟩ 2).apply partialLayers = .ok u := by
      rw [Construction.apply, hu]
      rfl
    exact step_of_apply (by decide +kernel) happly
  obtain ⟨⟨k, hk, hdims, -⟩, ⟨b, hbase, hbase'⟩, hpeel, hdivided, hagain, -⟩ := hput 2 _ _ hu
  have hcopy : fullLayers.dimensions ⟨15⟩ = .ok 1 ∧ fullLayers.elementType ⟨15⟩ = .ok ⟨0⟩ := by
    decide +kernel
  cases hk.symm.trans hcopy.1
  cases hbase'.symm.trans hcopy.2
  exact ⟨hu, hcopy.1, hdims, hbase, hpeel, hdivided 1, hagain _ .refl⟩

end TypeConformance.TypeTable
