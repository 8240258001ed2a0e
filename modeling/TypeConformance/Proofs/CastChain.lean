import TypeConformance.Proofs.Invariance

/-! # Chains of implicit casts

An expression may be checked several times. Each check looks for a cast out of the expression's
own type, not out of the type that the casts around it have given it already. So a second layer
never fits on the first.
-/
namespace TypeConformance

/-- Each layer takes what the layers below it give. Layers are listed outermost first. -/
def ChainTyped (t : TypeTable) (bare : Expression) : List CastLayer → Prop
  | [] => True
  | layer :: inner =>
    t.canonical { bare with casts := inner }.effectiveType = .ok layer.operator.source ∧
      ChainTyped t bare inner

instance decidableChainTyped (t : TypeTable) (bare : Expression) :
    (casts : List CastLayer) → Decidable (ChainTyped t bare casts)
  | [] => .isTrue trivial
  | _ :: inner =>
    have := decidableChainTyped t bare inner
    inferInstanceAs (Decidable (_ ∧ _))

theorem TypeTable.has_of_canonical {t : TypeTable} {h k : Handle} (ht : t.Layered)
    (hk : t.canonical h = .ok k) (hb : k.isBuiltin = true) : t.Has h := by
  unfold canonical at hk
  split at hk
  · cases hk
    exact builtin_has ht hb
  · obtain ⟨s, hs, _⟩ := bind_eq_ok.mp hk
    exact has_of_shape hs

namespace Checker

def checkOnce (c : Checker) (e : Expression) (call : Handle × Code) : Expression :=
  match c.checkExpression e call.1 call.2 with
  | .ok reported => reported.value
  | .error _ => e

def checkRepeatedly (c : Checker) (e : Expression) (calls : List (Handle × Code)) : Expression :=
  calls.foldl c.checkOnce e

def rejects (c : Checker) (span : Span) (type : Handle) (call : Handle × Code) : Bool :=
  match c.checkType span type call.1 call.2 with
  | .ok checked => decide (c.types.kind checked.value = .ok (.basic .error))
  | .error _ => false

def layer? (c : Checker) (span : Span) (type expected : Handle) : Option CastLayer :=
  match c.operators.lookup c.types .implicitCast type expected with
  | .ok (some operator) => some ⟨span, expected, operator⟩
  | _ => none

/-- The layers of all calls before the first that gives the error type. -/
def layers (c : Checker) (span : Span) (type : Handle) (calls : List (Handle × Code)) :
    List CastLayer :=
  (calls.takeWhile fun call => !c.rejects span type call).filterMap fun call =>
    c.layer? span type call.1

inductive CheckStep (c : Checker) (e : Expression) (call : Handle × Code) : Expression → Prop where
  | fault : c.rejects e.span e.type call = false → c.layer? e.span e.type call.1 = none →
      CheckStep c e call e
  | reject {h} : c.rejects e.span e.type call = true → c.types.kind h = .ok (.basic .error) →
      CheckStep c e call { e with type := h }
  | accept : c.rejects e.span e.type call = false → c.types.kind e.type ≠ .ok (.basic .error) →
      CheckStep c e call
        { e with casts := (c.layer? e.span e.type call.1).toList ++ e.casts }

variable {c : Checker} {e : Expression} {call : Handle × Code} {span : Span} {code : Code}
  {type expected : Handle} {A E : Tree}

theorem layer?_eq_some {layer : CastLayer} (hl : c.layer? span type expected = some layer) :
    ∃ operator, layer = ⟨span, expected, operator⟩ ∧
      c.operators.lookup c.types .implicitCast type expected = .ok (some operator) := by
  unfold layer? at hl
  split at hl
  · rename_i operator hlookup
    exact ⟨operator, (Option.some.inj hl).symm, hlookup⟩
  · cases hl

theorem has_of_checkType {x : Reported Handle} (ha : c.types.Has type)
    (hx : c.checkType span type expected code = .ok x) : c.types.Has expected := by
  unfold checkType at hx
  split at hx
  · rename_i heq
    exact heq ▸ ha
  · obtain ⟨kind, hk, _⟩ := bind_eq_ok.mp hx
    exact TypeTable.has_of_kind hk

theorem error_kind (ht : c.types.Layered) :
    c.types.kind Basic.error.handle = .ok (.basic .error) := by
  have hshape := TypeTable.shape_of_getElem? (ht.builtins 13 _ rfl)
  simp [TypeTable.kind, Basic.handle, hshape, Shape.kind]

theorem checkType_value {x : Reported Handle} (ht : c.types.Layered) (ha : c.types.Has type)
    (hx : c.checkType span type expected code = .ok x) :
    x.value = type ∨ c.types.kind x.value = .ok (.basic .error) := by
  obtain ⟨A, hA⟩ := TypeTable.layered_unfold ht ha
  obtain ⟨E, hE⟩ := TypeTable.layered_unfold ht (has_of_checkType ha hx)
  rw [checkType_eq ht hA hE] at hx
  split at hx
  · cases hx
    right
    rw [TypeTable.kind_eq hE]
    simp_all
  split at hx
  · cases hx
    left
    rfl
  · obtain ⟨expectedText, _, hx⟩ := bind_eq_ok.mp hx
    obtain ⟨actualText, _, hx⟩ := bind_eq_ok.mp hx
    cases hx
    right
    exact error_kind ht

theorem layer?_has {layer : CastLayer} (ht : c.types.Layered) (hr : c.operators.OnBuiltins)
    (hl : c.layer? span type expected = some layer) : c.types.Has expected := by
  obtain ⟨operator, -, hlookup⟩ := layer?_eq_some hl
  obtain ⟨source, _, hlookup⟩ := bind_eq_ok.mp hlookup
  obtain ⟨target, htarget, hlookup⟩ := bind_eq_ok.mp hlookup
  obtain ⟨hmem, -, rfl⟩ := Registry.usable_spec (Except.ok.inj hlookup)
  exact TypeTable.has_of_canonical ht htarget (hr operator hmem).2

theorem layer?_accepted {layer : CastLayer} (ht : c.types.Layered) (hr : c.operators.OnBuiltins)
    (hA : c.types.unfold type = .ok A) (hE : c.types.unfold expected = .ok E)
    (hl : c.layer? span type expected = some layer) :
    A.accepted (c.operators.usable .implicitCast (A.canonical type)
      (E.canonical expected)).isSome E = true := by
  obtain ⟨operator, -, hlookup⟩ := layer?_eq_some hl
  rw [TypeTable.lookup_eq ht c.operators .implicitCast hA hE] at hlookup
  have husable := Except.ok.inj hlookup
  have hcon : E.isConstrained = false := by
    rw [Bool.eq_false_iff]
    intro hcon
    have hnot := TypeTable.canonical_not_builtin ht hE (Tree.builtin?_of_isConstrained hcon)
    cases husable.symm.trans (Registry.usable_eq_none hr .implicitCast (.inr hnot))
  simp [Tree.accepted, Tree.castsImplicitly, husable, hcon]

theorem layer?_of_fault {fault : Fault} (ht : c.types.Layered) (hr : c.operators.OnBuiltins)
    (ha : c.types.Has type) (hx : c.checkType span type expected code = .error fault) :
    c.layer? span type expected = none := by
  rw [Option.eq_none_iff_forall_ne_some]
  intro layer hl
  obtain ⟨A, hA⟩ := TypeTable.layered_unfold ht ha
  obtain ⟨E, hE⟩ := TypeTable.layered_unfold ht (layer?_has ht hr hl)
  rw [checkType_eq ht hA hE, layer?_accepted ht hr hA hE hl] at hx
  split at hx
  · cases hx
  · cases hx

theorem checkOnce_step (ht : c.types.Layered) (hr : c.operators.OnBuiltins)
    (he : c.types.Has e.type) (call : Handle × Code) :
    CheckStep c e call (c.checkOnce e call) := by
  cases hx : c.checkType e.span e.type call.1 call.2 with
  | error fault =>
    have hsame : c.checkOnce e call = e := by simp [checkOnce, checkExpression, hx]
    rw [hsame]
    exact .fault (by simp [rejects, hx]) (layer?_of_fault ht hr he hx)
  | ok x =>
    by_cases hk : c.types.kind x.value = .ok (.basic .error)
    · have hstep : c.checkOnce e call = { e with type := x.value } := by
        simp [checkOnce, checkExpression, hx, hk]
      rw [hstep]
      exact .reject (by simp [rejects, hx, hk]) hk
    · have hvalue := (checkType_value ht he hx).resolve_right hk
      obtain ⟨A, hA⟩ := TypeTable.layered_unfold ht he
      obtain ⟨E, hE⟩ := TypeTable.layered_unfold ht (has_of_checkType he hx)
      have hlookup := TypeTable.lookup_eq ht c.operators .implicitCast hA hE
      have hstep : c.checkOnce e call =
          { e with casts := (c.layer? e.span e.type call.1).toList ++ e.casts } := by
        have hne : A ≠ .basic .error := by
          rintro rfl
          exact hk (hvalue ▸ TypeTable.kind_eq hA)
        cases hop : c.operators.usable .implicitCast (A.canonical e.type) (E.canonical call.1) with
        | none =>
          simp [checkOnce, checkExpression, hx, hvalue, TypeTable.kind_eq hA, attachCast, layer?,
            hlookup, hop]
        | some operator =>
          simp [checkOnce, checkExpression, hx, hvalue, TypeTable.kind_eq hA, hne, attachCast, layer?,
            hlookup, hop, Expression.wrap]
      rw [hstep]
      exact .accept (by simp [rejects, hx, hk]) (hvalue ▸ hk)

theorem layers_cons (call : Handle × Code) (calls : List (Handle × Code)) :
    c.layers span type (call :: calls) = if c.rejects span type call then []
      else (c.layer? span type call.1).toList ++ c.layers span type calls := by
  cases hrej : c.rejects span type call with
  | true => simp [layers, hrej]
  | false => cases hl : c.layer? span type call.1 <;> simp [layers, hrej, hl]

theorem rejected_keeps_casts (ht : c.types.Layered) (hr : c.operators.OnBuiltins)
    (he : c.types.kind e.type = .ok (.basic .error)) (calls : List (Handle × Code)) :
    (c.checkRepeatedly e calls).casts = e.casts := by
  induction calls generalizing e with
  | nil => rfl
  | cons call calls ih =>
    have hstep := checkOnce_step ht hr (TypeTable.has_of_kind he) call
    have hrun : c.checkRepeatedly e (call :: calls) =
        c.checkRepeatedly (c.checkOnce e call) calls := rfl
    rw [hrun]
    generalize c.checkOnce e call = e' at hstep ⊢
    cases hstep with
    | fault => exact ih he
    | reject _ hk => exact ih hk
    | accept _ hk => exact absurd he hk

/-- Repeated checks put on the layers out of the type that the expression had at first. -/
theorem checkRepeatedly_casts (ht : c.types.Layered) (hr : c.operators.OnBuiltins)
    (he : c.types.Has e.type) (calls : List (Handle × Code)) :
    (c.checkRepeatedly e calls).casts = (c.layers e.span e.type calls).reverse ++ e.casts := by
  induction calls generalizing e with
  | nil => rfl
  | cons call calls ih =>
    have hstep := checkOnce_step ht hr he call
    have hrun : c.checkRepeatedly e (call :: calls) =
        c.checkRepeatedly (c.checkOnce e call) calls := rfl
    rw [hrun]
    generalize c.checkOnce e call = e' at hstep ⊢
    cases hstep with
    | fault hnot hnone => rw [ih he, layers_cons, hnot, hnone]; rfl
    | reject hrej hk => rw [rejected_keeps_casts ht hr hk, layers_cons, hrej]; rfl
    | accept hnot _ =>
      have hih := ih (e := { e with casts := (c.layer? e.span e.type call.1).toList ++ e.casts }) he
      rw [hih, layers_cons, hnot]
      cases c.layer? e.span e.type call.1 with
      | none => rfl
      | some layer => simp

end Checker

structure FromBare (t : TypeTable) (type : Handle) (layer : CastLayer) : Prop where
  source : t.canonical type = .ok layer.operator.source
  target : t.canonical layer.target = .ok layer.operator.target
  proper : layer.operator.source ≠ layer.operator.target

theorem layers_fromBare {c : Checker} {span : Span} {type : Handle}
    (hproper : ∀ o ∈ c.operators.operators, o.source ≠ o.target)
    {calls : List (Handle × Code)} {layer : CastLayer} (hl : layer ∈ c.layers span type calls) :
    FromBare c.types type layer := by
  obtain ⟨call, _, hl⟩ := List.mem_filterMap.mp hl
  obtain ⟨operator, rfl, hlookup⟩ := Checker.layer?_eq_some hl
  obtain ⟨source, hsource, hlookup⟩ := bind_eq_ok.mp hlookup
  obtain ⟨target, htarget, hlookup⟩ := bind_eq_ok.mp hlookup
  obtain ⟨hmem, rfl, rfl⟩ := Registry.usable_spec (Except.ok.inj hlookup)
  exact ⟨hsource, htarget, hproper operator hmem⟩

/-- One layer fits; on any layer, another one that starts from the bare expression does not. -/
theorem chainTyped_iff {t : TypeTable} {bare : Expression} {casts : List CastLayer}
    (hall : ∀ layer ∈ casts, FromBare t bare.type layer) :
    ChainTyped t bare casts ↔ casts.length ≤ 1 := by
  match casts with
  | [] => simp [ChainTyped]
  | [layer] =>
    have hsource := (hall layer List.mem_cons_self).source
    simpa [ChainTyped, Expression.effectiveType] using hsource
  | outer :: inner :: rest =>
    have houter := (hall outer List.mem_cons_self).source
    have hinner := hall inner (List.mem_cons_of_mem _ List.mem_cons_self)
    -- Both operators start from the bare type, so the inner one would have to lead back to it.
    have hnot : ¬ChainTyped t bare (outer :: inner :: rest) := by
      rintro ⟨hfits, -⟩
      have hsame := Except.ok.inj (hinner.source.symm.trans houter)
      have htarget := Except.ok.inj (hinner.target.symm.trans hfits)
      exact hinner.proper (hsame.trans htarget.symm)
    simp [hnot]

/-- With the built-in operators, a chain is well typed exactly if no more than one of the checks
found a cast. All of its layers go out of the type of the bare expression. -/
theorem repeated_checks_chain_typed_iff {t : TypeTable} {type : Handle} (ht : t.Reachable)
    (htype : t.Has type) (names : Pool) (policy : CheckPolicy) (span : Span)
    (calls : List (Handle × Code)) :
    let c : Checker := ⟨t, Registry.builtin, names, policy⟩
    let bare : Expression := ⟨span, type, []⟩
    let e := c.checkRepeatedly bare calls
    e.casts = (c.layers span type calls).reverse ∧
      (∀ layer ∈ e.casts, t.canonical type = .ok layer.operator.source ∧
        t.canonical layer.target = .ok layer.operator.target) ∧
      (ChainTyped t bare e.casts ↔ (c.layers span type calls).length ≤ 1) ∧
      (e.casts ≠ [] → e.effectiveType = { bare with casts := e.casts }.effectiveType) := by
  intro c bare e
  have hl := TypeTable.reachable_layered ht
  have hr : c.operators.OnBuiltins := Registry.builtin_onBuiltins
  have hproper : ∀ o ∈ Registry.builtin.operators, o.source ≠ o.target := by decide
  have hcasts : e.casts = (c.layers span type calls).reverse := by
    rw [Checker.checkRepeatedly_casts hl hr htype calls]
    exact List.append_nil _
  have hall : ∀ layer ∈ e.casts, FromBare t bare.type layer := by
    intro layer hmem
    rw [hcasts, List.mem_reverse] at hmem
    exact layers_fromBare (c := c) hproper hmem
  refine ⟨hcasts, ?_, ?_, ?_⟩
  · intro layer hmem
    exact ⟨(hall layer hmem).source, (hall layer hmem).target⟩
  · rw [chainTyped_iff hall, hcasts, List.length_reverse]
  · intro hne
    obtain ⟨outermost, inner, hlist⟩ := List.exists_cons_of_ne_nil hne
    simp [Expression.effectiveType, hlist]

def basicChecker : Checker := ⟨.initial, .builtin, .initial, {}⟩

theorem int_to_float_chain_typed :
    ChainTyped .initial ⟨⟨0, 1⟩, ⟨0⟩, []⟩
      (basicChecker.checkRepeatedly ⟨⟨0, 1⟩, ⟨0⟩, []⟩ [(⟨1⟩, .e2001)]).casts := by
  have hiff := repeated_checks_chain_typed_iff .refl (by decide : TypeTable.initial.Has ⟨0⟩)
    .initial {} ⟨0, 1⟩ [(⟨1⟩, .e2001)]
  exact hiff.2.2.1.mpr (by decide +kernel)

/-- An `int` that is checked against `float`, then against `json`: the second layer takes an
`int`, but the first has made it a `float`. -/
theorem int_to_float_to_json_ill_typed :
    let e := basicChecker.checkRepeatedly ⟨⟨0, 1⟩, ⟨0⟩, []⟩ [(⟨1⟩, .e2001), (⟨8⟩, .e2001)]
    e.casts.map (fun layer => (layer.operator.source, layer.target)) =
        [(⟨0⟩, ⟨8⟩), (⟨0⟩, ⟨1⟩)] ∧
      ¬ChainTyped .initial ⟨⟨0, 1⟩, ⟨0⟩, []⟩ e.casts := by
  decide +kernel

end TypeConformance
