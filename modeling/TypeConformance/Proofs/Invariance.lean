import TypeConformance.Proofs.Casting

/-! # Decisions depend on identity only

Copies of a type have handles of their own. No question tells a type from its copy, as long as
operators are registered between built-in types: other operators are found by handle.
-/
namespace TypeConformance

/-- What an operator does, whatever handles it names. -/
def Operator.effect (o : Operator) : OperatorKind × Bool × Opcode := (o.kind, o.safe, o.opcode)

namespace Registry

def OnBuiltins (r : Registry) : Prop :=
  ∀ o ∈ r.operators, o.source.isBuiltin = true ∧ o.target.isBuiltin = true
instance (r : Registry) : Decidable r.OnBuiltins :=
  inferInstanceAs
    (Decidable (∀ o ∈ r.operators, o.source.isBuiltin = true ∧ o.target.isBuiltin = true))

theorem builtin_onBuiltins : builtin.OnBuiltins := by decide

theorem usable_eq_none {r : Registry} (hr : r.OnBuiltins) (kind : OperatorKind)
    {source target : Handle} (hnot : source.isBuiltin = false ∨ target.isBuiltin = false) :
    r.usable kind source target = none := by
  rw [Option.eq_none_iff_forall_ne_some]
  intro o ho
  obtain ⟨hmem, rfl, rfl⟩ := usable_spec ho
  obtain ⟨hs, ht⟩ := hr o hmem
  simp [hs, ht] at hnot

end Registry

namespace TypeTable

variable {t : TypeTable} {r : Registry} {a a' b b' h : Handle} {A B T : Tree}

theorem canonical_not_builtin (ht : Layered t) (hT : t.unfold h = .ok T)
    (hnone : T.builtin? = none) : (T.canonical h).isBuiltin = false := by
  rw [Tree.canonical, hnone, Option.getD_none, Bool.eq_false_iff]
  intro hb
  cases hnone.symm.trans (builtin?_of_isBuiltin ht hT hb)

/-- A type is looked up under the handle of a built-in type, which all its copies share, or
else under a handle that no operator goes with. -/
theorem canonical_congr (ht : Layered t) (ha : t.unfold a = .ok A) (ha' : t.unfold a' = .ok A) :
    A.canonical a = A.canonical a' ∨
      (A.canonical a).isBuiltin = false ∧ (A.canonical a').isBuiltin = false := by
  cases hk : A.builtin? with
  | some k => exact .inl (by simp [Tree.canonical, hk])
  | none => exact .inr ⟨canonical_not_builtin ht ha hk, canonical_not_builtin ht ha' hk⟩

theorem usable_congr (ht : Layered t) (hr : r.OnBuiltins) (kind : OperatorKind)
    (ha : t.unfold a = .ok A) (ha' : t.unfold a' = .ok A) (hb : t.unfold b = .ok B)
    (hb' : t.unfold b' = .ok B) :
    r.usable kind (A.canonical a) (B.canonical b) =
      r.usable kind (A.canonical a') (B.canonical b') := by
  rcases canonical_congr ht ha ha' with hA | ⟨hA, hA'⟩
  · rcases canonical_congr ht hb hb' with hB | ⟨hB, hB'⟩
    · rw [hA, hB]
    · rw [Registry.usable_eq_none hr kind (.inr hB), Registry.usable_eq_none hr kind (.inr hB')]
  · rw [Registry.usable_eq_none hr kind (.inl hA), Registry.usable_eq_none hr kind (.inl hA')]

theorem mapM_congr {α β : Type} {f : α → Except Fault β} {R : α → Tree → Prop} {xs ys : List α}
    {Ts : List Tree} (hx : List.Forall₂ R xs Ts) (hy : List.Forall₂ R ys Ts)
    (hf : ∀ x y T, R x T → R y T → f x = f y) : xs.mapM f = ys.mapM f := by
  induction hx generalizing ys with
  | nil =>
    cases hy
    rfl
  | cons hxT _ ih =>
    cases hy with
    | cons hyT hrest =>
      rw [List.mapM_cons, List.mapM_cons, hf _ _ _ hxT hyT, ih hrest]

theorem renderWithin_congr (ht : Layered t) (names : Pool) (m : Nat) (ha : t.unfold a = .ok T)
    (hb : t.unfold b = .ok T) : t.renderWithin names m a = t.renderWithin names m b := by
  induction m generalizing a b T with
  | zero => rfl
  | succ m ih =>
    have hia := not_invalid_of_has ht (has_of_unfold ha)
    have hib := not_invalid_of_has ht (has_of_unfold hb)
    obtain ⟨s, hs, ho⟩ := unfold_inv ha
    obtain ⟨s', hs', ho'⟩ := unfold_inv hb
    simp only [renderWithin, hia, hib, hs, hs', bind_ok]
    cases ho with
    | basic => cases ho'; rfl
    | nominal => cases ho'; rfl
    | array he =>
      cases ho' with
      | array he' => simp only [ih he he']
    | json hc =>
      cases ho' with
      | json hc' =>
        obtain ⟨N, hN⟩ := layered_unfold ht (builtin_has (h := Basic.none.handle) ht rfl)
        simp only [identical_eq hc hN, identical_eq hc' hN, ih hc hc']
    | function hps hrs =>
      cases ho' with
      | function hps' hrs' =>
        have hih (x y : Handle) (T : Tree) (hx : t.unfold x = .ok T) (hy : t.unfold y = .ok T) :
            t.renderWithin names m x = t.renderWithin names m y := ih hx hy
        simp only [mapM_congr hps hps' hih, mapM_congr hrs hrs' hih]

theorem render_congr (ht : Layered t) (names : Pool) (ha : t.unfold a = .ok T)
    (hb : t.unfold b = .ok T) : t.render names a = t.render names b :=
  renderWithin_congr ht names _ ha hb

theorem sane_congr {use : JsonUse} (ht : Layered t) (hc : Closed t) (ha : t.unfold a = .ok A)
    (ha' : t.unfold a' = .ok A) (hsane : t.Sane r use a) : t.Sane r use a' := by
  obtain ⟨hk, hgood⟩ := hsane
  refine ⟨by rw [kind_eq ha', ← kind_eq ha, hk], fun s hreach hbad => ?_⟩
  rcases Relation.ReflTransGen.cases_head hreach with rfl | ⟨s', hlead, hreach⟩
  · exact hgood a .refl (hasBadField_congr ht hc ha' ha hbad)
  · exact hgood s (.head (leadsTo_congr ha' ha hlead) hreach) hbad

theorem fitsUse_congr (use : JsonUse) (ht : Layered t) (hc : Closed t) (ha : t.unfold a = .ok A)
    (ha' : t.unfold a' = .ok A) : SameAnswer (t.fitsUse r use a) (t.fitsUse r use a') := by
  have hd : Decides (t.fitsUse r use a) (t.Sane r use a) := fitsUse_decides ht hc (has_of_unfold ha)
  have hd' : Decides (t.fitsUse r use a') (t.Sane r use a') :=
    fitsUse_decides ht hc (has_of_unfold ha')
  have hsane : t.Sane r use a' ↔ t.Sane r use a :=
    ⟨sane_congr ht hc ha' ha, sane_congr ht hc ha ha'⟩
  exact hd.sameAnswer (hd'.congr hsane)

theorem castOperator_congr (ht : Layered t) (hc : Closed t) (hr : r.OnBuiltins) (names : Pool)
    (ha : t.unfold a = .ok A) (ha' : t.unfold a' = .ok A) (hb : t.unfold b = .ok B)
    (hb' : t.unfold b' = .ok B) :
    Agree (fun x y => x.map Operator.effect = y.map Operator.effect)
      (t.castOperator r names a b) (t.castOperator r names a' b') := by
  -- Both pairs have the same trees and the same fields, so the same rule applies to them.
  obtain ⟨m, hm⟩ := structsMatch_answers ht hc ha hb
  have hm' := (structsMatch_congr ha ha' hb hb').symm.trans hm
  rw [castOperator_eq ht names ha hb hm, castOperator_eq ht names ha' hb' hm']
  cases A.castRule m B with
  | graded grade =>
    refine .ok ?_
    cases grade with
    | none => rfl
    | some grade => cases grade <;> rfl
  | registered =>
    simp only [lookup_eq ht r .cast ha hb, lookup_eq ht r .cast ha' hb',
      usable_congr ht hr .cast ha ha' hb hb']
    apply Agree.refl
    intro x
    rfl
  | impossible =>
    simp only [render_congr ht names ha ha', render_congr ht names hb hb']
    apply Agree.refl
    intro x
    rfl

theorem conversionOperator_congr (ht : Layered t) (hc : Closed t) (hr : r.OnBuiltins)
    (ha : t.unfold a = .ok A) (ha' : t.unfold a' = .ok A) (hb : t.unfold b = .ok B)
    (hb' : t.unfold b' = .ok B) :
    ∃ x y, t.conversionOperator r a b = .ok x ∧ t.conversionOperator r a' b' = .ok y ∧
      x.map Operator.effect = y.map Operator.effect := by
  obtain ⟨convertible, hconv, hconv'⟩ := fitsUse_congr (r := r) .conversion ht hc ha ha'
  rw [conversionOperator_eq ha hb hconv, conversionOperator_eq ha' hb' hconv']
  cases A.conversionRule convertible B with
  | none => exact ⟨none, none, rfl, rfl, rfl⟩
  | converting opcode => exact ⟨_, _, rfl, rfl, rfl⟩
  | registered =>
    exact ⟨_, _, lookup_eq ht r .conversion ha hb, lookup_eq ht r .conversion ha' hb',
      by rw [usable_congr ht hr .conversion ha ha' hb hb']⟩

theorem identical_self (h : Handle) : t.identical h h = .ok true := by
  simp [identical, pairBudget, identicalWithin]

theorem checkType_congr {c : Checker} (ht : c.types.Layered) (hr : c.operators.OnBuiltins)
    (span : Span) (code : Code) (ha : c.types.unfold a = .ok A) (ha' : c.types.unfold a' = .ok A)
    (hb : c.types.unfold b = .ok B) (hb' : c.types.unfold b' = .ok B) :
    Agree (fun x y => x.reports = y.reports ∧ c.types.identical x.value y.value = .ok true)
      (c.checkType span a b code) (c.checkType span a' b' code) := by
  rw [Checker.checkType_eq ht ha hb, Checker.checkType_eq ht ha' hb',
    usable_congr ht hr .implicitCast ha ha' hb hb']
  split
  · exact .ok ⟨rfl, by simp [identical_eq hb hb']⟩
  split
  · exact .ok ⟨rfl, by simp [identical_eq ha ha']⟩
  simp only [Checker.render, render_congr ht c.names ha ha', render_congr ht c.names hb hb']
  apply Agree.refl
  intro x
  exact ⟨rfl, identical_self _⟩

/-- A question about two types has the same answer for copies of them. An operator that is found
does the same; a cast that may not be asked for fails in the same words; a mismatch is reported
with the same text. -/
theorem decisions_depend_on_identity (ht : Reachable t) (hr : r.OnBuiltins) (ha : t.Has a)
    (ha' : t.Has a') (hb : t.Has b) (hb' : t.Has b') (haa : t.identical a a' = .ok true)
    (hbb : t.identical b b' = .ok true) :
    SameAnswer (t.isAssignable a b) (t.isAssignable a' b') ∧
    SameAnswer (t.castsImplicitly r a b) (t.castsImplicitly r a' b') ∧
    SameAnswer (t.structsMatch a b) (t.structsMatch a' b') ∧
    SameAnswer (t.arraysMatch a b) (t.arraysMatch a' b') ∧
    SameAnswer (t.functionsMatch a b) (t.functionsMatch a' b') ∧
    SameAnswer (t.isJsonCompatible r a) (t.isJsonCompatible r a') ∧
    SameAnswer (t.isJsonConvertible r a) (t.isJsonConvertible r a') ∧
    (∀ names, Agree (fun x y => x.map Operator.effect = y.map Operator.effect)
      (t.castOperator r names a b) (t.castOperator r names a' b')) ∧
    (∃ x y, t.conversionOperator r a b = .ok x ∧ t.conversionOperator r a' b' = .ok y ∧
      x.map Operator.effect = y.map Operator.effect) ∧
    ∀ names policy span code,
      Agree (fun x y => x.reports = y.reports ∧ t.identical x.value y.value = .ok true)
        (Checker.checkType ⟨t, r, names, policy⟩ span a b code)
        (Checker.checkType ⟨t, r, names, policy⟩ span a' b' code) := by
  have hl := reachable_layered ht
  have hc := reachable_closed ht
  obtain ⟨A, hA⟩ := layered_unfold hl ha
  obtain ⟨B, hB⟩ := layered_unfold hl hb
  have hA' : t.unfold a' = .ok A := ((identical_iff_unfold hl ha ha').mp haa) ▸ hA
  have hB' : t.unfold b' = .ok B := ((identical_iff_unfold hl hb hb').mp hbb) ▸ hB
  refine ⟨⟨_, isAssignable_eq hA hB, isAssignable_eq hA' hB'⟩,
    ⟨_, castsImplicitly_eq hl r hA hB, ?_⟩, ?_, ⟨_, arraysMatch_eq hA hB, arraysMatch_eq hA' hB'⟩,
    (functionsMatch_decides hA hB).sameAnswer (functionsMatch_decides hA' hB'),
    fitsUse_congr .constraint hl hc hA hA', fitsUse_congr .conversion hl hc hA hA',
    fun names => castOperator_congr hl hc hr names hA hA' hB hB',
    conversionOperator_congr hl hc hr hA hA' hB hB', ?_⟩
  · rw [castsImplicitly_eq hl r hA' hB', usable_congr hl hr .implicitCast hA hA' hB hB']
  · obtain ⟨m, hm⟩ := structsMatch_answers hl hc hA hB
    exact ⟨m, hm, (structsMatch_congr hA hA' hB hB').symm.trans hm⟩
  · intro names policy span code
    exact checkType_congr (c := ⟨t, r, names, policy⟩) hl hr span code hA hA' hB hB'

theorem jsonCopies_cast_alike :
    jsonCopies.castsImplicitly Registry.builtin ⟨0⟩ ⟨14⟩ = .ok true := by
  have ht : Reachable jsonCopies := reachable_grow .refl _
  have hhas : jsonCopies.Has ⟨0⟩ ∧ jsonCopies.Has ⟨8⟩ ∧ jsonCopies.Has ⟨14⟩ := by decide
  obtain ⟨-, ⟨answer, hjson, hcopy⟩, -⟩ := decisions_depend_on_identity ht
    Registry.builtin_onBuiltins hhas.1 hhas.1 hhas.2.1 hhas.2.2 (identical_self _)
    (by decide +kernel)
  have htrue : jsonCopies.castsImplicitly Registry.builtin ⟨0⟩ ⟨8⟩ = .ok true := by decide +kernel
  rw [hcopy, ← hjson, htrue]

end TypeTable

end TypeConformance
