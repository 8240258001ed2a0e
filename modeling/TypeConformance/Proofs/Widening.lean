import TypeConformance.Proofs.Assignability
import TypeConformance.Proofs.CastChain

/-! # Implicit casts only widen

With the built-in operators, an implicit cast takes a value into `float`, `json` or `any` by a
registered operator, or leaves a reference as it is. So it could be written as a safe cast, and an
accepted expression without a cast around it needs none.
-/
namespace TypeConformance

namespace Tree

variable {A E T : Tree} {b : Basic} {fieldsMatch : Bool}

theorem kind_ne_array (h : ∀ X, T = array X → False) : T.kind ≠ .array := by
  intro hk
  cases T with
  | array X => exact h X rfl
  | _ => cases hk

theorem arrayCast_of_arrayCastsImplicitly (h : A.arrayCastsImplicitly E = true) :
    E.arrayCast A = some .kept := by
  fun_induction arrayCastsImplicitly A E with
  | case1 a e ih => exact ih h
  | case2 a e =>
    obtain rfl : e = basic .any := of_decide_eq_true h
    rfl
  | case3 => cases h
  | case4 a e _ ha he =>
    rw [arrayCast_base (kind_ne_array he) (kind_ne_array ha), if_pos]
    simpa using h

theorem castRule_of_castsImplicitly (h : A.castsImplicitly false E = true)
    (hbox : E = basic .any → A.kind.isValue = false) :
    A.castRule fieldsMatch E = .graded (some .kept) := by
  by_cases hAE : A = E
  · simp [castRule, hAE]
  simp only [castsImplicitly, Bool.and_eq_true, Bool.or_eq_true, decide_eq_true_eq] at h
  rcases h.2 with (hfalse | hany) | ⟨⟨-, hE⟩, harray⟩
  · cases hfalse
  · subst hany
    simp [castRule, hAE, hbox rfl]
  · cases E with
    | array X => simp [castRule, hAE, arrayCast_of_arrayCastsImplicitly harray]
    | _ => cases hE

/-- What a built-in implicit operator connects: a kind of values with a wider type. -/
structure Wider (b : Basic) (E : Tree) : Prop where
  value : b.isValue = true
  proper : basic b ≠ E
  target : E = basic .float ∨ E = plainJson ∨ E = basic .any

theorem Wider.castRule (h : Wider b E) : (basic b).castRule fieldsMatch E = .registered := by
  have hproper := h.proper
  rcases h.target with rfl | rfl | rfl
  · simp [Tree.castRule, hproper]
  · simp [Tree.castRule, plainJson, isConstrained]
  · simp [Tree.castRule, hproper, Kind.isValue, h.value]

end Tree

namespace Registry

theorem builtin_implicitCasts : ∀ o ∈ builtin.operators, o.kind = .implicitCast →
    o.safe = true ∧ builtin.find? .cast o.source o.target = none ∧
    ∃ b ∈ Basic.all, o.source = b.handle ∧
      ∃ E ∈ [Tree.basic .float, .plainJson, .basic .any], E.builtin? = some o.target ∧
        b.isValue = true ∧ Tree.basic b ≠ E := by
  decide +kernel

theorem builtin_boxes : ∀ b ∈ Basic.all, b.isValue = true →
    (builtin.usable .implicitCast b.handle Basic.any.handle).isSome = true := by
  decide +kernel

end Registry

namespace TypeTable

variable {t : TypeTable} {a e h : Handle} {A E T : Tree} {o : Operator}

theorem eq_of_canonical {K : Tree} {k : Handle} (ht : Layered t) (hT : t.unfold h = .ok T)
    (hk : T.canonical h = k) (hK : K.builtin? = some k) : T = K := by
  have hcanonical := unfold_canonical ht hT
  rw [hk, unfold_builtin ht hK] at hcanonical
  exact (Except.ok.inj hcanonical).symm

theorem implicitCast_wider (ht : Layered t) (ha : t.unfold a = .ok A) (he : t.unfold e = .ok E)
    (ho : Registry.builtin.usable .implicitCast (A.canonical a) (E.canonical e) = some o) :
    o.safe = true ∧ Registry.builtin.usable .cast (A.canonical a) (E.canonical e) = some o ∧
      ∃ b, A = .basic b ∧ Tree.Wider b E := by
  obtain ⟨hfind, husable⟩ := Option.filter_eq_some_iff.mp ho
  obtain ⟨hmem, hkind, hsource, htarget⟩ := Registry.find?_spec hfind
  obtain ⟨hsafe, hcast, b, -, hb, K, hK, hKt, hvalue, hproper⟩ :=
    Registry.builtin_implicitCasts o hmem hkind
  rw [hsource, htarget] at hcast
  obtain rfl := eq_of_canonical (K := .basic b) ht ha (hsource.symm.trans hb) rfl
  obtain rfl := eq_of_canonical ht he htarget.symm hKt
  refine ⟨hsafe, ?_, b, rfl, hvalue, hproper, by simpa using hK⟩
  refine Option.filter_eq_some_iff.mpr ⟨?_, husable⟩
  simpa [Registry.resolve, hcast] using hfind

/-- What is cast implicitly can be cast explicitly: by the same operator, or else by leaving the
value as it is. -/
theorem castOperator_of_castsImplicitly (ht : Layered t) (hc : Closed t) (names : Pool)
    (ha : t.unfold a = .ok A) (he : t.unfold e = .ok E) {found : Option Operator}
    (hfound : Registry.builtin.usable .implicitCast (A.canonical a) (E.canonical e) = found)
    (h : A.castsImplicitly found.isSome E = true) :
    t.castOperator .builtin names a e = .ok (some (found.getD (.keep a e))) := by
  obtain ⟨m, hm⟩ := structsMatch_answers ht hc ha he
  rw [castOperator_eq ht names ha he hm]
  cases found with
  | some o =>
    obtain ⟨-, hcast, b, rfl, hwider⟩ := implicitCast_wider ht ha he hfound
    simp only [hwider.castRule]
    rw [lookup_eq ht _ _ ha he, hcast]
    rfl
  | none =>
    have hbox : E = .basic .any → A.kind.isValue = false := by
      rintro rfl
      rw [Bool.eq_false_iff]
      intro hvalue
      cases A with
      | basic b =>
        have hall : b ∈ Basic.all := by cases b <;> decide
        have hboxed := Registry.builtin_boxes b hall hvalue
        rw [show Registry.builtin.usable .implicitCast b.handle Basic.any.handle = none from hfound]
          at hboxed
        cases hboxed
      | _ => cases hvalue
    simp only [Tree.castRule_of_castsImplicitly h hbox]
    rfl

/-- With the built-in operators, the cast that could be put in silently can also be asked for.
It is found and it is safe. -/
theorem implicit_casts_are_safe_casts (ht : Reachable t) (ha : t.Has a) (he : t.Has e)
    (h : t.castsImplicitly .builtin a e = .ok true) (names : Pool) :
    ∃ o, t.castOperator .builtin names a e = .ok (some o) ∧ o.isUsable = true ∧ o.safe = true := by
  have hl := reachable_layered ht
  obtain ⟨A, hA⟩ := layered_unfold hl ha
  obtain ⟨E, hE⟩ := layered_unfold hl he
  rw [castsImplicitly_eq hl _ hA hE, Except.ok.injEq] at h
  refine ⟨_, castOperator_of_castsImplicitly hl (reachable_closed ht) names hA hE rfl h, ?_⟩
  cases hfound : Registry.builtin.usable .implicitCast (A.canonical a) (E.canonical e) with
  | some o =>
    exact ⟨(Option.filter_eq_some_iff.mp hfound).2, (implicitCast_wider hl hA hE hfound).1⟩
  | none => exact ⟨by simp [Operator.isUsable, Operator.keep, not_invalid_of_has hl ha], rfl⟩

theorem jsonCopies_int_cast_safe :
    ∃ o, jsonCopies.castOperator .builtin .initial ⟨0⟩ ⟨14⟩ = .ok (some o) ∧
      o.isUsable = true ∧ o.safe = true := by
  have hhas : jsonCopies.Has ⟨0⟩ ∧ jsonCopies.Has ⟨14⟩ := by decide
  exact implicit_casts_are_safe_casts (reachable_grow .refl _) hhas.1 hhas.2 (by decide +kernel) _

end TypeTable

namespace Checker

variable {c : Checker} {span : Span} {code : Code} {actual expected : Handle} {A E : Tree}

end Checker

end TypeConformance
