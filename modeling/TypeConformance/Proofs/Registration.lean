import TypeConformance.Proofs.JsonUses

/-! # More operators accept more

A registry that has an operator wherever another one has answers every question at least as
favourably. This holds of what is registered later, also where it replaces something. It does not
matter that structs are then visited in another order: their checks have a greatest solution, and
that grows with what a field may be.
-/
namespace TypeConformance

def Found (x : Except Fault (Option Operator)) : Prop :=
  ∃ o, x = .ok (some o) ∧ o.isUsable = true

namespace Registry

/-- Wherever the first registry has a usable operator, so has the second. -/
def ContainedIn (r r' : Registry) : Prop :=
  ∀ kind source target, (r.usable kind source target).isSome = true →
    (r'.usable kind source target).isSome = true

variable {r : Registry} {kind : OperatorKind} {source target : Handle}

/-- An operator is filed under its own source, so the source decides whether it can be used. -/
theorem usable_isSome_iff : (r.usable kind source target).isSome = true ↔
    (r.resolve kind source target).isSome = true ∧ source.isInvalid = false := by
  cases ho : r.resolve kind source target with
  | none => simp [usable, ho]
  | some o =>
    obtain ⟨-, rfl, -⟩ := resolve_spec ho
    simp [usable, ho, Option.isSome_filter, Operator.isUsable]

theorem found_usable : Found (.ok (r.usable kind source target)) ↔
    (r.usable kind source target).isSome = true := by
  constructor
  · rintro ⟨o, ho, -⟩
    rw [Except.ok.inj ho]
    rfl
  · intro h
    obtain ⟨o, ho⟩ := Option.isSome_iff_exists.mp h
    exact ⟨o, by rw [ho], (Option.filter_eq_some_iff.mp ho).2⟩

theorem find?_register_isSome (o : Operator) (h : (r.find? kind source target).isSome = true) :
    ((r.register o).find? kind source target).isSome = true := by
  rw [find?_register]
  split
  · rfl
  · exact h

theorem contained_register (r : Registry) (o : Operator) : r.ContainedIn (r.register o) := by
  intro kind source target h
  obtain ⟨hresolve, hvalid⟩ := usable_isSome_iff.mp h
  refine usable_isSome_iff.mpr ⟨?_, hvalid⟩
  cases kind with
  | cast =>
    simp only [resolve, Option.isSome_or, Bool.or_eq_true] at hresolve ⊢
    exact hresolve.imp (find?_register_isSome o) (find?_register_isSome o)
  | implicitCast => exact find?_register_isSome o hresolve
  | conversion => exact find?_register_isSome o hresolve

end Registry

namespace Tree

variable {A E : Tree} {registered registered' : Bool}

theorem castsImplicitly_mono (hle : registered = true → registered' = true)
    (h : A.castsImplicitly registered E = true) : A.castsImplicitly registered' E = true := by
  cases registered with
  | true => rwa [hle rfl]
  | false =>
    simp only [castsImplicitly, Bool.and_eq_true, Bool.or_eq_true, Bool.false_eq_true,
      false_or] at h ⊢
    exact ⟨h.1, h.2.imp_left .inr⟩

theorem accepted_mono (hle : registered = true → registered' = true)
    (h : A.accepted registered E = true) : A.accepted registered' E = true := by
  simp only [accepted, Bool.or_eq_true] at h ⊢
  exact h.imp_right (castsImplicitly_mono hle)

theorem conversionRule_mono (S T : Tree) {convertible convertible' : Bool}
    (hle : convertible = true → convertible' = true) :
    S.conversionRule convertible T = S.conversionRule convertible' T ∨
      S.conversionRule convertible T = .none := by
  cases convertible with
  | true => exact .inl (by rw [hle rfl])
  | false =>
    by_cases hST : S = T
    · exact .inr (by simp [conversionRule, hST])
    cases T with
    | json C =>
      by_cases hstruct : S.kind = .nominal .struct
      · exact .inr (by simp [conversionRule, hST, hstruct])
      · exact .inl (by simp [conversionRule, hST, hstruct])
    | basic b => cases b <;> exact .inl rfl
    | nominal n d => cases n <;> exact .inl rfl
    | array X => exact .inl rfl
    | function ps rs => exact .inl rfl

end Tree

namespace TypeTable

/-- Whatever the first registry accepts for the two types, the second accepts too. -/
structure AcceptsMore (t : TypeTable) (r r' : Registry) (a b : Handle) : Prop where
  castsImplicitly : t.castsImplicitly r a b = .ok true → t.castsImplicitly r' a b = .ok true
  isJsonCompatible : t.isJsonCompatible r a = .ok true → t.isJsonCompatible r' a = .ok true
  isJsonConvertible : t.isJsonConvertible r a = .ok true → t.isJsonConvertible r' a = .ok true
  castOperator : ∀ names,
    Found (t.castOperator r names a b) → Found (t.castOperator r' names a b)
  conversionOperator : Found (t.conversionOperator r a b) → Found (t.conversionOperator r' a b)
  checkType : ∀ names policy span code x,
    Checker.checkType ⟨t, r, names, policy⟩ span a b code = .ok x → x.reports = [] →
      Checker.checkType ⟨t, r', names, policy⟩ span a b code = .ok x

variable {t : TypeTable} {r r' : Registry} {use : JsonUse} {a b h owner field : Handle}
  {A B : Tree}

theorem castsImplicitly_mono (ht : Layered t) (hr : r.ContainedIn r') (hA : t.unfold a = .ok A)
    (hB : t.unfold b = .ok B) (h : t.castsImplicitly r a b = .ok true) :
    t.castsImplicitly r' a b = .ok true := by
  rw [castsImplicitly_eq ht _ hA hB, Except.ok.injEq] at h ⊢
  exact Tree.castsImplicitly_mono (hr _ _ _) h

theorem goesIntoJson_mono (ht : Layered t) (hr : r.ContainedIn r') (hh : t.Has h)
    (hjson : t.GoesIntoJson r h) : t.GoesIntoJson r' h := by
  obtain ⟨T, hT⟩ := layered_unfold ht hh
  exact hjson.imp_right (castsImplicitly_mono ht hr hT (unfold_json ht))

theorem fieldHolds_mono {good : Handle → Prop} (ht : Layered t) (hr : r.ContainedIn r')
    (hf : t.FieldHolds r use good owner field) : t.FieldHolds r' use good owner field := by
  induction hf with
  | same h => exact .same h
  | value h => exact .value h
  | tested huse h => exact .tested huse h
  | struct hk h => exact .struct hk h
  | whole huse hk h => exact .whole huse hk (goesIntoJson_mono ht hr (has_of_kind hk) h)
  | elements hk he _ ih => exact .elements hk he ih
  | json hk hs ha h => exact .json hk hs ha (goesIntoJson_mono ht hr (has_of_kind hk) h)

/-- One unfolding of the check grows with the registry, and its greatest solution with it. -/
theorem sane_mono (ht : Layered t) (hc : Closed t) (hr : r.ContainedIn r')
    (hs : t.Sane r use h) : t.Sane r' use h := by
  have hle : t.unguarded r use ≤ t.unguarded r' use := by
    rintro good s ⟨hk, fields, hfields, hall⟩
    exact ⟨hk, fields, hfields, fun f hf => fieldHolds_mono ht hr (hall f hf)⟩
  rw [sane_iff_gfp ht hc] at hs ⊢
  exact OrderHom.gfp.mono hle h hs

theorem fitsUse_mono (ht : Layered t) (hc : Closed t) (hr : r.ContainedIn r')
    (hs : t.fitsUse r use h = .ok true) : t.fitsUse r' use h = .ok true := by
  rw [fitsUse_iff_sane ht hc] at hs ⊢
  exact sane_mono ht hc hr hs

theorem found_lookup_mono (ht : Layered t) (hr : r.ContainedIn r') (kind : OperatorKind)
    (hA : t.unfold a = .ok A) (hB : t.unfold b = .ok B) (h : Found (r.lookup t kind a b)) :
    Found (r'.lookup t kind a b) := by
  rw [lookup_eq ht _ kind hA hB, Registry.found_usable] at h ⊢
  exact hr _ _ _ h

theorem found_castOperator_mono (ht : Layered t) (hc : Closed t) (hr : r.ContainedIn r')
    (names : Pool) (hA : t.unfold a = .ok A) (hB : t.unfold b = .ok B)
    (h : Found (t.castOperator r names a b)) : Found (t.castOperator r' names a b) := by
  obtain ⟨m, hm⟩ := structsMatch_answers ht hc hA hB
  rw [castOperator_eq ht names hA hB hm] at h ⊢
  cases hrule : A.castRule m B with
  | registered =>
    rw [hrule] at h
    exact found_lookup_mono ht hr .cast hA hB h
  | graded grade => rwa [hrule] at h
  | impossible => rwa [hrule] at h

theorem found_conversionOperator_mono (ht : Layered t) (hc : Closed t) (hr : r.ContainedIn r')
    (hA : t.unfold a = .ok A) (hB : t.unfold b = .ok B)
    (h : Found (t.conversionOperator r a b)) : Found (t.conversionOperator r' a b) := by
  obtain ⟨convertible, hconv, hsane⟩ := isJsonConvertible_decides ht hc r hA
  obtain ⟨convertible', hconv', hsane'⟩ := isJsonConvertible_decides ht hc r' hA
  have hle : convertible = true → convertible' = true :=
    fun h => hsane'.mpr (sane_mono ht hc hr (hsane.mp h))
  rw [conversionOperator_eq hA hB hconv] at h
  rw [conversionOperator_eq hA hB hconv']
  rcases A.conversionRule_mono B hle with hsame | hnone
  · rw [hsame] at h
    cases hrule : A.conversionRule convertible' B with
    | registered =>
      rw [hrule] at h
      exact found_lookup_mono ht hr .conversion hA hB h
    | none => rwa [hrule] at h
    | converting opcode => rwa [hrule] at h
  · rw [hnone] at h
    obtain ⟨o, ho, -⟩ := h
    cases ho

theorem checkType_mono {names : Pool} {policy : CheckPolicy} {span : Span} {code : Code}
    {x : Reported Handle} (ht : Layered t) (hr : r.ContainedIn r') (hA : t.unfold a = .ok A)
    (hB : t.unfold b = .ok B)
    (hx : Checker.checkType ⟨t, r, names, policy⟩ span a b code = .ok x)
    (hsilent : x.reports = []) :
    Checker.checkType ⟨t, r', names, policy⟩ span a b code = .ok x := by
  rw [Checker.checkType_eq (c := ⟨t, r, names, policy⟩) ht hA hB] at hx
  rw [Checker.checkType_eq (c := ⟨t, r', names, policy⟩) ht hA hB]
  by_cases herror : B = .basic .error
  · rwa [if_pos herror] at hx ⊢
  rw [if_neg herror] at hx ⊢
  split at hx
  · rename_i haccepted
    rw [if_pos (Tree.accepted_mono (hr _ _ _) haccepted)]
    exact hx
  · obtain ⟨expectedText, -, hx⟩ := bind_eq_ok.mp hx
    obtain ⟨actualText, -, hx⟩ := bind_eq_ok.mp hx
    cases hx
    cases hsilent

theorem acceptsMore_of_contained (ht : Layered t) (hc : Closed t) (hr : r.ContainedIn r')
    (hA : t.unfold a = .ok A) (hB : t.unfold b = .ok B) : t.AcceptsMore r r' a b where
  castsImplicitly := castsImplicitly_mono ht hr hA hB
  isJsonCompatible := fitsUse_mono ht hc hr
  isJsonConvertible := fitsUse_mono ht hc hr
  castOperator := fun names => found_castOperator_mono ht hc hr names hA hB
  conversionOperator := found_conversionOperator_mono ht hc hr hA hB
  checkType := fun _ _ _ _ _ => checkType_mono ht hr hA hB

/-- Registering an operator takes nothing back, whichever types it is for and also if it replaces
another one. -/
theorem registering_accepts_more (ht : Reachable t) (ha : t.Has a) (hb : t.Has b) (r : Registry)
    (o : Operator) : t.AcceptsMore r (r.register o) a b := by
  have hl := reachable_layered ht
  obtain ⟨A, hA⟩ := layered_unfold hl ha
  obtain ⟨B, hB⟩ := layered_unfold hl hb
  exact acceptsMore_of_contained hl (reachable_closed ht) (r.contained_register o) hA hB

def riskyJsonCast : Operator := ⟨.implicitCast, Basic.int.handle, Handle.json, false, .custom 7⟩

theorem riskyJsonCast_replaces_builtin :
    mutualStructs.castsImplicitly (Registry.builtin.register riskyJsonCast) Basic.int.handle
      Handle.json = .ok true ∧
    Found (mutualStructs.conversionOperator (Registry.builtin.register riskyJsonCast) ⟨14⟩
      Handle.json) ∧
    (Registry.builtin.register riskyJsonCast).lookup mutualStructs .implicitCast Basic.int.handle
      Handle.json = .ok (some riskyJsonCast) := by
  have ht : Reachable mutualStructs := reachable_grow .refl _
  have hhas : mutualStructs.Has Basic.int.handle ∧ mutualStructs.Has Handle.json ∧
      mutualStructs.Has ⟨14⟩ := by
    decide +kernel
  have hcast := registering_accepts_more ht hhas.1 hhas.2.1 .builtin riskyJsonCast
  have hconversion := registering_accepts_more ht hhas.2.2 hhas.2.1 .builtin riskyJsonCast
  have hfound : mutualStructs.conversionOperator .builtin ⟨14⟩ Handle.json =
      .ok (some (.converting ⟨14⟩ Handle.json .structToJson)) := by
    decide +kernel
  refine ⟨hcast.castsImplicitly (by decide +kernel), ?_, by decide +kernel⟩
  exact hconversion.conversionOperator ⟨_, hfound, rfl⟩

end TypeTable

end TypeConformance
