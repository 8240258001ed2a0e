import TypeConformance.Proofs.Totality
import TypeConformance.Proofs.Widening

/-! # Casts of arrays in closed form

Which cast there is between two types, at least one of them an array, follows from the number of
their dimensions and from their base types. The constraint of a `json` target plays no part in
it. So an array of plain `json` is cast safely into constrained `json`, where it cannot be stored
without a cast; nothing else is.
-/
namespace TypeConformance

/-- What the cast between two types with array layers depends on. -/
structure ArrayPair where
  sourceDims : Nat
  targetDims : Nat
  source : Kind
  target : Kind
  same : Bool
  plain : Bool
  deriving DecidableEq, Repr

namespace ArrayPair

def grade (p : ArrayPair) : Option CastGrade :=
  if p.sourceDims = p.targetDims then
    if p.same ∨ p.target = .basic .any ∧ p.source.isValue = false then some .kept
    else if p.source = .basic .any ∧ p.target.isValue = false then some .tested
    else none
  else if p.sourceDims < p.targetDims then
    if p.source = .basic .any ∨ p.source = .json ∧ p.target = .json then some .tested else none
  else if p.target = .basic .any then some .kept
  else if p.target = .json then
    if p.plain then some .kept else if p.source = .basic .any then some .tested else none
  else none

theorem grade_succ (p : ArrayPair) :
    { p with sourceDims := p.sourceDims + 1, targetDims := p.targetDims + 1 }.grade = p.grade := by
  simp [grade]

/-- A source with more layers than the `json` it goes into is cast like a source with one layer
less into plain `json`. -/
theorem grade_into_json (dims : Nat) (source : Kind) (same plain : Bool) :
    (⟨dims + 1, 0, source, .json, same, plain⟩ : ArrayPair).grade =
      (⟨dims, 0, source, .json, plain, plain⟩ : ArrayPair).grade := by
  cases dims with
  | zero => simp [grade, Kind.isValue]
  | succ dims => simp [grade]

end ArrayPair

namespace Tree

variable {S T : Tree} {fieldsMatch : Bool}

def arrayPair (S T : Tree) : ArrayPair :=
  ⟨S.dims, T.dims, S.base.kind, T.base.kind, S.base = T.base, S.base = plainJson⟩

theorem base_eq_self (hT : T.kind ≠ .array) : T.base = T := by
  cases T with
  | array X => exact absurd rfl hT
  | _ => rfl

theorem dims_eq_zero_iff : T.dims = 0 ↔ T.kind ≠ .array := by
  cases T <;> simp [dims]

theorem eq_array (hT : T.kind = .array) : ∃ X, T = array X := by
  cases T with
  | array X => exact ⟨X, rfl⟩
  | _ => cases hT

theorem arrayCast_eq_grade (T S : Tree) : T.arrayCast S = (S.arrayPair T).grade := by
  -- By induction on the dimensions of the source: once they are used up, the walk ends.
  induction hn : S.dims generalizing T S with
  | zero =>
    have hS := dims_eq_zero_iff.mp hn
    by_cases hT : T.kind = .array
    · obtain ⟨X, rfl⟩ := eq_array hT
      rw [arrayCast_into_array hS]
      simp [arrayPair, ArrayPair.grade, hn, base_eq_self hS, dims, base]
    · rw [arrayCast_base hT hS]
      simp [arrayPair, ArrayPair.grade, hn, dims_eq_zero_iff.mpr hT, base_eq_self hS,
        base_eq_self hT, and_comm]
  | succ n ih =>
    have hS : S.kind = .array := by
      by_contra hk
      cases hn.symm.trans (dims_eq_zero_iff.mpr hk)
    obtain ⟨S, rfl⟩ := eq_array hS
    have hn : S.dims = n := Nat.succ.inj hn
    cases T with
    | array T => exact (ih T S hn).trans (S.arrayPair T).grade_succ.symm
    | json C =>
      exact (ih plainJson S hn).trans (ArrayPair.grade_into_json S.dims S.base.kind _ _).symm
    | basic b =>
      rw [arrayCast_out_of_array (by simp)]
      simp [arrayPair, ArrayPair.grade, dims, base]
    | _ => rfl

theorem castRule_arrays (harray : S.kind = .array ∨ T.kind = .array)
    (htarget : T.kind = .array ∨ T.kind = .json) :
    S.castRule fieldsMatch T = .graded (S.arrayPair T).grade := by
  by_cases hST : S = T
  · simp [castRule, hST, arrayPair, ArrayPair.grade]
  rw [← arrayCast_eq_grade]
  cases T with
  | array X => simp [castRule, hST]
  | json C =>
    have hS : S.kind = .array := by simpa using harray
    simp [castRule, hST, hS]
  | _ => simp at htarget

theorem kind_of_isConstrained (hT : T.isConstrained = true) : T.kind = .json := by
  cases T with
  | json C => rfl
  | _ => cases hT

theorem array_not_assignable (hS : S.kind = .array) (hT : T.isConstrained = true) :
    S.assignable T = false := by
  rw [Bool.eq_false_iff]
  intro hassign
  rcases assignable_iff.mp hassign with rfl | rfl | ⟨rfl, -⟩ | ⟨hjson, -⟩
  · cases hS.symm.trans (kind_of_isConstrained hT)
  · cases hT
  · cases hS
  · cases hS.symm.trans hjson

theorem castRule_into_constrained (hT : T.isConstrained = true) :
    S.castRule fieldsMatch T = .graded (
      if S = T ∨ S.kind = .array ∧ S.base = plainJson then some .kept
      else if S.kind = .array ∧ S.base = basic .any then some .tested
      else none) := by
  have hplain : T ≠ plainJson := by
    rintro rfl
    cases hT
  cases T with
  | json C =>
    by_cases hS : S.kind = .array
    · have hdims : S.dims ≠ 0 := fun h => dims_eq_zero_iff.mp h hS
      have hST : S ≠ json C := by
        rintro rfl
        cases hS
      rw [castRule_arrays (.inl hS) (.inr rfl)]
      simp [arrayPair, ArrayPair.grade, hS, hST, hdims, dims, base]
    · by_cases hST : S = json C
      · simp [castRule, hST]
      · simp [castRule, hST, hS, hplain, hT]
  | _ => cases hT

end Tree

namespace TypeTable

variable {t : TypeTable} {r : Registry} {source target h c : Handle} {S T : Tree}

def arrayPair (t : TypeTable) (source target : Handle) : Except Fault ArrayPair := do
  let s ← t.elementType source
  let b ← t.elementType target
  return {
    sourceDims := ← t.dimensions source
    targetDims := ← t.dimensions target
    source := ← t.kind s
    target := ← t.kind b
    same := ← t.identical s b
    plain := ← t.identical s Handle.json }

structure JsonArray (t : TypeTable) (h : Handle) : Prop where
  array : t.kind h = .ok .array
  base : ∃ b, t.elementType h = .ok b ∧ t.identical b Handle.json = .ok true

theorem jsonArray_iff (ht : Layered t) (hT : t.unfold h = .ok T) :
    t.JsonArray h ↔ T.kind = .array ∧ T.base = .plainJson := by
  obtain ⟨b, hb, hB⟩ := elementType_eq hT
  have hplain := (identical_decides hB (unfold_json ht)).eq_true_iff
  constructor
  · rintro ⟨hk, b', hb', hsame⟩
    cases hb.symm.trans hb'
    exact ⟨(kind_iff hT).mp hk, hplain.mp hsame⟩
  · rintro ⟨hk, hbase⟩
    exact ⟨(kind_iff hT).mpr hk, b, hb, hplain.mpr hbase⟩

def documentArrays : TypeTable :=
  initial.grow [.declareStruct ⟨1⟩, .json ⟨14⟩, .arrayOf Handle.json 2]

/-- Only what is assignable is cast safely into constrained `json`, apart from arrays of plain
`json`. These are cast safely, and none of them is assignable. -/
theorem safe_casts_into_constrained_json (ht : Reachable t) (hs : t.Has source) (hg : t.Has target)
    (hc : t.jsonConstraint? target = .ok (some c)) (hk : t.kind c ≠ .ok (.basic .none))
    (r : Registry) (names : Pool) :
    (∀ o, t.castOperator r names source target = .ok (some o) → o.isUsable = true →
      o.safe = true → t.isAssignable source target = .ok true ∨ t.JsonArray source) ∧
    (t.JsonArray source →
      t.castOperator r names source target = .ok (some (.keep source target)) ∧
        t.isAssignable source target = .ok false) := by
  have hl := reachable_layered ht
  obtain ⟨S, hS⟩ := layered_unfold hl hs
  obtain ⟨T, hT⟩ := layered_unfold hl hg
  have hcon : T.isConstrained = true := by
    rcases jsonConstraint?_cases hT with ⟨c', C, rfl, hc', hC⟩ | ⟨-, hnone⟩
    · cases hc.symm.trans hc'
      simpa [Tree.isConstrained, kind_eq hC] using hk
    · cases hc.symm.trans hnone
  obtain ⟨m, hm⟩ := structsMatch_answers hl (reachable_closed ht) hS hT
  have hcast := castOperator_eq (r := r) hl names hS hT hm
  rw [Tree.castRule_into_constrained hcon] at hcast
  rw [jsonArray_iff hl hS, isAssignable_eq hS hT, hcast]
  constructor
  · intro o ho _ hsafe
    rw [Except.ok.injEq, Option.map_eq_some_iff] at ho
    obtain ⟨grade, hgrade, rfl⟩ := ho
    split_ifs at hgrade with hkept
    · rcases hkept with rfl | harray
      · exact .inl (congrArg _ (Tree.assignable_refl S))
      · exact .inr harray
    · cases hgrade
      cases hsafe
  · intro harray
    rw [if_pos (.inr harray)]
    exact ⟨rfl, congrArg _ (Tree.array_not_assignable harray.1 hcon)⟩

theorem documentArrays_grid_exempt :
    documentArrays.JsonArray ⟨17⟩ ∧ documentArrays.isAssignable ⟨17⟩ ⟨15⟩ = .ok false := by
  have ht : documentArrays.Reachable := reachable_grow .refl _
  have hhas : documentArrays.Has ⟨15⟩ ∧ documentArrays.Has ⟨17⟩ := by decide +kernel
  have hkept : documentArrays.castOperator .builtin .initial ⟨17⟩ ⟨15⟩ =
      .ok (some (.keep ⟨17⟩ ⟨15⟩)) := by
    decide +kernel
  obtain ⟨honly, hexempt⟩ := safe_casts_into_constrained_json ht hhas.2 hhas.1 (c := ⟨14⟩)
    (by decide +kernel) (by decide +kernel) .builtin .initial
  have hgrid : documentArrays.JsonArray ⟨17⟩ :=
    (honly _ hkept rfl rfl).resolve_left (by decide +kernel)
  exact ⟨hgrid, (hexempt hgrid).2⟩

/-- The constraint is a struct, and yet the array is cast into it without a test. -/
theorem documentArrays_safe_not_assignable :
    documentArrays.Reachable ∧ documentArrays.Has ⟨16⟩ ∧ documentArrays.Has ⟨15⟩ ∧
      documentArrays.jsonConstraint? ⟨15⟩ = .ok (some ⟨14⟩) ∧
      documentArrays.kind ⟨14⟩ = .ok (.nominal .struct) ∧
      documentArrays.castOperator .builtin .initial ⟨16⟩ ⟨15⟩ =
        .ok (some ⟨.cast, ⟨16⟩, ⟨15⟩, true, .nop⟩) ∧
      documentArrays.isAssignable ⟨16⟩ ⟨15⟩ = .ok false :=
  ⟨reachable_grow .refl _, by decide +kernel⟩

end TypeTable

end TypeConformance
