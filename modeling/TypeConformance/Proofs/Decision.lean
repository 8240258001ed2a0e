import TypeConformance.Conformance
import TypeConformance.Proofs.Unfolding

/-! # Decisions read off the trees

Each question about types is answered by the trees of the types alone, except that an operator
is looked up by canonical handles. No question fails on types that unfold.
-/
namespace TypeConformance

namespace Registry

variable {r : Registry} {kind : OperatorKind} {source target : Handle} {o : Operator}

theorem find?_spec (ho : r.find? kind source target = some o) :
    o ∈ r.operators ∧ o.kind = kind ∧ o.source = source ∧ o.target = target := by
  unfold find? at ho
  have hfits := List.find?_some ho
  exact ⟨List.mem_of_find?_eq_some ho, Operator.fits_iff.mp hfits⟩

theorem resolve_spec (ho : r.resolve kind source target = some o) :
    o ∈ r.operators ∧ o.source = source ∧ o.target = target := by
  have hspec {kind} (ho : r.find? kind source target = some o) :
      o ∈ r.operators ∧ o.source = source ∧ o.target = target :=
    ⟨(find?_spec ho).1, (find?_spec ho).2.2⟩
  unfold resolve at ho
  split at ho
  · rcases Option.or_eq_some_iff.mp ho with ho | ⟨-, ho⟩
    · exact hspec ho
    · exact hspec ho
  · exact hspec ho

def usable (r : Registry) (kind : OperatorKind) (source target : Handle) : Option Operator :=
  (r.resolve kind source target).filter Operator.isUsable

theorem usable_spec (ho : r.usable kind source target = some o) :
    o ∈ r.operators ∧ o.source = source ∧ o.target = target :=
  resolve_spec (Option.filter_eq_some_iff.mp ho).1

end Registry

namespace Tree

def plainJson : Tree := json (basic .none)

def isConstrained : Tree → Bool
  | json constraint => constraint ≠ basic .none
  | _ => false

/-- The built-in type that the tree is a copy of. -/
def builtin? : Tree → Option Handle
  | basic b => some b.handle
  | json (basic .none) => some Handle.json
  | _ => none

/-- The handle by which a type at `h` is looked up. -/
def canonical (T : Tree) (h : Handle) : Handle := T.builtin?.getD h

def base : Tree → Tree
  | array element => element.base
  | T => T

def dims : Tree → Nat
  | array element => element.dims + 1
  | _ => 0

/-- Identical types, anything into the error type, `null` into references, `json` into plain
`json`. -/
def assignable (actual expected : Tree) : Bool :=
  actual = expected || expected = basic .error ||
    (actual = basic .null && !expected.kind.isValue) ||
    (actual.kind = .json && expected = plainJson)

def arrayCastsImplicitly : Tree → Tree → Bool
  | array a, array e => a.arrayCastsImplicitly e
  | array _, e => e = basic .any
  | _, array _ => false
  | a, e => a = e || (e = basic .any && !a.kind.isValue)

def castsImplicitly (registered : Bool) (actual expected : Tree) : Bool :=
  !expected.isConstrained && (registered || expected = basic .any ||
    (actual.kind = .array && expected.kind = .array && actual.arrayCastsImplicitly expected))

theorem builtin?_of_isConstrained {T : Tree} (hT : T.isConstrained = true) : T.builtin? = none := by
  unfold builtin?
  split <;> simp_all [isConstrained]

theorem builtin?_eq_some {A : Tree} {h : Handle} (hA : A.builtin? = some h) :
    (∃ b, A = basic b ∧ h = b.handle) ∨ A = plainJson ∧ h = Handle.json := by
  unfold builtin? at hA
  split at hA
  · exact .inl ⟨_, rfl, (Option.some.inj hA).symm⟩
  · exact .inr ⟨rfl, (Option.some.inj hA).symm⟩
  · cases hA

theorem isBuiltin_of_builtin? {A : Tree} {h : Handle} (hA : A.builtin? = some h) :
    h.isBuiltin = true := by
  rcases builtin?_eq_some hA with ⟨b, -, rfl⟩ | ⟨-, rfl⟩
  · cases b <;> rfl
  · rfl

theorem builtin?_injective {A E : Tree} {h : Handle} (hA : A.builtin? = some h)
    (hE : E.builtin? = some h) : A = E := by
  have hbasic (b c : Basic) : b.handle = c.handle → b = c := by
    cases b <;> cases c <;> decide
  have hjson (b : Basic) : b.handle ≠ Handle.json := by
    cases b <;> decide
  rcases builtin?_eq_some hA with ⟨b, rfl, hb⟩ | ⟨rfl, hb⟩
  · rcases builtin?_eq_some hE with ⟨c, rfl, hc⟩ | ⟨rfl, hc⟩
    · rw [hbasic b c (hb.symm.trans hc)]
    · exact absurd (hb.symm.trans hc) (hjson b)
  · rcases builtin?_eq_some hE with ⟨c, rfl, hc⟩ | ⟨rfl, hc⟩
    · exact absurd (hc.symm.trans hb) (hjson c)
    · rfl

theorem base_kind_ne_array (T : Tree) : T.base.kind ≠ .array := by
  fun_induction base T with
  | case1 element ih => exact ih
  | case2 T h =>
    cases T with
    | array e => exact absurd rfl (h e)
    | _ => simp

variable {A E : Tree}

theorem arrayCastsImplicitly_array_left (hE : E.kind ≠ .array) :
    (array A).arrayCastsImplicitly E = decide (E = basic .any) := by
  cases E <;> simp_all [arrayCastsImplicitly]

theorem arrayCastsImplicitly_array_right (hA : A.kind ≠ .array) :
    A.arrayCastsImplicitly (array E) = false := by
  cases A <;> simp_all [arrayCastsImplicitly]

theorem arrayCastsImplicitly_base (hA : A.kind ≠ .array) (hE : E.kind ≠ .array) :
    A.arrayCastsImplicitly E = (A = E || (E = basic .any && !A.kind.isValue)) := by
  cases A <;> cases E <;> simp_all [arrayCastsImplicitly]

end Tree

namespace TypeTable

variable {t : TypeTable} {a e h : Handle} {A E T : Tree}

theorem getElem?_of_shape {s : Shape} (hs : t.shape h = .ok s) :
    t.slots[h.index]? = some s := by
  unfold shape at hs
  split at hs
  · cases hs
    assumption
  · cases hs

theorem has_of_shape {s : Shape} (hs : t.shape h = .ok s) : t.Has h :=
  has_of_getElem? (getElem?_of_shape hs)

theorem has_of_unfold (hT : t.unfold h = .ok T) : t.Has h := by
  obtain ⟨s, hs, _⟩ := unfold_inv hT
  exact has_of_shape hs

theorem has_of_kind {kind : Kind} (hk : t.kind h = .ok kind) : t.Has h := by
  obtain ⟨s, hs, _⟩ := bind_eq_ok.mp hk
  exact has_of_shape hs

theorem kind_eq (hT : t.unfold h = .ok T) : t.kind h = .ok T.kind := by
  obtain ⟨s, hs, ho⟩ := unfold_inv hT
  rw [TypeTable.kind, hs]
  cases ho <;> rfl

theorem isValue_eq (hT : t.unfold h = .ok T) : t.isValue h = .ok T.kind.isValue := by
  rw [isValue, kind_eq hT]
  rfl

theorem identical_eq (ha : t.unfold a = .ok A) (he : t.unfold e = .ok E) :
    t.identical a e = .ok (decide (A = E)) :=
  (identical_decides ha he).eq_decide

theorem arrayElement?_cases (hT : t.unfold h = .ok T) :
    (∃ x X, T = .array X ∧ t.arrayElement? h = .ok (some x) ∧ t.unfold x = .ok X) ∨
    (T.kind ≠ .array ∧ t.arrayElement? h = .ok none) := by
  obtain ⟨s, hs, ho⟩ := unfold_inv hT
  rw [arrayElement?, hs]
  cases ho with
  | array hx => exact .inl ⟨_, _, rfl, rfl, hx⟩
  | _ => exact .inr ⟨by simp, rfl⟩

theorem jsonConstraint?_cases (hT : t.unfold h = .ok T) :
    (∃ c C, T = .json C ∧ t.jsonConstraint? h = .ok (some c) ∧ t.unfold c = .ok C) ∨
    (T.kind ≠ .json ∧ t.jsonConstraint? h = .ok none) := by
  obtain ⟨s, hs, ho⟩ := unfold_inv hT
  rw [jsonConstraint?, hs]
  cases ho with
  | json hc => exact .inl ⟨_, _, rfl, rfl, hc⟩
  | _ => exact .inr ⟨by simp, rfl⟩

theorem properConstraint?_isSome (hT : t.unfold h = .ok T) :
    ∃ c, t.properConstraint? h = .ok c ∧ c.isSome = T.isConstrained := by
  rcases jsonConstraint?_cases hT with ⟨c, C, rfl, hc, hC⟩ | ⟨hk, hc⟩
  · by_cases hn : C = .basic .none
    · refine ⟨none, ?_, by simp [Tree.isConstrained, hn]⟩
      simp [properConstraint?, hc, kind_eq hC, Tree.kind_eq_basic.mpr hn]
    · have hk : C.kind ≠ .basic .none := fun hk => hn (Tree.kind_eq_basic.mp hk)
      refine ⟨some c, ?_, by simp [Tree.isConstrained, hn]⟩
      simp [properConstraint?, hc, kind_eq hC, hk]
  · refine ⟨none, by simp [properConstraint?, hc], ?_⟩
    cases T with
    | json C => exact absurd rfl hk
    | _ => rfl

theorem dims_lt_of_unfoldWithin {n : Nat} (hT : t.unfoldWithin n h = .ok T) : T.dims < n := by
  induction n generalizing h T with
  | zero => cases hT
  | succ n ih =>
    obtain ⟨s, _, ho⟩ := unfoldWithin_succ.mp hT
    cases ho with
    | array hx =>
      have := ih hx
      simp only [Tree.dims]
      omega
    | _ => simp [Tree.dims]

theorem dims_lt_walkBudget (hT : t.unfold h = .ok T) : T.dims < t.walkBudget :=
  dims_lt_of_unfoldWithin hT

theorem dims_lt_pairBudget (hT : t.unfold h = .ok T) : T.dims < t.pairBudget :=
  Nat.lt_of_lt_of_le (dims_lt_walkBudget hT) walkBudget_le_pairBudget

theorem stripWithin_eq {m : Nat} (hT : t.unfold h = .ok T) (hm : T.dims < m) :
    ∃ b, t.stripWithin m h = .ok (b, T.dims) ∧ t.unfold b = .ok T.base := by
  induction m generalizing h T with
  | zero => omega
  | succ m ih =>
    rcases arrayElement?_cases hT with ⟨x, X, rfl, hx, hX⟩ | ⟨hk, hx⟩
    · obtain ⟨b, hb, hB⟩ := ih hX (by simp only [Tree.dims] at hm; omega)
      exact ⟨b, by simp [stripWithin, hx, hb, Tree.dims], hB⟩
    · refine ⟨h, ?_, ?_⟩ <;> cases T <;>
        simp_all [stripWithin, Tree.dims, Tree.base]

theorem elementType_eq (hT : t.unfold h = .ok T) :
    ∃ b, t.elementType h = .ok b ∧ t.unfold b = .ok T.base := by
  obtain ⟨b, hb, hB⟩ := stripWithin_eq hT (dims_lt_walkBudget hT)
  exact ⟨b, by simp [elementType, hb], hB⟩

theorem arraysMatchWithin_eq {m : Nat} (ha : t.unfold a = .ok A) (he : t.unfold e = .ok E)
    (hm : A.dims < m) : t.arraysMatchWithin m a e = .ok (decide (A = E)) := by
  induction m generalizing a e A E with
  | zero => omega
  | succ m ih =>
    rcases arrayElement?_cases ha with ⟨x, X, rfl, hx, hX⟩ | ⟨_, hx⟩
    · rcases arrayElement?_cases he with ⟨y, Y, rfl, hy, hY⟩ | ⟨_, hy⟩
      · have hrec := ih hX hY (by simp only [Tree.dims] at hm; omega)
        simpa [arraysMatchWithin, hx, hy] using hrec
      · simpa [arraysMatchWithin, hx, hy] using identical_eq ha he
    · rcases arrayElement?_cases he with ⟨y, Y, rfl, hy, hY⟩ | ⟨_, hy⟩
      · simpa [arraysMatchWithin, hx, hy] using identical_eq ha he
      · simpa [arraysMatchWithin, hx, hy] using identical_eq ha he

theorem arraysMatch_eq (ha : t.unfold a = .ok A) (he : t.unfold e = .ok E) :
    t.arraysMatch a e = .ok (decide (A = E)) :=
  arraysMatchWithin_eq ha he (dims_lt_pairBudget ha)

theorem signature?_cases (hT : t.unfold h = .ok T) :
    (∃ ps rs Ps Rs, T = .function Ps Rs ∧ t.signature? h = .ok (some (ps, rs)) ∧
      List.Forall₂ (fun p P => t.unfold p = .ok P) ps Ps ∧
      List.Forall₂ (fun r R => t.unfold r = .ok R) rs Rs) ∨
    (T.kind ≠ .function ∧ t.signature? h = .ok none) := by
  obtain ⟨s, hs, ho⟩ := unfold_inv hT
  rw [signature?, hs]
  cases ho with
  | function hp hr => exact .inl ⟨_, _, _, _, rfl, rfl, hp, hr⟩
  | _ => exact .inr ⟨by simp, rfl⟩

theorem functionsMatch_decides (ha : t.unfold a = .ok A) (he : t.unfold e = .ok E) :
    Decides (t.functionsMatch a e) (A.kind = .function ∧ A = E) := by
  rcases signature?_cases ha with ⟨ps, rs, Ps, Rs, rfl, hs, hP, hR⟩ | ⟨hk, hs⟩
  · rcases signature?_cases he with ⟨ps', rs', Ps', Rs', rfl, hs', hP', hR'⟩ | ⟨hk', hs'⟩
    · by_cases hlen : ps.length = ps'.length ∧ rs.length = rs'.length
      · have hparams := allPairs_decides hP hP' hlen.1 identical_decides
        have hrets := allPairs_decides hR hR' hlen.2 identical_decides
        simpa [functionsMatch, hs, hs', hlen] using hparams.and hrets
      · have hor : ps.length ≠ ps'.length ∨ rs.length ≠ rs'.length := by
          by_contra hn
          exact hlen (by simpa using hn)
        refine .of_false (by simp [functionsMatch, hs, hs', hor]) ?_
        rintro ⟨-, h⟩
        cases h
        exact hlen ⟨hP.length_eq.trans hP'.length_eq.symm, hR.length_eq.trans hR'.length_eq.symm⟩
    · refine .of_false (by simp [functionsMatch, hs, hs']) ?_
      rintro ⟨hk, rfl⟩
      exact hk' hk
  · refine .of_false ?_ fun h => hk h.1
    rcases signature?_cases he with ⟨_, _, _, _, rfl, hs', _⟩ | ⟨_, hs'⟩
    · simp [functionsMatch, hs, hs']
    · simp [functionsMatch, hs, hs']

theorem jsonAssignable_decides (ha : t.unfold a = .ok A) (he : t.unfold e = .ok E) :
    Decides (t.jsonAssignable a e)
      (A.kind = .json ∧ (E = .plainJson ∨ E.kind = .json ∧ A = E)) := by
  rcases jsonConstraint?_cases ha with ⟨c, C, rfl, hc, hC⟩ | ⟨hk, hc⟩
  · rcases jsonConstraint?_cases he with ⟨d, D, rfl, hd, hD⟩ | ⟨hk', hd⟩
    · by_cases hn : D = .basic .none
      · refine .of_true ?_ ?_
        · simp [jsonAssignable, hc, hd, kind_eq hD, Tree.kind_eq_basic.mpr hn]
        · simp [Tree.plainJson, hn]
      · have hkD : D.kind ≠ .basic .none := fun hk => hn (Tree.kind_eq_basic.mp hk)
        have hsame := (identical_decides hD hC).congr (eq_comm)
        simpa [jsonAssignable, hc, hd, kind_eq hD, hkD, Tree.plainJson, hn] using hsame
    · refine .of_false (by simp [jsonAssignable, hc, hd]) ?_
      rintro ⟨-, rfl | ⟨hk, -⟩⟩
      · exact hk' rfl
      · exact hk' hk
  · refine .of_false ?_ fun h => hk h.1
    rcases jsonConstraint?_cases he with ⟨d, D, rfl, hd, _⟩ | ⟨_, hd⟩
    · simp [jsonAssignable, hc, hd]
    · simp [jsonAssignable, hc, hd]

/-- The two rules that go by the kind alone, for values and for kinds without components, take the
basic kinds between them. -/
theorem isAssignable_by_kind {k k' : Kind} (ha : t.kind a = .ok k) (he : t.kind e = .ok k')
    (hdiffer : t.identical a e = .ok false) (herr : k' ≠ .basic .error)
    (hnull : ¬(k = .basic .null ∧ k'.isValue = false)) :
    t.isAssignable a e =
      if k = k' then
        match k with
        | .basic _ => .ok true
        | .function => t.functionsMatch a e
        | .array => t.arraysMatch a e
        | .json | .nominal _ => t.jsonAssignable a e
      else t.jsonAssignable a e := by
  have hrules : t.isAssignable a e =
      if k = k' then
        if k.isValue then .ok true
        else if k = .function then t.functionsMatch a e
        else if k.isUserDefined = false ∧ k.isConstrained = false then .ok true
        else if k = .array then t.arraysMatch a e
        else t.jsonAssignable a e
      else t.jsonAssignable a e := by
    simp [isAssignable, ha, he, hdiffer, herr, hnull]
  rw [hrules]
  cases k with
  | basic b => simp [Kind.isUserDefined, Kind.isConstrained]
  | _ => simp [Kind.isValue, Kind.isUserDefined, Kind.isConstrained]

/-- The rules for one kind add nothing to identity but plain `json`. -/
theorem isAssignable_eq (ha : t.unfold a = .ok A) (he : t.unfold e = .ok E) :
    t.isAssignable a e = .ok (A.assignable E) := by
  by_cases hAE : A = E
  · simp [isAssignable, identical_eq ha he, hAE, Tree.assignable]
  by_cases herr : E = .basic .error
  · simp [isAssignable, identical_eq ha he, kind_eq he, herr, Tree.assignable]
  by_cases hnull : A = .basic .null ∧ E.kind.isValue = false
  · simp [isAssignable, identical_eq ha he, kind_eq he, herr, kind_eq ha, hnull, Tree.assignable]
  have hjson : t.jsonAssignable a e = .ok (A.assignable E) := by
    rw [(jsonAssignable_decides ha he).eq_decide]
    simp [Tree.assignable, hAE, herr, hnull]
  rw [isAssignable_by_kind (kind_eq ha) (kind_eq he) (by simp [identical_eq ha he, hAE])
    (by simpa using herr) (by simpa using hnull)]
  by_cases hk : A.kind = E.kind
  · rw [if_pos hk]
    cases A with
    | basic b => exact absurd (Tree.kind_eq_basic.mp hk.symm).symm hAE
    | function ps rs =>
      have hf := (functionsMatch_decides ha he).eq_false_iff.mpr fun h => hAE h.2
      simp [hf, hAE, herr, Tree.assignable]
    | array X => simp [arraysMatch_eq ha he, hAE, herr, Tree.assignable]
    | json C => exact hjson
    | nominal n d => exact hjson
  · rw [if_neg hk]
    exact hjson

theorem not_invalid_of_has (ht : Layered t) (hh : t.Has h) : h.isInvalid = false := by
  have hne : h ≠ Handle.invalid := by
    rintro rfl
    exact Nat.not_le_of_lt hh ht.bounded
  simpa [Handle.isInvalid] using hne

theorem builtin_has (ht : Layered t) (hb : h.isBuiltin = true) : t.Has h := by
  have hlt : h.index < Shape.builtins.length := of_decide_eq_true hb
  exact has_of_getElem? (ht.builtins h.index _ (List.getElem?_eq_getElem hlt))

theorem builtins_slots : ∀ p ∈ Shape.builtins.zipIdx,
    (∃ b ∈ Basic.all, p.1 = .basic b ∧ b.handle = ⟨p.2⟩) ∨
      p.1 = .json Basic.none.handle ∧ Handle.json = ⟨p.2⟩ := by
  decide

/-- Built-in handles stand for themselves. -/
theorem builtin?_of_isBuiltin (ht : Layered t) (hT : t.unfold h = .ok T)
    (hb : h.isBuiltin = true) : T.builtin? = some h := by
  have hlt : h.index < Shape.builtins.length := of_decide_eq_true hb
  have hi := List.getElem?_eq_getElem hlt
  have hshape := shape_of_getElem? (ht.builtins _ _ hi)
  have hslot := builtins_slots (Shape.builtins[h.index], h.index)
    (List.mem_zipIdx_iff_getElem?.mpr hi)
  obtain ⟨s, hs, ho⟩ := unfold_inv hT
  obtain rfl := Except.ok.inj (hshape.symm.trans hs)
  generalize Shape.builtins[h.index] = s at hslot ho
  rcases hslot with ⟨b, -, rfl, hb⟩ | ⟨rfl, hj⟩
  · cases ho
    exact congrArg some hb
  · cases ho with
    | json hc =>
      have hnone : t.shape Basic.none.handle = .ok (.basic .none) :=
        shape_of_getElem? (ht.builtins 12 _ rfl)
      obtain ⟨s, hs, ho⟩ := unfold_inv hc
      obtain rfl := Except.ok.inj (hnone.symm.trans hs)
      cases ho
      exact congrArg some hj

theorem unfold_builtin (ht : Layered t) (hA : A.builtin? = some a) : t.unfold a = .ok A := by
  have hb := Tree.isBuiltin_of_builtin? hA
  obtain ⟨A', hA'⟩ := layered_unfold ht (builtin_has ht hb)
  rw [hA', Tree.builtin?_injective (builtin?_of_isBuiltin ht hA' hb) hA]

theorem unfold_json (ht : Layered t) : t.unfold Handle.json = .ok .plainJson :=
  unfold_builtin ht rfl

theorem unfold_basic (ht : Layered t) (b : Basic) : t.unfold b.handle = .ok (.basic b) :=
  unfold_builtin ht rfl

/-- The canonical handle stands for a copy of the type. -/
theorem unfold_canonical (ht : Layered t) (hA : t.unfold a = .ok A) :
    t.unfold (A.canonical a) = .ok A := by
  cases hbuiltin : A.builtin? with
  | none => simpa [Tree.canonical, hbuiltin] using hA
  | some k => simpa [Tree.canonical, hbuiltin] using unfold_builtin ht hbuiltin

theorem canonical_eq (ht : Layered t) (hT : t.unfold h = .ok T) :
    t.canonical h = .ok (T.canonical h) := by
  have hinvalid := not_invalid_of_has ht (has_of_unfold hT)
  by_cases hb : h.isBuiltin = true
  · simp [canonical, hb, Tree.canonical, builtin?_of_isBuiltin ht hT hb]
  · obtain ⟨s, hs, ho⟩ := unfold_inv hT
    cases ho with
    | @json c C hc =>
      by_cases hn : C = .basic .none
      · simp [canonical, hb, hinvalid, hs, kind_eq hc, hn, Tree.canonical, Tree.builtin?]
      · have hjson : (Tree.json C).builtin? = none :=
          Tree.builtin?_of_isConstrained (by simp [Tree.isConstrained, hn])
        simp [canonical, hb, hinvalid, hs, kind_eq hc, hn, Tree.canonical, hjson]
    | _ => simp [canonical, hb, hinvalid, hs, Tree.canonical, Tree.builtin?]

theorem lookup_eq (ht : Layered t) (r : Registry) (kind : OperatorKind)
    (ha : t.unfold a = .ok A) (he : t.unfold e = .ok E) :
    r.lookup t kind a e = .ok (r.usable kind (A.canonical a) (E.canonical e)) := by
  rw [Registry.lookup, canonical_eq ht ha, canonical_eq ht he]
  rfl

theorem arrayCastsImplicitlyWithin_eq {m : Nat} (ha : t.unfold a = .ok A)
    (he : t.unfold e = .ok E) (hm : A.dims < m) :
    t.arrayCastsImplicitlyWithin m a e = .ok (A.arrayCastsImplicitly E) := by
  induction m generalizing a e A E with
  | zero => omega
  | succ m ih =>
    rcases arrayElement?_cases ha with ⟨x, X, rfl, hx, hX⟩ | ⟨hk, hx⟩
    · rcases arrayElement?_cases he with ⟨y, Y, rfl, hy, hY⟩ | ⟨hk', hy⟩
      · have hrec := ih hX hY (by simp only [Tree.dims] at hm; omega)
        simpa [arrayCastsImplicitlyWithin, hx, hy, Tree.arrayCastsImplicitly] using hrec
      · rw [Tree.arrayCastsImplicitly_array_left hk']
        simp [arrayCastsImplicitlyWithin, hx, hy, kind_eq he, Bool.beq_eq_decide_eq]
    · rcases arrayElement?_cases he with ⟨y, Y, rfl, hy, hY⟩ | ⟨hk', hy⟩
      · rw [Tree.arrayCastsImplicitly_array_right hk]
        simp [arrayCastsImplicitlyWithin, hx, hy]
      · rw [Tree.arrayCastsImplicitly_base hk hk']
        by_cases hAE : A = E
        · simp [arrayCastsImplicitlyWithin, hx, hy, identical_eq ha he, hAE]
        · by_cases hany : E = .basic .any
          · subst hany
            simp [arrayCastsImplicitlyWithin, hx, hy, identical_eq ha he, hAE, kind_eq he,
              isValue_eq ha]
          · simp [arrayCastsImplicitlyWithin, hx, hy, identical_eq ha he, hAE, kind_eq he, hany]

theorem castsImplicitly_eq (ht : Layered t) (r : Registry) (ha : t.unfold a = .ok A)
    (he : t.unfold e = .ok E) :
    t.castsImplicitly r a e = .ok (A.castsImplicitly
      (r.usable .implicitCast (A.canonical a) (E.canonical e)).isSome E) := by
  obtain ⟨c, hc, hsome⟩ := properConstraint?_isSome he
  have hlookup := lookup_eq ht r .implicitCast ha he
  by_cases hcon : E.isConstrained = true
  · simp [castsImplicitly, hc, hsome, hcon, Tree.castsImplicitly]
  generalize r.usable .implicitCast _ _ = found at hlookup ⊢
  by_cases hreg : found.isSome = true
  · simp [castsImplicitly, hc, hsome, hcon, hlookup, hreg, Tree.castsImplicitly]
  simp only [castsImplicitly, hc, hsome, hcon, hlookup, hreg, kind_eq ha, kind_eq he, bind_ok,
    Bool.false_eq_true, ↓reduceIte]
  split
  · rename_i hany
    simp [Tree.castsImplicitly, Tree.isConstrained, Tree.kind_eq_basic.mp hany]
  · rename_i hA hE
    have hany : E ≠ .basic .any := by
      rintro rfl
      cases hE
    have harrays := arrayCastsImplicitlyWithin_eq ha he (dims_lt_pairBudget ha)
    simp [arrayCastsImplicitly, harrays, Tree.castsImplicitly, hcon, hA, hE, hany]
  · rename_i hany harrays
    have hne : E ≠ .basic .any := fun h => hany (by rw [h]; rfl)
    have hboth : A.kind = .array → E.kind ≠ .array := fun hA hE => harrays hA hE
    by_cases hA : A.kind = .array
    · simp [Tree.castsImplicitly, hne, hboth hA]
    · simp [Tree.castsImplicitly, hne, hA]

/-- Fields belong to the declaration, which all copies of a struct share. -/
theorem structFields_congr (ha : t.unfold a = .ok A) (he : t.unfold e = .ok A) :
    t.structFields a = t.structFields e := by
  obtain ⟨s, hs, ho⟩ := unfold_inv ha
  obtain ⟨s', hs', ho'⟩ := unfold_inv he
  cases ho <;> cases ho' <;> simp [structFields, declaration?, hs, hs']

theorem structFields_eq {n : Nominal} {d : DeclRef} {decl : Declaration}
    (hs : t.shape h = .ok (.nominal n d)) (hd : t.declarationAt d = .ok decl) :
    t.structFields h = .ok decl.fields := by
  simp [structFields, declaration?, hs, hd]

theorem closed_structFields (hc : Closed t) (hT : t.unfold h = .ok T) :
    ∃ fields, t.structFields h = .ok fields ∧ ∀ f ∈ fields, t.Has f.type := by
  obtain ⟨s, hs, ho⟩ := unfold_inv hT
  cases ho with
  | nominal n d =>
    have hd := Array.getElem?_eq_getElem (hc.declared _ n d (getElem?_of_shape hs))
    exact ⟨_, structFields_eq hs (declarationAt_of_getElem? hd), hc.fields _ _ hd⟩
  | _ => exact ⟨[], by simp [structFields, declaration?, hs], by simp⟩

theorem field_unfold (ht : Layered t) (hc : Closed t) (hT : t.unfold h = .ok T)
    {fields : List Field} (hfields : t.structFields h = .ok fields) {f : Field} (hf : f ∈ fields) :
    ∃ F, t.unfold f.type = .ok F := by
  obtain ⟨fields', hfields', hhas⟩ := closed_structFields hc hT
  cases hfields.symm.trans hfields'
  exact layered_unfold ht (hhas f hf)

end TypeTable

end TypeConformance
