import TypeConformance.Proofs.Representation
import TypeConformance.Proofs.Totality

/-! # Answers outlive growth

A table that grows keeps the trees of its types and the names of its declarations. Only the
fields of a struct may still come in. So an answer about types stays what it is, unless it
compares fields.
-/
namespace TypeConformance

namespace Tree

theorem castRule_fieldsMatch {S T : Tree} (fieldsMatch fieldsMatch' : Bool)
    (hkind : S.kind ≠ .nominal .struct ∨ T.kind ≠ .nominal .struct) :
    S.castRule fieldsMatch T = S.castRule fieldsMatch' T := by
  unfold castRule
  rcases hkind with hS | hT
  · simp only [hS, if_false]
  · cases T with
    | nominal n d =>
      cases n with
      | struct => exact absurd rfl hT
      | _ => rfl
    | basic b => cases b <;> rfl
    | _ => rfl

end Tree

namespace TypeTable

/-- The second table has what the first has, and calls each declaration by the same name. -/
structure Outlives (u t : TypeTable) : Prop where
  enlarges : Enlarges t u
  names : ∀ (i : Nat) d, t.declarations[i]? = some d →
    ∃ d', u.declarations[i]? = some d' ∧ d'.name = d.name

def SpeltAlike (t : TypeTable) (names names' : Pool) : Prop :=
  ∀ d ∈ t.declarations, names.lookup d.name = names'.lookup d.name

/-- The two tables give the same answers about two types. A text may be written with another
pool, provided it knows the names of declarations by the same texts. For a cast between two
structs nothing is said. -/
structure AnswersAlike (t u : TypeTable) (r : Registry) (a b : Handle) : Prop where
  identical : SameAnswer (t.identical a b) (u.identical a b)
  canonical : SameAnswer (t.canonical a) (u.canonical a)
  elementType : SameAnswer (t.elementType a) (u.elementType a)
  dimensions : SameAnswer (t.dimensions a) (u.dimensions a)
  isAssignable : SameAnswer (t.isAssignable a b) (u.isAssignable a b)
  castsImplicitly : SameAnswer (t.castsImplicitly r a b) (u.castsImplicitly r a b)
  arraysMatch : SameAnswer (t.arraysMatch a b) (u.arraysMatch a b)
  functionsMatch : SameAnswer (t.functionsMatch a b) (u.functionsMatch a b)
  render : ∀ names names', t.SpeltAlike names names' → t.render names a = u.render names' a
  castOperator : t.kind a ≠ .ok (.nominal .struct) ∨ t.kind b ≠ .ok (.nominal .struct) →
    ∀ names names', t.SpeltAlike names names' →
      t.castOperator r names a b = u.castOperator r names' a b

variable {known : TypeTable → DeclRef → Prop} {t u v : TypeTable} {r : Registry}
  {names names' : Pool} {a b h source target : Handle} {S T A B : Tree} {n m : Nat}

theorem Outlives.refl (t : TypeTable) : Outlives t t :=
  ⟨.refl t, fun _ d hd => ⟨d, hd, rfl⟩⟩

theorem Outlives.trans (hv : Outlives v u) (hu : Outlives u t) : Outlives v t where
  enlarges := hu.enlarges.trans hv.enlarges
  names i d hd := by
    obtain ⟨d', hd', hname⟩ := hu.names i d hd
    obtain ⟨d'', hd'', hname'⟩ := hv.names i d' hd'
    exact ⟨d'', hd'', hname'.trans hname⟩

theorem edit_outlives (hu : Edit known t u) : Outlives u t := by
  refine ⟨edit_enlarges hu, ?_⟩
  intro i d hd
  cases hu with
  | alloc | share => exact ⟨d, hd, rfl⟩
  | declare =>
    obtain ⟨hlt, -⟩ := Array.getElem?_eq_some_iff.mp hd
    exact ⟨d, by rw [Array.getElem?_push_lt hlt, ← hd, Array.getElem?_eq_getElem hlt], rfl⟩
  | @define j name fields hj _ =>
    obtain ⟨hlt, -⟩ := Array.getElem?_eq_some_iff.mp hd
    by_cases hij : j = i
    · subst hij
      obtain rfl := Option.some.inj (hd.symm.trans hj)
      exact ⟨⟨name, .struct (some fields)⟩, Array.getElem?_setIfInBounds_self_of_lt hlt, rfl⟩
    · exact ⟨d, by rw [Array.getElem?_setIfInBounds_ne hij, hd], rfl⟩

theorem later_outlives (ht : Reachable t) (hu : Later t u) : Outlives u t := by
  have hedits := growth_edits (reachable_layered ht) hu
  clear hu
  induction hedits with
  | refl => exact .refl t
  | tail _ hedit ih => exact (edit_outlives hedit).trans ih

theorem unfoldWithin_enlarged (hu : Enlarges t u) (hT : t.unfoldWithin n h = .ok T) :
    u.unfoldWithin n h = .ok T := by
  induction n generalizing h T with
  | zero => cases hT
  | succ n ih =>
    obtain ⟨s, hs, ho⟩ := unfoldWithin_succ.mp hT
    exact unfoldWithin_succ.mpr ⟨s, hu.shape hs, ho.mono fun _ _ => ih⟩

theorem walkBudget_mono (hu : Enlarges t u) : t.walkBudget ≤ u.walkBudget :=
  Nat.succ_le_succ hu.size

theorem unfold_enlarged (hu : Enlarges t u) (hT : t.unfold h = .ok T) : u.unfold h = .ok T :=
  unfoldWithin_mono (walkBudget_mono hu) (unfoldWithin_enlarged hu hT)

theorem stripWithin_enlarged (hu : Enlarges t u) (hnm : n ≤ m) {base : Handle} {dims : Nat}
    (hb : t.stripWithin n h = .ok (base, dims)) : u.stripWithin m h = .ok (base, dims) := by
  induction n generalizing m h dims with
  | zero => cases hb
  | succ n ih =>
    obtain ⟨m, rfl⟩ : ∃ k, m = k + 1 := ⟨m - 1, by omega⟩
    obtain ⟨element?, helement, hb⟩ := bind_eq_ok.mp hb
    obtain ⟨s, hs, hlayer⟩ := bind_eq_ok.mp helement
    have hkept : u.arrayElement? h = .ok element? := bind_eq_ok.mpr ⟨s, hu.shape hs, hlayer⟩
    rw [stripWithin, hkept, bind_ok]
    cases element? with
    | none => exact hb
    | some element =>
      obtain ⟨⟨base', dims'⟩, hbase, hb⟩ := bind_eq_ok.mp hb
      cases hb
      exact bind_eq_ok.mpr ⟨_, ih (by omega) hbase, rfl⟩

theorem declaredName_outlives (hu : Outlives u t) (hnames : t.SpeltAlike names names')
    {d : DeclRef} (hd : t.Declares d) :
    t.declaredName names d = u.declaredName names' d := by
  have hget := Array.getElem?_eq_getElem hd
  obtain ⟨d', hget', hname⟩ := hu.names d.index _ hget
  have hspelt := hnames _ (Array.getElem_mem hd)
  simp [declaredName, declarationAt, hget, hget', hname, hspelt]

theorem mapM_alike {sub : Handle → Except Fault Tree} {write write' : Handle → Except Fault String}
    (hwrite : ∀ h T, sub h = .ok T → write h = write' h) {hs : List Handle} {Ts : List Tree}
    (hsub : List.Forall₂ (fun h T => sub h = .ok T) hs Ts) : hs.mapM write = hs.mapM write' := by
  induction hsub with
  | nil => rfl
  | cons hT _ ih => rw [List.mapM_cons, List.mapM_cons, hwrite _ _ hT, ih]

theorem renderWithin_outlives (ht : Layered t) (hc : Closed t) (hlu : Layered u)
    (hu : Outlives u t) (hnames : t.SpeltAlike names names') (hbudget : n ≤ t.walkBudget)
    (hnm : n ≤ m) (hT : t.unfoldWithin n h = .ok T) :
    t.renderWithin names n h = u.renderWithin names' m h := by
  induction n generalizing m h T with
  | zero => cases hT
  | succ n ih =>
    obtain ⟨m, rfl⟩ : ∃ k, m = k + 1 := ⟨m - 1, by omega⟩
    have ih' : ∀ h T, t.unfoldWithin n h = .ok T →
        t.renderWithin names n h = u.renderWithin names' m h :=
      fun h T => ih (by omega) (by omega)
    obtain ⟨s, hs, ho⟩ := unfoldWithin_succ.mp hT
    have hvalid := not_invalid_of_has ht (has_of_shape hs)
    simp only [renderWithin, hvalid, hs, hu.enlarges.shape hs, bind_ok, Bool.false_eq_true,
      if_false]
    cases ho with
    | basic b => rfl
    | @json c C hC =>
      have hunfold : t.unfold c = .ok C := unfoldWithin_mono (by omega) hC
      have hunfold' := unfold_enlarged hu.enlarges hunfold
      simp only [identical_eq hunfold (unfold_basic ht .none),
        identical_eq hunfold' (unfold_basic hlu .none), ih' c C hC]
    | array he => simp only [ih' _ _ he]
    | nominal k d =>
      exact declaredName_outlives hu hnames (hc.declared _ k d (getElem?_of_shape hs))
    | function hp hr => simp only [mapM_alike ih' hp, mapM_alike ih' hr]

theorem render_outlives (ht : Layered t) (hc : Closed t) (hlu : Layered u) (hu : Outlives u t)
    (hnames : t.SpeltAlike names names') (hT : t.unfold h = .ok T) :
    t.render names h = u.render names' h :=
  renderWithin_outlives ht hc hlu hu hnames (Nat.le_refl _) (walkBudget_mono hu.enlarges) hT

theorem lookup_enlarged (ht : Layered t) (hlu : Layered u) (hu : Enlarges t u)
    (kind : OperatorKind) (hA : t.unfold a = .ok A) (hB : t.unfold b = .ok B) :
    r.lookup t kind a b = r.lookup u kind a b := by
  rw [lookup_eq ht r kind hA hB,
    lookup_eq hlu r kind (unfold_enlarged hu hA) (unfold_enlarged hu hB)]

/-- The rule for a cast is read off the trees. An operator that is registered is looked up by the
same handles, and a fault gives the same texts. -/
theorem castOperator_outlives (ht : Layered t) (hc : Closed t) (hlu : Layered u) (hcu : Closed u)
    (hu : Outlives u t) (hnames : t.SpeltAlike names names') (hS : t.unfold source = .ok S)
    (hT : t.unfold target = .ok T) (hkind : S.kind ≠ .nominal .struct ∨ T.kind ≠ .nominal .struct) :
    t.castOperator r names source target = u.castOperator r names' source target := by
  have hS' := unfold_enlarged hu.enlarges hS
  have hT' := unfold_enlarged hu.enlarges hT
  obtain ⟨fieldsMatch, hm⟩ := structsMatch_answers ht hc hS hT
  obtain ⟨fieldsMatch', hm'⟩ := structsMatch_answers hlu hcu hS' hT'
  rw [castOperator_eq ht names hS hT hm, castOperator_eq hlu names' hS' hT' hm',
    Tree.castRule_fieldsMatch fieldsMatch fieldsMatch' hkind,
    lookup_enlarged ht hlu hu.enlarges .cast hS hT,
    render_outlives ht hc hlu hu hnames hS, render_outlives ht hc hlu hu hnames hT]

/-- Whatever operations follow, also those that define the fields of structs, the types that a
table has are answered for as before. -/
theorem growth_keeps_answers (ht : Reachable t) (hu : Later t u) (ha : t.Has a) (hb : t.Has b)
    (r : Registry) : t.AnswersAlike u r a b := by
  have hru : Reachable u := Growth.trans ht hu
  have hl := reachable_layered ht
  have hlu := reachable_layered hru
  have hc := reachable_closed ht
  have hout := later_outlives ht hu
  obtain ⟨A, hA⟩ := layered_unfold hl ha
  obtain ⟨B, hB⟩ := layered_unfold hl hb
  have hA' := unfold_enlarged hout.enlarges hA
  have hB' := unfold_enlarged hout.enlarges hB
  obtain ⟨base, hbase, -⟩ := stripWithin_eq hA (dims_lt_walkBudget hA)
  have hbase' := stripWithin_enlarged hout.enlarges (walkBudget_mono hout.enlarges) hbase
  exact {
    identical := ⟨_, identical_eq hA hB, identical_eq hA' hB'⟩
    canonical := ⟨_, canonical_eq hl hA, canonical_eq hlu hA'⟩
    elementType := ⟨base, by simp [elementType, hbase], by simp [elementType, hbase']⟩
    dimensions := ⟨_, dimensions_eq hA, dimensions_eq hA'⟩
    isAssignable := ⟨_, isAssignable_eq hA hB, isAssignable_eq hA' hB'⟩
    castsImplicitly := ⟨_, castsImplicitly_eq hl r hA hB, castsImplicitly_eq hlu r hA' hB'⟩
    arraysMatch := ⟨_, arraysMatch_eq hA hB, arraysMatch_eq hA' hB'⟩
    functionsMatch := (functionsMatch_decides hA hB).sameAnswer (functionsMatch_decides hA' hB')
    render := fun names names' hnames => render_outlives hl hc hlu hout hnames hA
    castOperator := by
      intro hkind names names' hnames
      rw [kind_eq hA, kind_eq hB, ne_eq, ne_eq, Except.ok.injEq, Except.ok.injEq] at hkind
      exact castOperator_outlives hl hc hlu (reachable_closed hru) hout hnames hA hB hkind }

def drafts : TypeTable := initial.grow [
  .declareStruct Checker.pixelName, .declareStruct Checker.colorName, .array ⟨14⟩]

def detailed : TypeTable := drafts.grow [.defineFields ⟨15⟩ [⟨.empty, ⟨0⟩, {}⟩], .json ⟨14⟩]

theorem detailed_answers_like_drafts :
    SameAnswer (drafts.elementType ⟨16⟩) (detailed.elementType ⟨16⟩) ∧
    detailed.render Checker.palette.names ⟨16⟩ = .ok "Pixel[]" ∧
    detailed.castOperator .builtin Checker.palette.names ⟨16⟩ Basic.any.handle =
      .ok (some (.keep ⟨16⟩ Basic.any.handle)) ∧
    drafts.castOperator .builtin Checker.palette.names ⟨14⟩ ⟨15⟩ = .ok (some (.keep ⟨14⟩ ⟨15⟩)) ∧
    detailed.castOperator .builtin Checker.palette.names ⟨14⟩ ⟨15⟩ =
      .ok (some (.checked ⟨14⟩ ⟨15⟩)) := by
  have ht : Reachable drafts := reachable_grow .refl _
  have hu : Later drafts detailed := growth_grow (fun _ _ _ hw => hw) .refl
  have halike := growth_keeps_answers ht hu (by decide : drafts.Has ⟨16⟩)
    (by decide : drafts.Has Basic.any.handle) .builtin
  have hnames : drafts.SpeltAlike Checker.palette.names Checker.palette.names := fun _ _ => rfl
  refine ⟨halike.elementType, ?_, ?_, by decide +kernel, by decide +kernel⟩
  · rw [← halike.render _ _ hnames]
    decide +kernel
  · rw [← halike.castOperator (.inl (by decide +kernel)) _ _ hnames]
    decide +kernel

end TypeTable

end TypeConformance
