import TypeConformance.Checker
import TypeConformance.Proofs.JsonGuard

/-! # Operators as functions of trees

Which rule finds the operator of a cast or a conversion depends on the unfolded types, and for
structs on whether their fields match. Each rule says where the operator comes from: it leaves
or tests the value, builds a new one, or is registered.
-/
namespace TypeConformance

/-- What a cast needs at run time: nothing, or a test of the value. -/
inductive CastGrade where
  | kept | tested
  deriving DecidableEq, Repr

def CastGrade.operator (source target : Handle) : CastGrade → Operator
  | kept => Operator.keep source target
  | tested => Operator.checked source target

namespace Tree

def arrayCast : (target source : Tree) → Option CastGrade
  | array T, array S => T.arrayCast S
  | json _, array S => plainJson.arrayCast S
  | T, array _ => if T = basic .any then some .kept else none
  | array T, S =>
    if S = basic .any ∨ S.kind = .json ∧ T.base.kind = .json then some .tested else none
  | T, S =>
    if S = T ∨ T = basic .any ∧ S.kind.isValue = false then some .kept
    else if T.kind.isValue = false ∧ S = basic .any then some .tested
    else none
termination_by structural _ source => source

end Tree

/-- Where the operator of a cast comes from. A cast that is `impossible` may not be asked for. -/
inductive CastRule where
  | graded (grade : Option CastGrade)
  | registered
  | impossible
  deriving DecidableEq, Repr

inductive ConversionRule where
  | none
  | converting (opcode : Opcode)
  | registered
  deriving DecidableEq, Repr

namespace Tree

def castRule (fieldsMatch : Bool) (source target : Tree) : CastRule :=
  if source = target then .graded (some .kept) else
  match target with
  | basic .any => if source.kind.isValue then .registered else .graded (some .kept)
  | json _ =>
    if source.kind = .json ∧ target = plainJson then .graded (some .kept)
    else if source.kind = .array then .graded (target.arrayCast source)
    else if target.isConstrained then .graded none
    else .registered
  | array _ => .graded (target.arrayCast source)
  | nominal .struct _ =>
    if source = basic .any then .graded (some .tested)
    else if source.kind = .nominal .struct then
      .graded (some (if fieldsMatch then .kept else .tested))
    else .graded none
  | nominal .connector _ => .graded (if source = basic .any then some .tested else none)
  | nominal .enum _ | basic .error => .impossible
  | _ => if source.kind = .array then .graded none else .registered

def conversionRule (convertible : Bool) (source target : Tree) : ConversionRule :=
  if source = target then .none else
  match target with
  | basic .map => if source.kind = .nominal .struct then .converting .structToMap else .registered
  | json _ =>
    if source.kind = .nominal .struct then
      if convertible then .converting .structToJson else .none
    else .registered
  | nominal .struct _ =>
    match source with
    | basic .map => .converting .mapToStruct
    | json _ => .converting .jsonToStruct
    | _ => .none
  | array _ | basic .any | nominal _ _ | basic .error => .none
  | _ => .registered

def accepted (registered : Bool) (actual expected : Tree) : Bool :=
  expected = basic .none || actual = basic .error || actual.assignable expected ||
    actual.castsImplicitly registered expected

section ArrayCast

variable {S T : Tree}

@[simp] theorem arrayCast_arrays (T S : Tree) :
    (array T).arrayCast (array S) = T.arrayCast S := rfl

theorem arrayCast_into_array (hS : S.kind ≠ .array) :
    (array T).arrayCast S =
      if S = basic .any ∨ S.kind = .json ∧ T.base.kind = .json then some .tested else none := by
  cases S <;> first | rfl | exact absurd rfl hS

theorem arrayCast_out_of_array (hT : T.kind ≠ .array) :
    T.arrayCast (array S) = if T.kind = .json then plainJson.arrayCast S
      else if T = basic .any then some .kept else none := by
  cases T <;> first | rfl | exact absurd rfl hT

theorem arrayCast_base (hT : T.kind ≠ .array) (hS : S.kind ≠ .array) :
    T.arrayCast S = if S = T ∨ T = basic .any ∧ S.kind.isValue = false then some .kept
      else if T.kind.isValue = false ∧ S = basic .any then some .tested else none := by
  cases T <;> cases S <;> first | rfl | exact absurd rfl hT | exact absurd rfl hS

end ArrayCast

end Tree

namespace TypeTable

variable {t : TypeTable} {r : Registry} {source target a e : Handle} {S T A E : Tree}

/-- However far the walk goes, its operator is made for the pair that it began with. -/
theorem arrayCastWithin_eq {outerTarget outerSource : Handle} {m : Nat} (ht : Layered t)
    (hT : t.unfold target = .ok T) (hS : t.unfold source = .ok S) (hm : S.dims < m) :
    t.arrayCastWithin outerTarget outerSource m target source =
      .ok ((T.arrayCast S).map (CastGrade.operator outerSource outerTarget)) := by
  induction m generalizing target source T S with
  | zero => omega
  | succ m ih =>
    rcases arrayElement?_cases hT with ⟨x, X, rfl, hx, hX⟩ | ⟨hkT, hx⟩
    · rcases arrayElement?_cases hS with ⟨y, Y, rfl, hy, hY⟩ | ⟨hkS, hy⟩
      · have hrec := ih hX hY (by simp only [Tree.dims] at hm; omega)
        simpa [arrayCastWithin, hx, hy] using hrec
      · obtain ⟨b, hb, hB⟩ := elementType_eq hT
        rw [Tree.arrayCast_into_array hkS]
        simp only [arrayCastWithin, hx, hy, kind_eq hS, bind_ok]
        split
        · rename_i hjson
          have hany : S ≠ .basic .any := by
            rintro rfl
            cases hjson
          by_cases hbase : X.base.kind = .json
          · simp [hb, kind_eq hB, Tree.base, hjson, hbase, CastGrade.operator]
          · simp [hb, kind_eq hB, Tree.base, hany, hbase]
        · rename_i hany
          simp [Tree.kind_eq_basic.mp hany, CastGrade.operator]
        · rename_i hjson hany
          have hne : S ≠ .basic .any := fun h => hany (Tree.kind_eq_basic.mpr h)
          simp [hne, show S.kind ≠ .json from hjson]
    · rcases arrayElement?_cases hS with ⟨y, Y, rfl, hy, hY⟩ | ⟨hkS, hy⟩
      · rw [Tree.arrayCast_out_of_array hkT]
        simp only [arrayCastWithin, hx, hy, kind_eq hT, bind_ok]
        split
        · rename_i hjson
          rw [if_pos hjson]
          exact ih (unfold_json ht) hY (by simp only [Tree.dims] at hm; omega)
        · rename_i hany
          simp [Tree.kind_eq_basic.mp hany, CastGrade.operator]
        · rename_i hjson hany
          rw [if_neg hjson, if_neg fun h => hany (Tree.kind_eq_basic.mpr h)]
          rfl
      · rw [Tree.arrayCast_base hkT hkS]
        by_cases hST : S = T
        · simp [arrayCastWithin, hx, hy, identical_eq hS hT, hST, CastGrade.operator]
        by_cases hbox : T = .basic .any ∧ S.kind.isValue = false
        · simp [arrayCastWithin, hx, hy, identical_eq hS hT, kind_eq hS, kind_eq hT, hbox,
            CastGrade.operator]
        by_cases htest : T.kind.isValue = false ∧ S = .basic .any
        · obtain ⟨hval, rfl⟩ := htest
          have hne : T ≠ .basic .any := fun h => hST h.symm
          simp [arrayCastWithin, hx, hy, identical_eq hS hT, hST, kind_eq hS, kind_eq hT, hne, hval,
            CastGrade.operator]
        · simp [arrayCastWithin, hx, hy, identical_eq hS hT, hST, kind_eq hS, kind_eq hT, hbox,
            htest]

theorem arrayCast_eq (ht : Layered t) (hS : t.unfold source = .ok S)
    (hT : t.unfold target = .ok T) :
    t.arrayCast source target =
      .ok ((T.arrayCast S).map (CastGrade.operator source target)) :=
  arrayCastWithin_eq ht hT hS (dims_lt_pairBudget hS)

theorem allPairs_answers {α : Type} {p : α → α → Except Fault Bool} {as bs : List α}
    (hp : ∀ a ∈ as, ∀ b ∈ bs, ∃ answer, p a b = .ok answer) :
    ∃ answer, allPairs p as bs = .ok answer := by
  induction as generalizing bs with
  | nil => exact ⟨true, rfl⟩
  | cons a as ih =>
    cases bs with
    | nil => exact ⟨true, rfl⟩
    | cons b bs =>
      obtain ⟨answer, ha⟩ := hp a List.mem_cons_self b List.mem_cons_self
      cases answer with
      | false => exact ⟨false, by simp [allPairs, ha]⟩
      | true =>
        obtain ⟨rest, hrest⟩ := ih fun a ha b hb =>
          hp a (List.mem_cons_of_mem _ ha) b (List.mem_cons_of_mem _ hb)
        exact ⟨rest, by simp [allPairs, ha, hrest]⟩

theorem structsMatch_answers (ht : Layered t) (hc : Closed t) (ha : t.unfold a = .ok A)
    (he : t.unfold e = .ok E) : ∃ answer, t.structsMatch a e = .ok answer := by
  obtain ⟨as, has, hA⟩ := closed_structFields hc ha
  obtain ⟨es, hes, hE⟩ := closed_structFields hc he
  by_cases hka : A.kind = .nominal .struct
  · by_cases hke : E.kind = .nominal .struct
    · by_cases hlen : as.length < es.length
      · exact ⟨false, by simp [structsMatch, kind_eq ha, kind_eq he, hka, hke, has, hes, hlen]⟩
      · simp only [structsMatch, kind_eq ha, kind_eq he, hka, hke, has, hes, hlen, bind_ok,
          ne_eq, not_true, if_false]
        apply allPairs_answers
        intro f hf g hg
        obtain ⟨F, hF⟩ := layered_unfold ht (hE f hf)
        obtain ⟨G, hG⟩ := layered_unfold ht (hA g hg)
        by_cases hname : f.name = g.name
        · exact ⟨_, by rw [if_pos hname, isAssignable_eq hG hF]⟩
        · exact ⟨false, by rw [if_neg hname]; rfl⟩
    · exact ⟨false, by simp [structsMatch, kind_eq ha, kind_eq he, hka, hke]⟩
  · exact ⟨false, by simp [structsMatch, kind_eq ha, hka]⟩

theorem structsMatch_congr {a' e' : Handle} (ha : t.unfold a = .ok A) (ha' : t.unfold a' = .ok A)
    (he : t.unfold e = .ok E) (he' : t.unfold e' = .ok E) :
    t.structsMatch a e = t.structsMatch a' e' := by
  simp only [structsMatch, kind_eq ha, kind_eq ha', kind_eq he, kind_eq he',
    structFields_congr ha ha', structFields_congr he he']

theorem castOperator_eq (ht : Layered t) (names : Pool) (hS : t.unfold source = .ok S)
    (hT : t.unfold target = .ok T) {fieldsMatch : Bool}
    (hm : t.structsMatch source target = .ok fieldsMatch) :
    t.castOperator r names source target =
      (match S.castRule fieldsMatch T with
      | .graded grade => .ok (grade.map (CastGrade.operator source target))
      | .registered => r.lookup t .cast source target
      | .impossible => do
        throw (.noCastInto (← t.render names source) (← t.render names target) T.kind)) := by
  have hsame := identical_eq hS hT
  have hkS := kind_eq hS
  have hkT := kind_eq hT
  by_cases hST : S = T
  · simp [castOperator, hsame, hST, Tree.castRule, CastGrade.operator]
  -- The two types differ from here on, so plain `json` is all that a document is assignable to.
  simp only [castOperator, hsame, hST, hkS, hkT, bind_ok, decide_false, Bool.false_eq_true,
    if_false, Tree.castRule]
  cases T with
  | array X => simp [arrayCast_eq ht hS hT]
  | function ps rs =>
    by_cases harr : S.kind = .array
    · simp [harr]
    · simp [harr]
  | json C =>
    obtain ⟨c, hc, hsome⟩ := properConstraint?_isSome hT
    have hjson := (jsonAssignable_decides hS hT).eq_decide
    by_cases hplain : S.kind = .json ∧ Tree.json C = .plainJson
    · obtain ⟨hk, hC⟩ := hplain
      cases hC
      simp [hjson, hk, Tree.plainJson, CastGrade.operator]
    by_cases harr : S.kind = .array
    · simp [hjson, harr, arrayCast_eq ht hS hT]
    by_cases hcon : (Tree.json C).isConstrained = true
    · simp [hST, hjson, hplain, harr, hc, hsome, hcon]
    · simp [hST, hjson, hplain, harr, hc, hsome, hcon]
  | nominal n d =>
    cases n with
    | struct =>
      by_cases hany : S = .basic .any
      · simp [hany, CastGrade.operator]
      by_cases hst : S.kind = .nominal .struct
      · cases fieldsMatch with
        | true => simp [hany, hst, hm, CastGrade.operator]
        | false => simp [hany, hst, hm, CastGrade.operator]
      · cases S with
        | basic b => cases b <;> simp_all
        | nominal n' d' => cases n' <;> simp_all
        | _ => simp
    | connector =>
      by_cases hany : S = .basic .any
      · simp [hany, CastGrade.operator]
      · simp [hany]
    | enum => simp
  | basic b =>
    cases b with
    | any =>
      by_cases hval : S.kind.isValue = true
      · simp [hval]
      · simp [hval, CastGrade.operator]
    | error => simp
    | _ =>
      by_cases harr : S.kind = .array
      · simp [harr]
      · simp [harr]

theorem isJsonConvertible_decides (ht : Layered t) (hc : Closed t) (r : Registry)
    (hS : t.unfold source = .ok S) :
    Decides (t.isJsonConvertible r source) (t.Sane r .conversion source) :=
  fitsUse_decides ht hc (has_of_unfold hS)

theorem conversionOperator_eq (hS : t.unfold source = .ok S) (hT : t.unfold target = .ok T)
    {convertible : Bool} (hconv : t.isJsonConvertible r source = .ok convertible) :
    t.conversionOperator r source target =
      (match S.conversionRule convertible T with
      | .none => .ok none
      | .converting opcode => .ok (some (.converting source target opcode))
      | .registered => r.lookup t .conversion source target) := by
  have hsame := identical_eq hS hT
  have hkS := kind_eq hS
  have hkT := kind_eq hT
  by_cases hST : S = T
  · simp [conversionOperator, hsame, hST, Tree.conversionRule]
  simp only [conversionOperator, hsame, hST, hkS, hkT, bind_ok, decide_false, Bool.false_eq_true,
    if_false, Tree.conversionRule]
  cases T with
  | array X => simp
  | function ps rs => simp
  | json C =>
    by_cases hst : S.kind = .nominal .struct
    · cases convertible with
      | true => simp [hst, hconv]
      | false => simp [hst, hconv]
    · simp [hst]
  | nominal n d =>
    cases n with
    | struct =>
      cases S with
      | basic b => cases b <;> simp
      | _ => simp
    | _ => simp
  | basic b =>
    cases b with
    | map =>
      by_cases hst : S.kind = .nominal .struct
      · simp [hst]
      · simp [hst]
    | _ => simp

/-! An operator that is found can be used: it is a registered one that is, or it was made for the
source, which is in the table. -/

theorem lookup_usable {o : Operator} {kind : OperatorKind} (ht : Layered t)
    (hS : t.unfold source = .ok S) (hT : t.unfold target = .ok T)
    (h : r.lookup t kind source target = .ok (some o)) : o.isUsable = true := by
  rw [lookup_eq ht r kind hS hT, Except.ok.injEq] at h
  exact (Option.filter_eq_some_iff.mp h).2

end TypeTable

namespace Checker

variable {c : Checker} {span : Span} {code : Code} {actual expected : Handle} {A E : Tree}

theorem checkType_eq (ht : c.types.Layered) (ha : c.types.unfold actual = .ok A)
    (he : c.types.unfold expected = .ok E) :
    c.checkType span actual expected code =
      if E = .basic .error then .ok { value := expected }
      else if A.accepted (c.operators.usable .implicitCast (A.canonical actual)
          (E.canonical expected)).isSome E then .ok { value := actual }
      else do
        let expectedText ← c.render expected
        let actualText ← c.render actual
        let finding := Finding.incompatible span code expectedText actualText
        return { value := Basic.error.handle, reports := [finding.toDiagnostic] } := by
  by_cases heq : actual = expected
  · subst heq
    cases ha.symm.trans he
    simp [checkType, Tree.accepted, Tree.assignable]
  have hke := TypeTable.kind_eq he
  have hka := TypeTable.kind_eq ha
  have hassign := TypeTable.isAssignable_eq ha he
  have hcasts := TypeTable.castsImplicitly_eq ht c.operators ha he
  generalize (c.operators.usable _ _ _).isSome = registered at hcasts ⊢
  by_cases herr : E = .basic .error
  · simp [checkType, heq, hke, herr]
  by_cases hnone : E = .basic .none
  · simp [checkType, heq, hke, hnone, Tree.accepted]
  simp only [checkType, if_neg heq, hke, bind_ok]
  split
  · exact absurd (Tree.kind_eq_basic.mp ‹_›) herr
  · exact absurd (Tree.kind_eq_basic.mp ‹_›) hnone
  · by_cases hA : A = .basic .error
    · simp [hka, hA, herr, Tree.accepted]
    by_cases hassigned : A.assignable E = true
    · simp [hka, hA, hassign, hassigned, herr, Tree.accepted]
    by_cases hcast : A.castsImplicitly registered E = true
    · simp [hka, hA, hassign, hassigned, hcasts, hcast, herr, Tree.accepted]
    · simp [hka, hA, hassign, hassigned, hcasts, hcast, herr, hnone, Tree.accepted]

end Checker

end TypeConformance
