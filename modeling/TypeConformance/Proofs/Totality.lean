import TypeConformance.Proofs.CastChain
import TypeConformance.Proofs.Spelling

/-! # Every question is answered

On a table that was built from its own types and declarations, no question fails, whatever
operators are registered. Texts of types need the names of all declarations. The only question
that may not be asked is for a cast into an enum or the error type from another type.
-/
namespace TypeConformance

def Answered {α : Type} (x : Except Fault α) : Prop := ∃ answer, x = .ok answer

theorem Answered.bind {α β : Type} {x : Except Fault α} {f : α → Except Fault β}
    (hx : Answered x) (hf : ∀ a, x = .ok a → Answered (f a)) : Answered (x >>= f) := by
  obtain ⟨a, rfl⟩ := hx
  exact hf a rfl

theorem Decides.answered {x : Except Fault Bool} {p : Prop} (hx : Decides x p) : Answered x := by
  obtain ⟨b, hb, -⟩ := hx
  exact ⟨b, hb⟩

namespace Tree

theorem castRule_eq_impossible {S T : Tree} {fieldsMatch : Bool} :
    S.castRule fieldsMatch T = .impossible ↔
      S ≠ T ∧ (T.kind = .nominal .enum ∨ T.kind = .basic .error) := by
  by_cases hST : S = T
  · simp [castRule, hST]
  unfold castRule
  rw [if_neg hST, and_iff_right hST]
  cases T with
  | array X => simp
  | function ps rs =>
    dsimp only
    split <;> simp
  | json C =>
    dsimp only
    split_ifs <;> simp
  | nominal n d =>
    cases n with
    | struct =>
      dsimp only
      split_ifs <;> simp
    | connector => simp
    | enum => simp
  | basic b =>
    cases b with
    | error => simp
    | _ =>
      dsimp only
      split <;> simp

end Tree

namespace TypeTable

variable {t : TypeTable} {r : Registry} {names : Pool} {source target h : Handle} {S T : Tree}

theorem dimensions_eq (hT : t.unfold h = .ok T) : t.dimensions h = .ok T.dims := by
  obtain ⟨b, hb, -⟩ := stripWithin_eq hT (dims_lt_walkBudget hT)
  simp [dimensions, hb]

/-- A walk through the layers of an array counts no further than 32 bits go. -/
theorem dims_lt_size (ht : Layered t) (hT : t.unfold h = .ok T) : T.dims < UInt32.size :=
  calc T.dims
    _ < t.walkBudget := dims_lt_walkBudget hT
    _ ≤ capacity + 1 := Nat.succ_le_succ ht.bounded
    _ = UInt32.size := rfl

theorem conversionOperator_answered (ht : Layered t) (hc : Closed t)
    (hS : t.unfold source = .ok S) (hT : t.unfold target = .ok T) :
    Answered (t.conversionOperator r source target) := by
  obtain ⟨convertible, hconv, -⟩ := isJsonConvertible_decides ht hc r hS
  rw [conversionOperator_eq hS hT hconv]
  cases S.conversionRule convertible T with
  | none => exact ⟨_, rfl⟩
  | converting opcode => exact ⟨_, rfl⟩
  | registered => exact ⟨_, lookup_eq ht r .conversion hS hT⟩

theorem castOperator_answered (ht : Layered t) (hc : Closed t) (hS : t.unfold source = .ok S)
    (hT : t.unfold target = .ok T)
    (hok : ¬(S ≠ T ∧ (T.kind = .nominal .enum ∨ T.kind = .basic .error))) :
    Answered (t.castOperator r names source target) := by
  obtain ⟨m, hm⟩ := structsMatch_answers ht hc hS hT
  rw [castOperator_eq ht names hS hT hm]
  cases hrule : S.castRule m T with
  | graded grade => exact ⟨_, rfl⟩
  | registered => exact ⟨_, lookup_eq ht r .cast hS hT⟩
  | impossible => exact absurd (Tree.castRule_eq_impossible.mp hrule) hok

theorem castOperator_fault (ht : Layered t) (hc : Closed t) (hn : t.Named names)
    (hS : t.unfold source = .ok S) (hT : t.unfold target = .ok T)
    (hbad : S ≠ T ∧ (T.kind = .nominal .enum ∨ T.kind = .basic .error)) :
    t.castOperator r names source target = .error (.noCastInto (S.text (t.spelling names))
      (T.text (t.spelling names)) T.kind) := by
  obtain ⟨m, hm⟩ := structsMatch_answers ht hc hS hT
  rw [castOperator_eq ht names hS hT hm, Tree.castRule_eq_impossible.mpr hbad]
  simp only [render_eq ht hc hn hS, render_eq ht hc hn hT, bind_ok]
  rfl

/-- The only fault is that no cast can go into the target. -/
theorem castOperator_error_iff (ht : Layered t) (hc : Closed t) (hn : t.Named names)
    (hS : t.unfold source = .ok S) (hT : t.unfold target = .ok T) (fault : Fault) :
    t.castOperator r names source target = .error fault ↔
      (S ≠ T ∧ (T.kind = .nominal .enum ∨ T.kind = .basic .error)) ∧
        fault = .noCastInto (S.text (t.spelling names)) (T.text (t.spelling names)) T.kind := by
  by_cases hbad : S ≠ T ∧ (T.kind = .nominal .enum ∨ T.kind = .basic .error)
  · rw [castOperator_fault ht hc hn hS hT hbad, Except.error.injEq, eq_comm, and_iff_right hbad]
  · obtain ⟨operator, hok⟩ : Answered (t.castOperator r names source target) :=
      castOperator_answered ht hc hS hT hbad
    rw [hok]
    exact iff_of_false (fun h => nomatch h) (fun h => hbad h.1)

end TypeTable

structure Checker.Complete (c : Checker) : Prop where
  layered : c.types.Layered
  closed : c.types.Closed
  named : c.types.Named c.names

namespace Checker

variable {c : Checker} {a b h : Handle} {A B T : Tree}

theorem render_answered (hc : c.Complete) (hT : c.types.unfold h = .ok T) :
    Answered (c.render h) :=
  ⟨_, TypeTable.render_eq hc.layered hc.closed hc.named hT⟩

theorem texts_answered {α : Type} (hc : c.Complete) (ha : c.types.unfold a = .ok A)
    (hb : c.types.unfold b = .ok B) (f : String → String → α) :
    Answered (do return f (← c.render a) (← c.render b)) := by
  apply (render_answered hc ha).bind
  intro text _
  apply (render_answered hc hb).bind
  intro text' _
  exact ⟨_, rfl⟩

theorem checkType_answered (hc : c.Complete) (ha : c.types.unfold a = .ok A)
    (hb : c.types.unfold b = .ok B) (span : Span) (code : Code) :
    Answered (c.checkType span a b code) := by
  rw [checkType_eq hc.layered ha hb]
  split
  · exact ⟨_, rfl⟩
  split
  · exact ⟨_, rfl⟩
  · exact texts_answered hc hb ha _

theorem attachCast_answered (hc : c.Complete) (ha : c.types.unfold a = .ok A)
    (hb : c.types.unfold b = .ok B) (e : Expression) : Answered (c.attachCast e a b) := by
  apply Answered.bind ⟨_, TypeTable.lookup_eq hc.layered c.operators .implicitCast ha hb⟩
  intro operator _
  cases operator with
  | none => exact ⟨_, rfl⟩
  | some operator => exact ⟨_, rfl⟩

theorem checkExpression_answered {e : Expression} (hc : c.Complete)
    (ha : c.types.unfold e.type = .ok A) (hb : c.types.unfold b = .ok B) (code : Code) :
    Answered (c.checkExpression e b code) := by
  apply (checkType_answered hc ha hb e.span code).bind
  intro checked hchecked
  have hkind : Answered (c.types.kind checked.value) := by
    rcases checkType_value hc.layered (TypeTable.has_of_unfold ha) hchecked with hsame | herror
    · exact ⟨_, by rw [hsame, TypeTable.kind_eq ha]⟩
    · exact ⟨_, herror⟩
  apply hkind.bind
  intro kind _
  split
  · exact ⟨_, rfl⟩
  · apply (attachCast_answered hc ha hb _).bind
    intro e' _
    exact ⟨_, rfl⟩

def castReport (c : Checker) (span : Span) (source target : Handle) :
    Option Operator → Except Fault (Reported (Option Operator))
  | none => do
    let finding := Finding.invalidCast span c.policy.castCode (← c.render source)
      (← c.render target)
    return { value := none, reports := [finding.toDiagnostic] }
  | some op =>
    if !op.safe && c.policy.warnOnRiskyCast then do
      let finding := Finding.riskyCast span (← c.render source) (← c.render target)
      return { value := some op, reports := [finding.toDiagnostic] }
    else return { value := some op }

/-- The operator is asked for except where that would fail: the error type is passed over, and
an enum is known to have no cast from another type. -/
theorem resolveCast_eq (ha : c.types.unfold a = .ok A) (hb : c.types.unfold b = .ok B)
    (span : Span) :
    c.resolveCast span a b =
      if A.kind = .basic .error ∨ B.kind = .basic .error then .ok { value := none }
      else if A ≠ B ∧ B.kind = .nominal .enum then c.castReport span a b none
      else c.types.castOperator c.operators c.names a b >>= c.castReport span a b := by
  simp only [resolveCast, TypeTable.kind_eq ha, TypeTable.kind_eq hb, TypeTable.identical_eq ha hb,
    bind_ok, Bool.or_eq_true, decide_eq_true_eq]
  by_cases herror : A.kind = .basic .error ∨ B.kind = .basic .error
  · rw [if_pos herror, if_pos herror]
    rfl
  rw [if_neg herror, if_neg herror]
  by_cases henum : B.kind = .nominal .enum
  · by_cases hAB : A = B
    · have hkeep : c.types.castOperator c.operators c.names a b = .ok (some (.keep a b)) := by
        simp [TypeTable.castOperator, TypeTable.identical_eq ha hb, hAB]
      rw [if_pos henum, if_pos hAB, if_neg (fun h => h.1 hAB), hkeep]
      rfl
    · rw [if_pos henum, if_neg hAB, if_pos ⟨hAB, henum⟩]
      rfl
  · rw [if_neg henum, if_neg (fun h => henum h.2)]
    congr 1

theorem castReport_answered (hc : c.Complete) (ha : c.types.unfold a = .ok A)
    (hb : c.types.unfold b = .ok B) (span : Span) (operator : Option Operator) :
    Answered (c.castReport span a b operator) := by
  cases operator with
  | none => exact texts_answered hc ha hb _
  | some op =>
    simp only [castReport]
    split
    · exact texts_answered hc ha hb _
    · exact ⟨_, rfl⟩

theorem resolveCast_answered (hc : c.Complete) (ha : c.types.unfold a = .ok A)
    (hb : c.types.unfold b = .ok B) (span : Span) : Answered (c.resolveCast span a b) := by
  rw [resolveCast_eq ha hb]
  split_ifs with herror henum
  · exact ⟨_, rfl⟩
  · exact castReport_answered hc ha hb span none
  · have hlegal : ¬(A ≠ B ∧ (B.kind = .nominal .enum ∨ B.kind = .basic .error)) := by
      rintro ⟨hne, hkind | hkind⟩
      · exact henum ⟨hne, hkind⟩
      · exact herror (.inr hkind)
    apply (TypeTable.castOperator_answered hc.layered hc.closed ha hb hlegal).bind
    intro operator _
    exact castReport_answered hc ha hb span operator

theorem resolveConversion_answered (hc : c.Complete) (ha : c.types.unfold a = .ok A)
    (hb : c.types.unfold b = .ok B) (span : Span) : Answered (c.resolveConversion span a b) := by
  unfold resolveConversion
  rw [TypeTable.kind_eq ha, TypeTable.kind_eq hb]
  simp only [bind_ok]
  split
  · exact ⟨_, rfl⟩
  split
  · exact ⟨_, rfl⟩
  apply (TypeTable.conversionOperator_answered hc.layered hc.closed ha hb).bind
  intro operator _
  cases operator with
  | some operator => exact ⟨_, rfl⟩
  | none => exact texts_answered hc ha hb _

theorem checkConstraint_answered (hc : c.Complete) (ha : c.types.unfold a = .ok A) (span : Span) :
    Answered (c.checkConstraint span a) := by
  have hfits : Decides (c.types.isJsonCompatible c.operators a) _ :=
    TypeTable.fitsUse_decides hc.layered hc.closed (TypeTable.has_of_unfold ha)
  unfold checkConstraint
  rw [TypeTable.kind_eq ha]
  simp only [bind_ok]
  split
  · exact ⟨_, rfl⟩
  apply hfits.answered.bind
  intro fits _
  split
  · exact ⟨_, rfl⟩
  · apply (render_answered hc ha).bind
    intro text _
    exact ⟨_, rfl⟩

/-- None of the questions about the two types fails, whatever else they are asked with. Counting
dimensions does not overflow. -/
structure AnswersAbout (c : Checker) (a b : Handle) : Prop where
  identical : Answered (c.types.identical a b)
  canonical : Answered (c.types.canonical a)
  elementType : Answered (c.types.elementType a)
  dimensions : ∃ dims, c.types.dimensions a = .ok dims ∧ dims < UInt32.size
  render : Answered (c.render a)
  isAssignable : Answered (c.types.isAssignable a b)
  castsImplicitly : Answered (c.types.castsImplicitly c.operators a b)
  structsMatch : Answered (c.types.structsMatch a b)
  arraysMatch : Answered (c.types.arraysMatch a b)
  functionsMatch : Answered (c.types.functionsMatch a b)
  isJsonCompatible : Answered (c.types.isJsonCompatible c.operators a)
  isJsonConvertible : Answered (c.types.isJsonConvertible c.operators a)
  conversionOperator : Answered (c.types.conversionOperator c.operators a b)
  checkType : ∀ span code, Answered (c.checkType span a b code)
  checkExpression : ∀ span casts code, Answered (c.checkExpression ⟨span, a, casts⟩ b code)
  resolveCast : ∀ span, Answered (c.resolveCast span a b)
  resolveConversion : ∀ span, Answered (c.resolveConversion span a b)
  checkConstraint : ∀ span, Answered (c.checkConstraint span a)

theorem answersAbout (hc : c.Complete) (ha : c.types.unfold a = .ok A)
    (hb : c.types.unfold b = .ok B) : c.AnswersAbout a b := by
  have hfits (use : JsonUse) : Answered (c.types.fitsUse c.operators use a) :=
    (TypeTable.fitsUse_decides hc.layered hc.closed (TypeTable.has_of_unfold ha)).answered
  obtain ⟨base, hbase, -⟩ := TypeTable.elementType_eq ha
  exact {
    identical := ⟨_, TypeTable.identical_eq ha hb⟩
    canonical := ⟨_, TypeTable.canonical_eq hc.layered ha⟩
    elementType := ⟨base, hbase⟩
    dimensions := ⟨_, TypeTable.dimensions_eq ha, TypeTable.dims_lt_size hc.layered ha⟩
    render := render_answered hc ha
    isAssignable := ⟨_, TypeTable.isAssignable_eq ha hb⟩
    castsImplicitly := ⟨_, TypeTable.castsImplicitly_eq hc.layered c.operators ha hb⟩
    structsMatch := TypeTable.structsMatch_answers hc.layered hc.closed ha hb
    arraysMatch := ⟨_, TypeTable.arraysMatch_eq ha hb⟩
    functionsMatch := (TypeTable.functionsMatch_decides ha hb).answered
    isJsonCompatible := hfits .constraint
    isJsonConvertible := hfits .conversion
    conversionOperator := TypeTable.conversionOperator_answered hc.layered hc.closed ha hb
    checkType := checkType_answered hc ha hb
    checkExpression := fun _ _ => checkExpression_answered hc ha hb
    resolveCast := resolveCast_answered hc ha hb
    resolveConversion := resolveConversion_answered hc ha hb
    checkConstraint := checkConstraint_answered hc ha }

/-- If the names of all declarations were given out by the checker's pool, then only the
question for a cast into an enum or the error type can fail. It fails unless the source is
identical to the target, and says which cast was asked for. -/
theorem only_impossible_casts_fault (ht : c.types.Reachable)
    (hn : ∀ d ∈ c.types.declarations, c.names.Interned d.name) (ha : c.types.Has a)
    (hb : c.types.Has b) :
    c.AnswersAbout a b ∧
    ((∃ fault, c.types.castOperator c.operators c.names a b = .error fault) ↔
      (c.types.kind b = .ok (.nominal .enum) ∨ c.types.kind b = .ok (.basic .error)) ∧
        c.types.identical a b = .ok false) ∧
    ∀ fault, c.types.castOperator c.operators c.names a b = .error fault →
      ∃ source target kind, c.render a = .ok source ∧ c.render b = .ok target ∧
        c.types.kind b = .ok kind ∧ fault = .noCastInto source target kind := by
  have hc : c.Complete := {
    layered := TypeTable.reachable_layered ht
    closed := TypeTable.reachable_closed ht
    named := TypeTable.named_of_interned hn }
  obtain ⟨A, hA⟩ := TypeTable.layered_unfold hc.layered ha
  obtain ⟨B, hB⟩ := TypeTable.layered_unfold hc.layered hb
  have hfault :=
    TypeTable.castOperator_error_iff (r := c.operators) hc.layered hc.closed hc.named hA hB
  refine ⟨answersAbout hc hA hB, ?_, ?_⟩
  · simp only [hfault, TypeTable.kind_eq hB, (TypeTable.identical_decides hA hB).eq_false_iff,
      Except.ok.injEq, exists_and_left, exists_eq, and_true]
    exact and_comm
  · intro fault h
    obtain ⟨-, rfl⟩ := (hfault fault).mp h
    exact ⟨_, _, _, TypeTable.render_eq hc.layered hc.closed hc.named hA,
      TypeTable.render_eq hc.layered hc.closed hc.named hB, TypeTable.kind_eq hB, rfl⟩

def colorName : Name := .ofParts (Pool.shardOf "Color") 0
def pixelName : Name := .ofParts (Pool.shardOf "Pixel") 0

def palette : Checker where
  types := TypeTable.initial.grow [.enum colorName [], .alloc (.nominal .enum ⟨0⟩),
    .struct pixelName [⟨.empty, ⟨14⟩, {}⟩]]
  operators := .builtin
  names := (Pool.initial.put (Pool.shardOf "Color") "Color").put (Pool.shardOf "Pixel") "Pixel"

theorem palette_interned : ∀ d ∈ palette.types.declarations, palette.names.Interned d.name := by
  obtain ⟨log, hlog⟩ := Pool.initial_run
  have hcolor : Pool.initial.intern "Color" =
      .ok (colorName, Pool.initial.put (Pool.shardOf "Color") "Color") := by
    decide +kernel
  have hpixel : (Pool.initial.put (Pool.shardOf "Color") "Color").intern "Pixel" =
      .ok (pixelName, palette.names) := by
    decide +kernel
  have hrun := (hlog.intern hcolor).intern hpixel
  have hnames : ∀ d ∈ palette.types.declarations, d.name = pixelName ∨ d.name = colorName := by
    decide +kernel
  intro d hd
  rcases hnames d hd with hname | hname
  · exact ⟨_, "Pixel", hrun, hname ▸ .head _⟩
  · exact ⟨_, "Color", hrun, hname ▸ .tail _ (.head _)⟩

theorem palette_casts_into_enum :
    Answered (palette.resolveCast ⟨0, 1⟩ ⟨16⟩ ⟨14⟩) ∧
    palette.types.castOperator palette.operators palette.names ⟨16⟩ ⟨14⟩ =
      .error (.noCastInto "Pixel" "Color" (.nominal .enum)) ∧
    ¬∃ fault, palette.types.castOperator palette.operators palette.names ⟨15⟩ ⟨14⟩ =
      .error fault := by
  have ht : palette.types.Reachable := TypeTable.reachable_grow .refl _
  have hhas : palette.types.Has ⟨14⟩ ∧ palette.types.Has ⟨15⟩ ∧ palette.types.Has ⟨16⟩ := by
    decide +kernel
  obtain ⟨hanswers, hfaults, htexts⟩ :=
    only_impossible_casts_fault ht palette_interned hhas.2.2 hhas.1
  obtain ⟨-, hcopy, -⟩ := only_impossible_casts_fault ht palette_interned hhas.2.1 hhas.1
  obtain ⟨fault, hfault⟩ := hfaults.mpr ⟨.inl (by decide +kernel), by decide +kernel⟩
  obtain ⟨source, target, kind, hsource, htarget, hkind, rfl⟩ := htexts fault hfault
  have hpixel : palette.render ⟨16⟩ = .ok "Pixel" := by decide +kernel
  have hcolor : palette.render ⟨14⟩ = .ok "Color" := by decide +kernel
  have henum : palette.types.kind ⟨14⟩ = .ok (.nominal .enum) := by decide +kernel
  have hsame : palette.types.identical ⟨15⟩ ⟨14⟩ = .ok true := by decide +kernel
  obtain rfl := Except.ok.inj (hpixel.symm.trans hsource)
  obtain rfl := Except.ok.inj (hcolor.symm.trans htarget)
  obtain rfl := Except.ok.inj (henum.symm.trans hkind)
  refine ⟨hanswers.resolveCast _, hfault, fun h => ?_⟩
  have hdiffer := (hcopy.mp h).2
  rw [hsame] at hdiffer
  cases hdiffer

end Checker

end TypeConformance
