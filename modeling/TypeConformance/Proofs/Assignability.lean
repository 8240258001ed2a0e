import TypeConformance.Proofs.Decision

/-! # Assignability and comparisons of types

The rules of assignability for functions, arrays and kinds without components add nothing to
identity. What is left are four clauses, which make it a preorder: identical types, the error type
as a target, `null` into references, and `json` into plain `json`.

Three comparisons are written in another way than identity and come to the same. Types without
components have one canonical handle for all their copies, so handles can be compared instead;
arrays are compared layer by layer; functions are compared by their signatures.
-/
namespace TypeConformance

namespace Tree

variable {A B C : Tree}

theorem assignable_iff : A.assignable B = true ↔
    A = B ∨ B = basic .error ∨ (A = basic .null ∧ B.kind.isValue = false) ∨
      (A.kind = .json ∧ B = plainJson) := by
  simp [assignable, or_assoc]

theorem assignable_refl (A : Tree) : A.assignable A = true :=
  assignable_iff.mpr (.inl rfl)

theorem assignable_trans (hab : A.assignable B = true) (hbc : B.assignable C = true) :
    A.assignable C = true := by
  rcases assignable_iff.mp hbc with rfl | rfl | ⟨rfl, hval⟩ | ⟨hjson, rfl⟩
  · exact hab
  · exact assignable_iff.mpr (.inr (.inl rfl))
  · rcases assignable_iff.mp hab with rfl | herr | ⟨rfl, -⟩ | ⟨-, hplain⟩
    · exact hbc
    · cases herr
    · exact hbc
    · cases hplain
  · rcases assignable_iff.mp hab with rfl | rfl | ⟨rfl, -⟩ | ⟨hA, -⟩
    · exact hbc
    · cases hjson
    · exact assignable_iff.mpr (.inr (.inr (.inl ⟨rfl, rfl⟩)))
    · exact assignable_iff.mpr (.inr (.inr (.inr ⟨hA, rfl⟩)))

end Tree

namespace TypeTable

variable {t : TypeTable} {a e h : Handle} {A E T : Tree}

theorem kind_iff {kind : Kind} (hT : t.unfold h = .ok T) : t.kind h = .ok kind ↔ T.kind = kind := by
  rw [kind_eq hT, Except.ok.injEq]

theorem plainJson_iff (hT : t.unfold h = .ok T) :
    (∃ c, t.jsonConstraint? h = .ok (some c) ∧ t.kind c = .ok (.basic .none)) ↔
      T = .plainJson := by
  rcases jsonConstraint?_cases hT with ⟨c, C, rfl, hc, hC⟩ | ⟨hk, hc⟩
  · simp [hc, kind_iff hC, Tree.plainJson]
  · constructor
    · rintro ⟨c, hsome, -⟩
      cases hc.symm.trans hsome
    · rintro rfl
      exact absurd rfl hk

theorem isAssignable_decides (ha : t.unfold a = .ok A) (he : t.unfold e = .ok E) :
    Decides (t.isAssignable a e)
      (t.identical a e = .ok true ∨ t.kind e = .ok (.basic .error) ∨
        (t.kind a = .ok (.basic .null) ∧ t.isValue e = .ok false) ∨
        (t.kind a = .ok .json ∧
          ∃ c, t.jsonConstraint? e = .ok (some c) ∧ t.kind c = .ok (.basic .none))) := by
  refine ⟨_, isAssignable_eq ha he, ?_⟩
  rw [Tree.assignable_iff, plainJson_iff he, kind_iff ha, kind_iff ha, kind_iff he, isValue_eq he,
    (identical_decides ha he).eq_true_iff, Tree.kind_eq_basic, Tree.kind_eq_basic, Except.ok.injEq]

/-- Whatever declarations the shapes refer to, assignability is answered by four clauses, and it
is reflexive and transitive. -/
theorem assignability_is_four_clause_preorder
    (ht : Growth (fun t op => op.HandlesIn t) initial t) :
    (∀ a e, t.Has a → t.Has e → Decides (t.isAssignable a e)
      (t.identical a e = .ok true ∨ t.kind e = .ok (.basic .error) ∨
        (t.kind a = .ok (.basic .null) ∧ t.isValue e = .ok false) ∨
        (t.kind a = .ok .json ∧
          ∃ c, t.jsonConstraint? e = .ok (some c) ∧ t.kind c = .ok (.basic .none)))) ∧
    (∀ a, t.Has a → t.isAssignable a a = .ok true) ∧
    (∀ a b c, t.Has a → t.Has b → t.Has c → t.isAssignable a b = .ok true →
      t.isAssignable b c = .ok true → t.isAssignable a c = .ok true) := by
  have hl := growth_preserves_layered ht initial_layered
  refine ⟨?_, ?_, ?_⟩
  · intro a e ha he
    obtain ⟨A, hA⟩ := layered_unfold hl ha
    obtain ⟨E, hE⟩ := layered_unfold hl he
    exact isAssignable_decides hA hE
  · intro a ha
    obtain ⟨A, hA⟩ := layered_unfold hl ha
    rw [isAssignable_eq hA hA, Tree.assignable_refl]
  · intro a b c ha hb hc hab hbc
    obtain ⟨A, hA⟩ := layered_unfold hl ha
    obtain ⟨B, hB⟩ := layered_unfold hl hb
    obtain ⟨C, hC⟩ := layered_unfold hl hc
    rw [isAssignable_eq hA hB, Except.ok.injEq] at hab
    rw [isAssignable_eq hB hC, Except.ok.injEq] at hbc
    rw [isAssignable_eq hA hC, Tree.assignable_trans hab hbc]

def documents : TypeTable :=
  initial.grow [.declareStruct ⟨1⟩, .json ⟨14⟩, .alloc (.json ⟨12⟩)]

theorem documents_assignable_through_copy :
    documents.isAssignable ⟨15⟩ ⟨16⟩ = .ok true ∧ documents.isAssignable ⟨15⟩ ⟨8⟩ = .ok true := by
  have ht : Growth (fun t op => op.HandlesIn t) initial documents :=
    (reachable_grow .refl _).mono fun _ _ hw => hw.1
  have hhas : documents.Has ⟨15⟩ ∧ documents.Has ⟨16⟩ ∧ documents.Has ⟨8⟩ := by decide +kernel
  obtain ⟨hclauses, -, htrans⟩ := assignability_is_four_clause_preorder ht
  have hplain : documents.isAssignable ⟨15⟩ ⟨16⟩ = .ok true :=
    (hclauses ⟨15⟩ ⟨16⟩ hhas.1 hhas.2.1).eq_true_iff.mpr
      (.inr (.inr (.inr ⟨by decide +kernel, ⟨12⟩, by decide +kernel, by decide +kernel⟩)))
  have hcopy : documents.isAssignable ⟨16⟩ ⟨8⟩ = .ok true :=
    (hclauses ⟨16⟩ ⟨8⟩ hhas.2.1 hhas.2.2).eq_true_iff.mpr (.inl (by decide +kernel))
  exact ⟨hplain, htrans ⟨15⟩ ⟨16⟩ ⟨8⟩ hhas.1 hhas.2.1 hhas.2.2 hplain hcopy⟩

/-- Not an array, a nominal type, a function or `json` with a constraint. -/
structure ComponentFree (t : TypeTable) (h : Handle) : Prop where
  notArray : t.kind h ≠ .ok .array
  notNominal : ∀ n, t.kind h ≠ .ok (.nominal n)
  notFunction : t.kind h ≠ .ok .function
  unconstrained : ∀ c, t.jsonConstraint? h = .ok (some c) → t.kind c = .ok (.basic .none)

variable {b k : Handle} {B : Tree}

theorem componentFree_iff (hT : t.unfold h = .ok T) :
    t.ComponentFree h ↔ ∃ k, T.builtin? = some k := by
  constructor
  · intro hfree
    cases T with
    | basic b => exact ⟨b.handle, rfl⟩
    | json C =>
      rcases jsonConstraint?_cases hT with ⟨c, C, ⟨⟩, hc, hC⟩ | ⟨hk, -⟩
      · obtain rfl := Tree.kind_eq_basic.mp ((kind_iff hC).mp (hfree.unconstrained c hc))
        exact ⟨Handle.json, rfl⟩
      · exact absurd rfl hk
    | array E => exact absurd (kind_eq hT) hfree.notArray
    | nominal n d => exact absurd (kind_eq hT) (hfree.notNominal n)
    | function ps rs => exact absurd (kind_eq hT) hfree.notFunction
  · rintro ⟨k, hk⟩
    -- A copy of a built-in type has the kind of a basic type or of `json`.
    have hkind (kind : Kind) (hbasic : ∀ b, kind ≠ .basic b) (hjson : kind ≠ .json) :
        t.kind h ≠ .ok kind := by
      rw [ne_eq, kind_iff hT]
      rcases Tree.builtin?_eq_some hk with ⟨b, rfl, -⟩ | ⟨rfl, -⟩
      · exact (hbasic b).symm
      · exact hjson.symm
    refine ⟨hkind _ (by simp) (by simp), fun n => hkind _ (by simp) (by simp),
      hkind _ (by simp) (by simp), ?_⟩
    intro c hc
    rcases jsonConstraint?_cases hT with ⟨c', C, rfl, hc', hC⟩ | ⟨-, hnone⟩
    · cases hc.symm.trans hc'
      rcases Tree.builtin?_eq_some hk with ⟨b, hbasic, -⟩ | ⟨hplain, -⟩
      · cases hbasic
      · cases hplain
        exact kind_eq hC
    · cases hc.symm.trans hnone

theorem canonical_canonical (ht : Layered t) (hT : t.unfold h = .ok T) :
    t.canonical (T.canonical h) = .ok (T.canonical h) := by
  rw [canonical_eq ht (unfold_canonical ht hT)]
  cases hk : T.builtin? with
  | none => simp [Tree.canonical, hk]
  | some k => simp [Tree.canonical, hk]

theorem eq_of_canonical_eq (ht : Layered t) (ha : t.unfold a = .ok A) (hb : t.unfold b = .ok B)
    (heq : A.canonical a = B.canonical b) : A = B := by
  have hA := unfold_canonical ht ha
  rw [heq, unfold_canonical ht hb] at hA
  exact (Except.ok.inj hA).symm

/-- The canonical handle stands for an identical type, and is its own canonical handle. Types with
the same canonical handle are identical. For a type without components this can be turned round,
and the handle is built in; any other type keeps its handle. -/
theorem canonical_is_normal_form (ht : Growth (fun t op => op.HandlesIn t) initial t)
    (ha : t.Has a) (hb : t.Has b) :
    ∃ c d, t.canonical a = .ok c ∧ t.canonical b = .ok d ∧
      t.identical c a = .ok true ∧ t.canonical c = .ok c ∧
      (c = d → t.identical a b = .ok true) ∧
      (t.ComponentFree a → Decides (t.identical a b) (c = d) ∧ c.isBuiltin = true) ∧
      (¬t.ComponentFree a → c = a) := by
  have hl := growth_preserves_layered ht initial_layered
  obtain ⟨A, hA⟩ := layered_unfold hl ha
  obtain ⟨B, hB⟩ := layered_unfold hl hb
  have hsame (heq : A.canonical a = B.canonical b) : A = B := eq_of_canonical_eq hl hA hB heq
  refine ⟨_, _, canonical_eq hl hA, canonical_eq hl hB, ?_, canonical_canonical hl hA, ?_, ?_, ?_⟩
  · rw [identical_eq (unfold_canonical hl hA) hA, decide_eq_true rfl]
  · intro heq
    exact (identical_decides hA hB).eq_true_iff.mpr (hsame heq)
  · intro hfree
    obtain ⟨k, hk⟩ := (componentFree_iff hA).mp hfree
    refine ⟨(identical_decides hA hB).congr ⟨?_, hsame⟩, ?_⟩
    · rintro rfl
      simp [Tree.canonical, hk]
    · simpa [Tree.canonical, hk] using Tree.isBuiltin_of_builtin? hk
  · intro hfree
    have hnone : A.builtin? = none := by
      rw [Option.eq_none_iff_forall_ne_some]
      exact fun k hk => hfree ((componentFree_iff hA).mpr ⟨k, hk⟩)
    simp [Tree.canonical, hnone]

def copiedNone : TypeTable :=
  initial.grow [.alloc (.basic .none), .alloc (.json ⟨14⟩), .json ⟨15⟩]

theorem copiedNone_json_canonical :
    copiedNone.ComponentFree ⟨15⟩ ∧ copiedNone.identical ⟨15⟩ Handle.json = .ok true ∧
      copiedNone.canonical ⟨15⟩ = .ok Handle.json ∧ copiedNone.canonical ⟨16⟩ = .ok ⟨16⟩ ∧
      copiedNone.identical ⟨15⟩ ⟨16⟩ = .ok false := by
  have ht : Growth (fun t op => op.HandlesIn t) initial copiedNone :=
    (reachable_grow .refl _).mono fun _ _ hw => hw.1
  have hhas : copiedNone.Has ⟨15⟩ ∧ copiedNone.Has ⟨16⟩ ∧ copiedNone.Has Handle.json := by
    decide +kernel
  have hkind : copiedNone.kind ⟨15⟩ = .ok .json := by decide +kernel
  have hnone : copiedNone.kind ⟨14⟩ = .ok (.basic .none) := by decide +kernel
  have hcanonical : copiedNone.canonical ⟨15⟩ = .ok Handle.json ∧
      copiedNone.canonical ⟨16⟩ = .ok ⟨16⟩ := by
    decide +kernel
  have hfree : copiedNone.ComponentFree ⟨15⟩ := by
    refine ⟨by simp [hkind], by simp [hkind], by simp [hkind], ?_⟩
    intro c hc
    have hconstraint : copiedNone.jsonConstraint? ⟨15⟩ = .ok (some ⟨14⟩) := by decide +kernel
    cases hc.symm.trans hconstraint
    exact hnone
  obtain ⟨c, d, hc, hd, -, hself, hsame, -⟩ := canonical_is_normal_form ht hhas.1 hhas.2.2
  obtain ⟨c', d', hc', hd', -, -, -, hexact, -⟩ := canonical_is_normal_form ht hhas.1 hhas.2.1
  cases hcanonical.1.symm.trans hc
  cases hself.symm.trans hd
  cases hcanonical.1.symm.trans hc'
  cases hcanonical.2.symm.trans hd'
  exact ⟨hfree, hsame rfl, hcanonical.1, hcanonical.2,
    (hexact hfree).1.eq_false_iff.mpr (by decide)⟩

/-- Comparing arrays layer by layer answers whether the types are identical, whether or not they
are arrays and however deep; comparing signatures answers whether two functions are. -/
theorem structural_comparisons_agree_with_identity
    (ht : Growth (fun t op => op.HandlesIn t) initial t) (ha : t.Has a) (hb : t.Has b) :
    SameAnswer (t.arraysMatch a b) (t.identical a b) ∧
    Decides (t.functionsMatch a b)
      (t.kind a = .ok .function ∧ t.kind b = .ok .function ∧ t.identical a b = .ok true) := by
  have hl := growth_preserves_layered ht initial_layered
  obtain ⟨A, hA⟩ := layered_unfold hl ha
  obtain ⟨B, hB⟩ := layered_unfold hl hb
  refine ⟨⟨_, arraysMatch_eq hA hB, identical_eq hA hB⟩, ?_⟩
  apply (functionsMatch_decides hA hB).congr
  rw [kind_iff hA, kind_iff hB, (identical_decides hA hB).eq_true_iff]
  constructor
  · rintro ⟨hk, rfl⟩
    exact ⟨hk, hk, rfl⟩
  · rintro ⟨hk, -, heq⟩
    exact ⟨hk, heq⟩

def copiedSignatures : TypeTable := initial.grow [
  .alloc (.json ⟨12⟩), .arrayOf ⟨14⟩ 2, .arrayOf Handle.json 2,
  .function [⟨16⟩] [⟨0⟩], .function [⟨18⟩] [⟨0⟩], .function [⟨17⟩] [⟨0⟩]]

theorem copiedSignatures_match :
    copiedSignatures.arraysMatch ⟨16⟩ ⟨18⟩ = .ok true ∧
      copiedSignatures.arraysMatch ⟨16⟩ ⟨17⟩ = .ok false ∧
      copiedSignatures.functionsMatch ⟨19⟩ ⟨20⟩ = .ok true ∧
      copiedSignatures.functionsMatch ⟨19⟩ ⟨21⟩ = .ok false ∧
      copiedSignatures.functionsMatch ⟨16⟩ ⟨18⟩ = .ok false := by
  have ht : Growth (fun t op => op.HandlesIn t) initial copiedSignatures :=
    (reachable_grow .refl _).mono fun _ _ hw => hw.1
  have hhas : ∀ i ∈ [16, 17, 18, 19, 20, 21], copiedSignatures.Has ⟨i⟩ := by decide +kernel
  have hagree {i j : Nat} (hi : i ∈ [16, 17, 18, 19, 20, 21])
      (hj : j ∈ [16, 17, 18, 19, 20, 21]) :=
    structural_comparisons_agree_with_identity ht (hhas i hi) (hhas j hj)
  have harrays : copiedSignatures.identical ⟨16⟩ ⟨18⟩ = .ok true ∧
      copiedSignatures.identical ⟨16⟩ ⟨17⟩ = .ok false := by
    decide +kernel
  have hfunctions : copiedSignatures.kind ⟨19⟩ = .ok .function ∧
      copiedSignatures.kind ⟨20⟩ = .ok .function ∧
      copiedSignatures.identical ⟨19⟩ ⟨20⟩ = .ok true ∧
      copiedSignatures.identical ⟨19⟩ ⟨21⟩ = .ok false ∧
      copiedSignatures.kind ⟨16⟩ = .ok .array := by
    decide +kernel
  refine ⟨?_, ?_, ?_, ?_, ?_⟩
  · obtain ⟨answer, hmatch, hsame⟩ := (hagree (i := 16) (j := 18) (by simp) (by simp)).1
    rw [hmatch, ← hsame, harrays.1]
  · obtain ⟨answer, hmatch, hsame⟩ := (hagree (i := 16) (j := 17) (by simp) (by simp)).1
    rw [hmatch, ← hsame, harrays.2]
  · exact (hagree (by simp) (by simp)).2.eq_true_iff.mpr
      ⟨hfunctions.1, hfunctions.2.1, hfunctions.2.2.1⟩
  · apply (hagree (by simp) (by simp)).2.eq_false_iff.mpr
    simp [hfunctions.2.2.2.1]
  · apply (hagree (by simp) (by simp)).2.eq_false_iff.mpr
    simp [hfunctions.2.2.2.2]

end TypeTable

end TypeConformance
