import TypeConformance.Proofs.Assignability
import TypeConformance.Proofs.Casting

/-! # Structs that stand for other structs

A struct matches another one if its first fields cover the fields of the other in order. Matching
is a preorder, because assignability is one. A cast into a struct is safe exactly if the structs
match, so safe casts compose.
-/
namespace TypeConformance

def LeavesValue (x : Except Fault (Option Operator)) : Prop :=
  ∃ o, x = .ok (some o) ∧ o.safe = true ∧ o.opcode = .nop

theorem leavesValue_graded {source target : Handle} {grade : Option CastGrade} :
    LeavesValue (.ok (grade.map (CastGrade.operator source target))) ↔ grade = some .kept := by
  constructor
  · rintro ⟨o, ho, hsafe, -⟩
    obtain ⟨g, rfl, rfl⟩ := Option.map_eq_some_iff.mp (Except.ok.inj ho)
    cases g with
    | kept => rfl
    | tested => cases hsafe
  · rintro rfl
    exact ⟨_, rfl, rfl, rfl⟩

theorem Tree.castRule_into_struct (S : Tree) (fieldsMatch : Bool) {T : Tree}
    (hT : T.kind = .nominal .struct) :
    ∃ grade, S.castRule fieldsMatch T = .graded grade ∧
      (grade = some .kept ↔ S = T ∨ S.kind = .nominal .struct ∧ fieldsMatch = true) := by
  by_cases hST : S = T
  · exact ⟨some .kept, by simp [castRule, hST], by simp [hST]⟩
  cases T with
  | nominal n d =>
    cases hT
    by_cases hany : S = .basic .any
    · exact ⟨some .tested, by simp [castRule, hany], by simp [hany]⟩
    by_cases hstruct : S.kind = .nominal .struct
    · refine ⟨some (if fieldsMatch then .kept else .tested), ?_, ?_⟩
      · simp [castRule, hST, hany, hstruct]
      · cases fieldsMatch <;> simp [hST, hstruct]
    · exact ⟨none, by simp [castRule, hST, hany, hstruct], by simp [hST, hstruct]⟩
  | _ => cases hT

namespace TypeTable

/-- The first fields on the left stand for the fields on the right, by name and in order. -/
inductive Covers (t : TypeTable) : List Field → List Field → Prop where
  | rest {as} : Covers t as []
  | field {a e as es A E} : a.name = e.name → t.unfold a.type = .ok A → t.unfold e.type = .ok E →
      A.assignable E = true → Covers t as es → Covers t (a :: as) (e :: es)

variable {t : TypeTable} {r : Registry} {names : Pool} {a b c e : Handle} {as bs cs es : List Field}
  {A B : Tree}

theorem Covers.length_le (h : t.Covers as es) : es.length ≤ as.length := by
  induction h with
  | rest => exact Nat.zero_le _
  | field _ _ _ _ _ ih => exact Nat.succ_le_succ ih

theorem Covers.refl (ht : Layered t) (has : ∀ f ∈ as, t.Has f.type) : t.Covers as as := by
  induction as with
  | nil => exact .rest
  | cons f as ih =>
    obtain ⟨hf, hrest⟩ := List.forall_mem_cons.mp has
    obtain ⟨F, hF⟩ := layered_unfold ht hf
    exact .field rfl hF hF F.assignable_refl (ih hrest)

/-- By induction on the second step, which has no more fields than the first. -/
theorem Covers.trans (hab : t.Covers as bs) (hbc : t.Covers bs cs) : t.Covers as cs := by
  induction hbc generalizing as with
  | rest => exact .rest
  | field hname hB hC hassign _ ih =>
    cases hab with
    | field hname' hA hB' hassign' hab =>
      cases hB.symm.trans hB'
      apply Covers.field (hname'.trans hname) hA hC
      · exact Tree.assignable_trans hassign' hassign
      · exact ih hab

theorem covers_cons {f g : Field} {F G : Tree} (hF : t.unfold f.type = .ok F)
    (hG : t.unfold g.type = .ok G) :
    t.Covers (f :: as) (g :: es) ↔
      (f.name = g.name ∧ F.assignable G = true) ∧ t.Covers as es := by
  constructor
  · intro h
    cases h with
    | field hname hF' hG' hassign hrest =>
      cases hF.symm.trans hF'
      cases hG.symm.trans hG'
      exact ⟨⟨hname, hassign⟩, hrest⟩
  · rintro ⟨⟨hname, hassign⟩, hrest⟩
    exact .field hname hF hG hassign hrest

theorem allPairs_covers (ht : Layered t) (has : ∀ f ∈ as, t.Has f.type)
    (hes : ∀ f ∈ es, t.Has f.type) (hlen : es.length ≤ as.length) :
    Decides (allPairs
      (fun e a => if e.name = a.name then t.isAssignable a.type e.type else return false) es as)
      (t.Covers as es) := by
  induction es generalizing as with
  | nil => exact .of_true rfl .rest
  | cons g es ih =>
    cases as with
    | nil => simp at hlen
    | cons f as =>
      obtain ⟨hf, has⟩ := List.forall_mem_cons.mp has
      obtain ⟨hg, hes⟩ := List.forall_mem_cons.mp hes
      obtain ⟨F, hF⟩ := layered_unfold ht hf
      obtain ⟨G, hG⟩ := layered_unfold ht hg
      have hfirst : Decides (if g.name = f.name then t.isAssignable f.type g.type else return false)
          (f.name = g.name ∧ F.assignable G = true) := by
        by_cases hname : g.name = f.name
        · exact ⟨_, by rw [if_pos hname, isAssignable_eq hF hG], by simp [hname]⟩
        · exact .of_false (by rw [if_neg hname]; rfl) fun h => hname h.1.symm
      have hrest := ih has hes (Nat.le_of_succ_le_succ hlen)
      exact (hfirst.and hrest).congr (covers_cons hF hG).symm

theorem structsMatch_decides (ht : Layered t) (hc : Closed t) (ha : t.unfold a = .ok A)
    (he : t.unfold e = .ok B) (hka : A.kind = .nominal .struct) (hke : B.kind = .nominal .struct)
    (has : t.structFields a = .ok as) (hes : t.structFields e = .ok es) :
    Decides (t.structsMatch a e) (t.Covers as es) := by
  obtain ⟨as', has', hhas⟩ := closed_structFields hc ha
  obtain ⟨es', hes', hhes⟩ := closed_structFields hc he
  cases has.symm.trans has'
  cases hes.symm.trans hes'
  by_cases hlen : as.length < es.length
  · refine .of_false ?_ fun h => Nat.not_le_of_lt hlen h.length_le
    simp [structsMatch, kind_eq ha, kind_eq he, hka, hke, has, hes, hlen]
  · have hpairs := allPairs_covers ht hhas hhes (Nat.le_of_not_lt hlen)
    simpa [structsMatch, kind_eq ha, kind_eq he, hka, hke, has, hes, hlen] using hpairs

theorem structsMatch_iff (ht : Layered t) (hc : Closed t) :
    t.structsMatch a e = .ok true ↔
      t.kind a = .ok (.nominal .struct) ∧ t.kind e = .ok (.nominal .struct) ∧
        ∃ as es, t.structFields a = .ok as ∧ t.structFields e = .ok es ∧ t.Covers as es := by
  have hdecides {as es : List Field} (hka : t.kind a = .ok (.nominal .struct))
      (hke : t.kind e = .ok (.nominal .struct)) (has : t.structFields a = .ok as)
      (hes : t.structFields e = .ok es) : Decides (t.structsMatch a e) (t.Covers as es) := by
    obtain ⟨A, hA⟩ := layered_unfold ht (has_of_kind hka)
    obtain ⟨E, hE⟩ := layered_unfold ht (has_of_kind hke)
    exact structsMatch_decides ht hc hA hE ((kind_iff hA).mp hka) ((kind_iff hE).mp hke) has hes
  constructor
  · intro h
    obtain ⟨kind, hka, hrest⟩ := bind_eq_ok.mp h
    split at hrest
    · cases hrest
    rename_i hstruct
    obtain ⟨kind', hke, hrest⟩ := bind_eq_ok.mp hrest
    split at hrest
    · cases hrest
    rename_i hstruct'
    obtain ⟨as, has, hrest⟩ := bind_eq_ok.mp hrest
    obtain ⟨es, hes, -⟩ := bind_eq_ok.mp hrest
    rw [Decidable.not_not.mp hstruct] at hka
    rw [Decidable.not_not.mp hstruct'] at hke
    exact ⟨hka, hke, as, es, has, hes, (hdecides hka hke has hes).eq_true_iff.mp h⟩
  · rintro ⟨hka, hke, as, es, has, hes, hcovers⟩
    exact (hdecides hka hke has hes).eq_true_iff.mpr hcovers

theorem structsMatch_refl (ht : Layered t) (hc : Closed t)
    (ha : t.kind a = .ok (.nominal .struct)) : t.structsMatch a a = .ok true := by
  obtain ⟨A, hA⟩ := layered_unfold ht (has_of_kind ha)
  obtain ⟨as, has, hhas⟩ := closed_structFields hc hA
  exact (structsMatch_iff ht hc).mpr ⟨ha, ha, as, as, has, has, .refl ht hhas⟩

theorem structsMatch_trans (ht : Layered t) (hc : Closed t) (hab : t.structsMatch a b = .ok true)
    (hbc : t.structsMatch b c = .ok true) : t.structsMatch a c = .ok true := by
  obtain ⟨hka, -, as, bs, has, hbs, hab⟩ := (structsMatch_iff ht hc).mp hab
  obtain ⟨-, hkc, bs', cs, hbs', hcs, hbc⟩ := (structsMatch_iff ht hc).mp hbc
  cases hbs.symm.trans hbs'
  exact (structsMatch_iff ht hc).mpr ⟨hka, hkc, as, cs, has, hcs, hab.trans hbc⟩

theorem leavesValue_into_struct (ht : Layered t) (hc : Closed t) (ha : t.Has a)
    (he : t.kind e = .ok (.nominal .struct)) :
    LeavesValue (t.castOperator r names a e) ↔ t.structsMatch a e = .ok true := by
  obtain ⟨A, hA⟩ := layered_unfold ht ha
  obtain ⟨E, hE⟩ := layered_unfold ht (has_of_kind he)
  obtain ⟨m, hm⟩ := structsMatch_answers ht hc hA hE
  obtain ⟨grade, hrule, hgrade⟩ := A.castRule_into_struct m ((kind_iff hE).mp he)
  rw [castOperator_eq ht names hA hE hm, hrule]
  dsimp only
  rw [leavesValue_graded, hgrade, hm, Except.ok.injEq]
  constructor
  · rintro (rfl | ⟨-, hmatch⟩)
    · have hself := structsMatch_refl ht hc he
      rw [← structsMatch_congr hA hE hE hE, hm] at hself
      exact Except.ok.inj hself
    · exact hmatch
  · rintro rfl
    obtain ⟨hka, -⟩ := (structsMatch_iff ht hc).mp hm
    exact .inr ⟨(kind_iff hA).mp hka, rfl⟩

/-- Every struct matches itself, and matches compose. So do casts into structs that leave the value
as it is, whatever operators are registered. -/
theorem struct_matching_is_preorder (ht : Reachable t) :
    (∀ a, t.kind a = .ok (.nominal .struct) → t.structsMatch a a = .ok true) ∧
    (∀ a b c, t.structsMatch a b = .ok true → t.structsMatch b c = .ok true →
      t.structsMatch a c = .ok true) ∧
    ∀ r names a b c, t.Has a → t.Has b → t.kind c = .ok (.nominal .struct) →
      LeavesValue (t.castOperator r names a b) → LeavesValue (t.castOperator r names b c) →
      LeavesValue (t.castOperator r names a c) := by
  have hl := reachable_layered ht
  have hc := reachable_closed ht
  refine ⟨fun a => structsMatch_refl hl hc, fun a b c => structsMatch_trans hl hc, ?_⟩
  intro r names a b c ha hb hkc hab hbc
  have hbc' := (leavesValue_into_struct hl hc hb hkc).mp hbc
  -- What matches a struct is a struct, so the first cast is one into a struct too.
  have hkb : t.kind b = .ok (.nominal .struct) := ((structsMatch_iff hl hc).mp hbc').1
  have hab' := (leavesValue_into_struct hl hc ha hkb).mp hab
  exact (leavesValue_into_struct hl hc ha hkc).mpr (structsMatch_trans hl hc hab' hbc')

def records : TypeTable := initial.grow [
  .declareStruct ⟨1⟩, .json ⟨14⟩,
  .struct ⟨2⟩ [⟨⟨4⟩, Basic.map.handle, {}⟩, ⟨⟨5⟩, Handle.json, {}⟩],
  .struct ⟨3⟩ [⟨⟨4⟩, Basic.error.handle, {}⟩],
  .defineFields ⟨14⟩
    [⟨⟨4⟩, Basic.null.handle, {}⟩, ⟨⟨5⟩, ⟨15⟩, {}⟩, ⟨⟨6⟩, Basic.int.handle, {}⟩]]

theorem records_match_downwards :
    records.structsMatch ⟨14⟩ ⟨14⟩ = .ok true ∧ records.structsMatch ⟨14⟩ ⟨17⟩ = .ok true ∧
    LeavesValue (records.castOperator .builtin .initial ⟨14⟩ ⟨17⟩) ∧
    records.structsMatch ⟨17⟩ ⟨14⟩ = .ok false := by
  have ht : Reachable records := reachable_grow .refl _
  obtain ⟨hrefl, htrans, hcasts⟩ := struct_matching_is_preorder ht
  have hhas : records.Has ⟨14⟩ ∧ records.Has ⟨16⟩ := by decide +kernel
  have hfirst : records.castOperator .builtin .initial ⟨14⟩ ⟨16⟩ =
      .ok (some (.keep ⟨14⟩ ⟨16⟩)) := by
    decide +kernel
  have hsecond : records.castOperator .builtin .initial ⟨16⟩ ⟨17⟩ =
      .ok (some (.keep ⟨16⟩ ⟨17⟩)) := by
    decide +kernel
  refine ⟨hrefl ⟨14⟩ (by decide +kernel), ?_, ?_, by decide +kernel⟩
  · exact htrans ⟨14⟩ ⟨16⟩ ⟨17⟩ (by decide +kernel) (by decide +kernel)
  · exact hcasts _ _ ⟨14⟩ ⟨16⟩ ⟨17⟩ hhas.1 hhas.2 (by decide +kernel) ⟨_, hfirst, rfl, rfl⟩
      ⟨_, hsecond, rfl, rfl⟩

end TypeTable

end TypeConformance
