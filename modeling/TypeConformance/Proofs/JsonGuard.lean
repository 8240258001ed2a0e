import Mathlib.Data.List.Nodup
import Mathlib.Data.List.Perm.Subperm
import TypeConformance.Operator
import TypeConformance.Proofs.JsonShape

/-! # The guard of the JSON checks

The check of a struct takes structs in progress for fit and keeps the results of others. In no
table does this change the answer: while all checks succeed, every finished struct leads only to
structs that were seen, and in the end those are all finished.
-/
namespace TypeConformance

def CheckGuard.Seen (g : CheckGuard) (h : Handle) : Prop :=
  h ∈ g.inProgress ∨ (h, true) ∈ g.finished

namespace TypeTable

variable (t : TypeTable) (r : Registry) (use : JsonUse)

/-- A guard as it is while all checks have succeeded. A finished struct may rest on structs that
are still in progress: they are seen, not settled. -/
structure SoundGuard (g : CheckGuard) : Prop where
  distinct : g.inProgress.Nodup
  known : ∀ h, g.Seen h → t.Has h
  settled : ∀ p ∈ g.finished, p.2 = true ∧ t.Settled r use g.Seen p.1

structure Extends (g g' : CheckGuard) : Prop where
  sound : t.SoundGuard r use g'
  inProgress : g'.inProgress = g.inProgress
  seen : ∀ s, g.Seen s → g'.Seen s

inductive Outcome (g : CheckGuard) (good : CheckGuard → Prop) (bad : Prop) :
    Bool × CheckGuard → Prop where
  | pass {g'} : t.Extends r use g g' → good g' → Outcome g good bad (true, g')
  | fail {g'} : bad → Outcome g good bad (false, g')

variable {t r use} {g g' : CheckGuard} {h owner : Handle}

theorem Extends.refl (hg : t.SoundGuard r use g) : t.Extends r use g g :=
  ⟨hg, rfl, fun _ hs => hs⟩

theorem Extends.trans {g₁ g₂ g₃ : CheckGuard} (h₁ : t.Extends r use g₁ g₂)
    (h₂ : t.Extends r use g₂ g₃) : t.Extends r use g₁ g₃ :=
  ⟨h₂.sound, h₂.inProgress.trans h₁.inProgress, fun s hs => h₂.seen s (h₁.seen s hs)⟩

theorem empty_sound : t.SoundGuard r use {} where
  distinct := List.nodup_nil
  known := by simp [CheckGuard.Seen]
  settled := by simp

theorem inProgress_length_le (hg : t.SoundGuard r use g) : g.inProgress.length ≤ t.slots.size := by
  have hinj : Function.Injective Handle.index := by
    rintro ⟨i⟩ ⟨j⟩ rfl
    rfl
  have hnodup : (g.inProgress.map Handle.index).Nodup := List.Nodup.map hinj hg.distinct
  have hsub : g.inProgress.map Handle.index ⊆ List.range t.slots.size := by
    intro i hi
    obtain ⟨h, hh, rfl⟩ := List.mem_map.mp hi
    exact List.mem_range.mpr (hg.known h (.inl hh))
  simpa using (List.subperm_of_subset hnodup hsub).length_le

theorem enter_sound (hg : t.SoundGuard r use g) (hh : t.Has h) (hnew : h ∉ g.inProgress) :
    t.SoundGuard r use (g.enter h) where
  distinct := List.nodup_cons.mpr ⟨hnew, hg.distinct⟩
  known := by
    rintro s (hs | hs)
    · rcases List.mem_cons.mp hs with rfl | hs
      · exact hh
      · exact hg.known s (.inl hs)
    · exact hg.known s (.inr hs)
  settled := by
    intro p hp
    obtain ⟨htrue, hset⟩ := hg.settled p hp
    exact ⟨htrue, hset.mono fun _ hs => hs.imp_left (List.mem_cons_of_mem h)⟩

theorem leave_extends (hg : t.SoundGuard r use g) (hext : t.Extends r use (g.enter h) g')
    (hset : t.Settled r use g'.Seen h) : t.Extends r use g (g'.leave h true) := by
  have hstack : g'.inProgress = h :: g.inProgress := hext.inProgress
  have hseen (s : Handle) (hs : g'.Seen s) : (g'.leave h true).Seen s := by
    rcases hs with hs | hs
    · rw [hstack] at hs
      rcases List.mem_cons.mp hs with rfl | hs
      · exact .inr List.mem_cons_self
      · exact .inl (by simpa [CheckGuard.leave, hstack] using hs)
    · exact .inr (List.mem_cons_of_mem _ hs)
  have htail : (g'.leave h true).inProgress = g.inProgress := by simp [CheckGuard.leave, hstack]
  refine ⟨⟨htail ▸ hg.distinct, ?_, ?_⟩, htail, ?_⟩
  · rintro s (hs | hs)
    · exact hg.known s (.inl (htail ▸ hs))
    · rcases List.mem_cons.mp hs with heq | hs
      · cases heq
        exact hext.sound.known _ (hext.seen _ (.inl List.mem_cons_self))
      · exact hext.sound.known s (.inr hs)
  · intro p hp
    rcases List.mem_cons.mp hp with rfl | hp
    · exact ⟨rfl, hset.mono hseen⟩
    · obtain ⟨htrue, hold⟩ := hext.sound.settled p hp
      exact ⟨htrue, hold.mono hseen⟩
  · intro s hs
    exact hseen s (hext.seen s (hs.imp_left (List.mem_cons_of_mem h)))

theorem scan_spec {visit : CheckGuard → Handle → Except Fault (Bool × CheckGuard)}
    {verdict : Handle → Except Fault FieldVerdict} {stack fields : List Handle}
    (hvisit : ∀ g s, t.SoundGuard r use g → g.inProgress = stack → t.Has s →
      ∃ x, visit g s = .ok x ∧ t.Outcome r use g (·.Seen s) (t.BadBelow r use s) x)
    (hverdict : ∀ f ∈ fields, ∃ v, verdict f = .ok v ∧ t.Judged r use owner f v)
    (hhas : ∀ f ∈ fields, t.Has f) (ht : Layered t)
    (hg : t.SoundGuard r use g) (hstack : g.inProgress = stack) :
    ∃ x, CheckGuard.scan visit verdict g fields = .ok x ∧
      t.Outcome r use g (fun g' => ∀ f ∈ fields, t.FieldSettled r use g'.Seen owner f)
        (∃ f ∈ fields, t.FieldFails r use owner f) x := by
  induction fields generalizing g with
  | nil => exact ⟨_, rfl, .pass (.refl hg) (by simp)⟩
  | cons field rest ih =>
    obtain ⟨v, hv, hj⟩ := hverdict field List.mem_cons_self
    -- Later fields only add to what is seen, so a field stays settled while they are scanned.
    have next {g' : CheckGuard} (hext : t.Extends r use g g')
        (hfield : t.FieldSettled r use g'.Seen owner field) :
        ∃ x, CheckGuard.scan visit verdict g' rest = .ok x ∧
          t.Outcome r use g
            (fun g' => ∀ f ∈ field :: rest, t.FieldSettled r use g'.Seen owner f)
            (∃ f ∈ field :: rest, t.FieldFails r use owner f) x := by
      obtain ⟨x, hx, hout⟩ := ih (fun f hf => hverdict f (List.mem_cons_of_mem _ hf))
        (fun f hf => hhas f (List.mem_cons_of_mem _ hf)) hext.sound (hext.inProgress.trans hstack)
      refine ⟨x, hx, ?_⟩
      cases hout with
      | pass hext' hrest =>
        exact .pass (hext.trans hext') (List.forall_mem_cons.mpr ⟨hfield.mono hext'.seen, hrest⟩)
      | fail hbad =>
        obtain ⟨f, hf, hbad⟩ := hbad
        exact .fail ⟨f, List.mem_cons_of_mem _ hf, hbad⟩
    cases hj with
    | fit hset =>
      obtain ⟨x, hx, hout⟩ := next (.refl hg) (hset.mono fun _ => False.elim)
      exact ⟨x, by simp [CheckGuard.scan, hv, hx], hout⟩
    | unfit hbad =>
      exact ⟨(false, g), by simp [CheckGuard.scan, hv],
        .fail ⟨field, List.mem_cons_self, .inl hbad⟩⟩
    | @fitIf s hs hk hset =>
      obtain ⟨F, hF⟩ := layered_unfold ht (hhas field List.mem_cons_self)
      obtain ⟨y, hy, hout⟩ := hvisit g s hg hstack (has_of_unfold (judgedBy_unfold hF hs))
      cases hout with
      | pass hext hseen =>
        obtain ⟨x, hx, hout⟩ := next hext (hset.mono fun s' (heq : s' = s) => heq ▸ hseen)
        exact ⟨x, by simp [CheckGuard.scan, hv, hy, hx], hout⟩
      | @fail g' hbad =>
        exact ⟨(false, g'), by simp [CheckGuard.scan, hv, hy],
          .fail ⟨field, List.mem_cons_self, .inr ⟨s, hs, hk, hbad⟩⟩⟩

/-- The budget that is left and the checks in progress together exceed the number of slots, so
the budget lasts: no struct is in progress twice. -/
theorem structFitsWithin_spec (ht : Layered t) (hc : Closed t) (budget : Nat)
    (hg : t.SoundGuard r use g) (hh : t.Has h)
    (hbudget : t.slots.size < budget + g.inProgress.length) :
    ∃ x, t.structFitsWithin r use budget g h = .ok x ∧
      t.Outcome r use g (·.Seen h) (t.BadBelow r use h) x := by
  induction budget generalizing g h with
  | zero =>
    have := inProgress_length_le hg
    omega
  | succ budget ih =>
    obtain ⟨T, hT⟩ := layered_unfold ht hh
    obtain ⟨fields, hfields, hhas⟩ := closed_structFields hc hT
    rw [structFitsWithin]
    cases hl : g.finished.lookup h with
    | some result =>
      have hmem : (h, result) ∈ g.finished := by
        obtain ⟨before, after, heq, _⟩ := List.lookup_eq_some_iff.mp hl
        simp [heq]
      obtain rfl := (hg.settled _ hmem).1
      exact ⟨_, rfl, .pass (.refl hg) (.inr hmem)⟩
    | none =>
      by_cases hin : h ∈ g.inProgress
      · exact ⟨(true, g), by simp [hin], .pass (.refl hg) (.inl hin)⟩
      have hhas' : ∀ f ∈ fields.map Field.type, t.Has f := by
        intro f hf
        obtain ⟨field, hfield, rfl⟩ := List.mem_map.mp hf
        exact hhas field hfield
      have hverdict : ∀ f ∈ fields.map Field.type,
          ∃ v, t.fieldVerdict r use h f = .ok v ∧ t.Judged r use h f v := by
        intro f hf
        obtain ⟨F, hF⟩ := layered_unfold ht (hhas' f hf)
        exact fieldVerdict_judged ht hT hF
      obtain ⟨x, hx, hout⟩ := scan_spec
        (fun g' s hg' hstack hs => ih hg' hs (by simp [hstack, CheckGuard.enter]; omega))
        hverdict hhas' ht (enter_sound hg hh hin) rfl
      cases hout with
      | @pass g' hext hset =>
        refine ⟨(true, g'.leave h true), by simp [hin, hfields, hx],
          .pass (leave_extends hg hext ?_) (.inr List.mem_cons_self)⟩
        intro fields' hfields' f hf
        cases hfields.symm.trans hfields'
        exact hset f.type (List.mem_map_of_mem hf)
      | @fail g' hbad =>
        refine ⟨(false, g'.leave h false), by simp [hin, hfields, hx], .fail ?_⟩
        obtain ⟨f, hf, hbad⟩ := hbad
        obtain ⟨field, hfield, rfl⟩ := List.mem_map.mp hf
        rcases hbad with hbad | ⟨s, hs, hk, s', hreach, hbad⟩
        · exact ⟨h, .refl, fields, hfields, field, hfield, hbad⟩
        · exact ⟨s', .head ⟨hk, fields, hfields, field, hfield, hs⟩ hreach, hbad⟩

theorem fitsUse_decides (ht : Layered t) (hc : Closed t) (hh : t.Has h) :
    Decides (t.fitsUse r use h) (t.Sane r use h) := by
  obtain ⟨T, hT⟩ := layered_unfold ht hh
  have hk := kind_eq hT
  by_cases hst : T.kind = .nominal .struct
  · rw [hst] at hk
    have hempty : t.SoundGuard r use {} := empty_sound
    obtain ⟨x, hx, hout⟩ := structFitsWithin_spec ht hc t.walkBudget hempty hh
      (Nat.lt_add_right _ (Nat.lt_succ_self _))
    cases hout with
    | @pass g' hext hseen =>
      refine .of_true (by simp [fitsUse, hk, hx]) ⟨hk, ?_⟩
      intro s hreach hbad
      -- No check is in progress any more, so all that was seen is finished.
      have hset (s : Handle) (hs : g'.Seen s) : t.Has s ∧ t.Settled r use g'.Seen s := by
        refine ⟨hext.sound.known s hs, ?_⟩
        rcases hs with hs | hs
        · simp [hext.inProgress] at hs
        · exact (hext.sound.settled _ hs).2
      exact settled_not_bad ht hc hset hseen ⟨s, hreach, hbad⟩
    | fail hbad =>
      refine .of_false (by simp [fitsUse, hk, hx]) ?_
      rintro ⟨_, hgood⟩
      obtain ⟨s, hreach, hbad⟩ := hbad
      exact hgood s hreach hbad
  · refine .of_false (by simp [fitsUse, hk, hst]) ?_
    rintro ⟨hk', _⟩
    exact hst (Except.ok.inj (hk.symm.trans hk'))

/-- The guarded checks say of each struct whether a bad field can be reached from it, which is
what the unguarded recursion says where it is followed forever. -/
theorem guarded_json_checks_are_exact (ht : Reachable t) (hh : t.Has h) (r : Registry) :
    (Decides (t.isJsonCompatible r h) (t.Sane r .constraint h) ∧
      Decides (t.isJsonCompatible r h) ((t.unguarded r .constraint).gfp h)) ∧
    Decides (t.isJsonConvertible r h) (t.Sane r .conversion h) ∧
      Decides (t.isJsonConvertible r h) ((t.unguarded r .conversion).gfp h) := by
  have hl := reachable_layered ht
  have hc := reachable_closed ht
  have hboth (use : JsonUse) : Decides (t.fitsUse r use h) (t.Sane r use h) ∧
      Decides (t.fitsUse r use h) ((t.unguarded r use).gfp h) := by
    have hsane : Decides (t.fitsUse r use h) (t.Sane r use h) := fitsUse_decides hl hc hh
    exact ⟨hsane, hsane.congr (sane_iff_gfp hl hc)⟩
  exact ⟨hboth .constraint, hboth .conversion⟩

/-- Two structs that refer to each other, one of them through a copy of the other's type and an
array of it. The second has a map. -/
def mutualStructs : TypeTable := initial.grow [
  .declareStruct ⟨1⟩, .declareStruct ⟨2⟩, .alloc (.nominal .struct ⟨0⟩), .array ⟨16⟩,
  .defineFields ⟨14⟩ [⟨⟨3⟩, ⟨0⟩, {}⟩, ⟨⟨4⟩, ⟨15⟩, {}⟩],
  .defineFields ⟨15⟩ [⟨⟨3⟩, ⟨16⟩, {}⟩, ⟨⟨4⟩, ⟨17⟩, {}⟩, ⟨⟨5⟩, ⟨10⟩, {}⟩]]

theorem mutualStructs_convertible_only :
    ¬mutualStructs.Sane Registry.builtin .constraint ⟨14⟩ ∧
      mutualStructs.Sane Registry.builtin .conversion ⟨14⟩ := by
  have ht : Reachable mutualStructs := reachable_grow .refl _
  have hexact := guarded_json_checks_are_exact ht (by decide : mutualStructs.Has ⟨14⟩)
    Registry.builtin
  constructor
  · exact hexact.1.1.eq_false_iff.mp (by decide +kernel)
  · exact hexact.2.1.eq_true_iff.mp (by decide +kernel)

end TypeTable

end TypeConformance
