import Mathlib.Data.List.Perm.Basic
import TypeConformance.Proofs.JsonGuard

/-! # The course of a JSON check

A check of a struct is followed from point to point: a struct is asked about, fields are scanned
one after the other, an answer goes back to the struct that asked. The scan of a struct begins
only if the struct is neither in progress nor finished, and it is one or the other from then on.
So each scan that begins leaves fewer structs to scan, and the check ends whatever circles the
structs form.
-/
namespace TypeConformance

inductive CheckTask where
  | visit (struct : Handle)
  | scan
  | answer (result : Bool)
  deriving DecidableEq, Repr

structure CheckPoint where
  guard : CheckGuard
  /-- Structs whose scan has begun, innermost first, with the field types still to come. -/
  scans : List (Handle × List Handle)
  task : CheckTask
  deriving DecidableEq, Repr

namespace CheckPoint

def start (h : Handle) : CheckPoint := ⟨{}, [], .visit h⟩

def finish (g : CheckGuard) (result : Bool) : CheckPoint := ⟨g, [], .answer result⟩

end CheckPoint

def CheckGuard.touched (g : CheckGuard) : List Handle :=
  g.inProgress ++ g.finished.map Prod.fst

namespace TypeTable

variable (t : TypeTable) (r : Registry) (use : JsonUse)

/-- From one point to the next, with the struct whose scan begins there, if one does. -/
inductive CheckStep : CheckPoint → Option Handle → CheckPoint → Prop where
  | finished {g scans h result} : g.finished.lookup h = some result →
      CheckStep ⟨g, scans, .visit h⟩ none ⟨g, scans, .answer result⟩
  | inProgress {g scans h} : g.finished.lookup h = none → h ∈ g.inProgress →
      CheckStep ⟨g, scans, .visit h⟩ none ⟨g, scans, .answer true⟩
  | begins {g scans h fields} : g.finished.lookup h = none → h ∉ g.inProgress →
      t.structFields h = .ok fields →
      CheckStep ⟨g, scans, .visit h⟩ (some h)
        ⟨g.enter h, (h, fields.map Field.type) :: scans, .scan⟩
  | fit {g scans h field rest} : t.fieldVerdict r use h field = .ok .fit →
      CheckStep ⟨g, (h, field :: rest) :: scans, .scan⟩ none ⟨g, (h, rest) :: scans, .scan⟩
  | unfit {g scans h field rest} : t.fieldVerdict r use h field = .ok .unfit →
      CheckStep ⟨g, (h, field :: rest) :: scans, .scan⟩ none
        ⟨g.leave h false, scans, .answer false⟩
  | asks {g scans h field rest s} : t.fieldVerdict r use h field = .ok (.fitIf s) →
      CheckStep ⟨g, (h, field :: rest) :: scans, .scan⟩ none ⟨g, (h, rest) :: scans, .visit s⟩
  | passes {g scans h} :
      CheckStep ⟨g, (h, []) :: scans, .scan⟩ none ⟨g.leave h true, scans, .answer true⟩
  | resumes {g scans h rest} :
      CheckStep ⟨g, (h, rest) :: scans, .answer true⟩ none ⟨g, (h, rest) :: scans, .scan⟩
  | fails {g scans h rest} :
      CheckStep ⟨g, (h, rest) :: scans, .answer false⟩ none
        ⟨g.leave h false, scans, .answer false⟩

inductive CheckRun : CheckPoint → List Handle → CheckPoint → Prop where
  | refl (p) : CheckRun p [] p
  | head {p begun q log s} : CheckStep t r use p begun q → CheckRun q log s →
      CheckRun p (begun.toList ++ log) s

def untouched (g : CheckGuard) : List Handle :=
  ((List.range t.slots.size).map Handle.mk).filter fun h =>
    t.kind h = .ok (.nominal .struct) ∧ h ∉ g.touched

/-- What holds at each point of a check. -/
structure OrderlyPoint (p : CheckPoint) : Prop where
  stack : p.guard.inProgress = p.scans.map Prod.fst
  distinct : p.guard.touched.Nodup
  structs : ∀ h ∈ p.guard.touched, t.kind h = .ok (.nominal .struct)
  asked : ∀ h, p.task = .visit h → t.kind h = .ok (.nominal .struct)
  fields : ∀ scan ∈ p.scans, ∀ f ∈ scan.2, t.Has f

variable {t r use} {g g' : CheckGuard} {p q s : CheckPoint} {begun begun' : Option Handle}
  {scans : List (Handle × List Handle)} {fields log log' : List Handle} {h k : Handle}
  {result : Bool}

theorem CheckRun.single (hs : t.CheckStep r use p begun q) :
    t.CheckRun r use p begun.toList q := by
  simpa using CheckRun.head hs (.refl q)

theorem CheckRun.trans (hq : t.CheckRun r use p log q) (hs : t.CheckRun r use q log' s) :
    t.CheckRun r use p (log ++ log') s := by
  induction hq with
  | refl => exact hs
  | head hstep _ ih =>
    rw [List.append_assoc]
    exact .head hstep (ih hs)

theorem checkStep_unique (hq : t.CheckStep r use p begun q) (hs : t.CheckStep r use p begun' s) :
    begun = begun' ∧ q = s := by
  cases hq with
  | finished hl =>
    cases hs with
    | finished hl' =>
      cases hl.symm.trans hl'
      exact ⟨rfl, rfl⟩
    | inProgress hl' | begins hl' => cases hl.symm.trans hl'
  | inProgress hl hin =>
    cases hs with
    | finished hl' => cases hl.symm.trans hl'
    | inProgress => exact ⟨rfl, rfl⟩
    | begins _ hnot => exact absurd hin hnot
  | begins hl hnot hfields =>
    cases hs with
    | finished hl' => cases hl.symm.trans hl'
    | inProgress _ hin => exact absurd hin hnot
    | begins _ _ hfields' =>
      cases hfields.symm.trans hfields'
      exact ⟨rfl, rfl⟩
  | fit hv | unfit hv | asks hv =>
    cases hs with
    | fit hv' | unfit hv' | asks hv' => cases hv.symm.trans hv' <;> exact ⟨rfl, rfl⟩
  | passes | resumes | fails =>
    cases hs
    exact ⟨rfl, rfl⟩

theorem not_checkStep_finish : ¬t.CheckStep r use (.finish g result) begun q := by
  rintro ⟨⟩

theorem CheckRun.rest (hq : t.CheckRun r use p log q)
    (hend : t.CheckRun r use p log' (.finish g result)) :
    ∃ rest, t.CheckRun r use q rest (.finish g result) := by
  induction hq generalizing log' with
  | refl => exact ⟨log', hend⟩
  | head hstep _ ih =>
    cases hend with
    | refl => exact absurd hstep not_checkStep_finish
    | head hstep' hend =>
      obtain ⟨-, rfl⟩ := checkStep_unique hstep hstep'
      exact ih hend

/-! Structs that a run has touched. -/

theorem lookup_eq_none_iff_not_mem {entries : List (Handle × Bool)} :
    entries.lookup h = none ↔ h ∉ entries.map Prod.fst := by
  rw [List.lookup_eq_none_iff]
  simp only [bne_iff_ne, ne_eq, List.mem_map, not_exists, not_and]
  exact ⟨fun hne e he heq => hne e he heq.symm, fun hne e he heq => hne e he heq.symm⟩

theorem not_mem_touched : h ∉ g.touched ↔ h ∉ g.inProgress ∧ g.finished.lookup h = none := by
  rw [CheckGuard.touched, List.mem_append, not_or, lookup_eq_none_iff_not_mem]

theorem touched_leave {outer : List Handle} (hg : g.inProgress = h :: outer) :
    (g.leave h result).touched.Perm g.touched := by
  simp [CheckGuard.touched, CheckGuard.leave, hg]

theorem OrderlyPoint.inProgress_eq {rest : List Handle} {task : CheckTask}
    (hp : t.OrderlyPoint ⟨g, (h, rest) :: scans, task⟩) :
    g.inProgress = h :: scans.map Prod.fst := hp.stack

theorem checkStep_touched (hp : t.OrderlyPoint p) (hs : t.CheckStep r use p begun q) :
    q.guard.touched.Perm (begun.toList ++ p.guard.touched) := by
  cases hs with
  | finished | inProgress | begins | fit | asks | resumes => exact .refl _
  | unfit | passes | fails => exact touched_leave hp.inProgress_eq

theorem orderlyPoint_leave {rest : List Handle} {task : CheckTask}
    (hp : t.OrderlyPoint ⟨g, (h, rest) :: scans, task⟩) :
    t.OrderlyPoint ⟨g.leave h result, scans, .answer result⟩ := by
  have hperm : (g.leave h result).touched.Perm g.touched := touched_leave hp.inProgress_eq
  refine ⟨?_, hperm.nodup_iff.mpr hp.distinct, ?_, by simp, ?_⟩
  · simp [CheckGuard.leave, hp.inProgress_eq]
  · intro k hk
    exact hp.structs k (hperm.mem_iff.mp hk)
  · intro scan hscan
    exact hp.fields scan (List.mem_cons_of_mem _ hscan)

theorem orderlyPoint_begins {fields : List Field} (ht : Layered t) (hc : Closed t)
    (hp : t.OrderlyPoint ⟨g, scans, .visit h⟩) (hnew : h ∉ g.touched)
    (hfields : t.structFields h = .ok fields) :
    t.OrderlyPoint ⟨g.enter h, (h, fields.map Field.type) :: scans, .scan⟩ := by
  have hk := hp.asked h rfl
  obtain ⟨T, hT⟩ := layered_unfold ht (has_of_kind hk)
  obtain ⟨fields', hfields', hhas⟩ := closed_structFields hc hT
  cases hfields.symm.trans hfields'
  refine ⟨congrArg (h :: ·) hp.stack, List.nodup_cons.mpr ⟨hnew, hp.distinct⟩,
    List.forall_mem_cons.mpr ⟨hk, hp.structs⟩, by simp, List.forall_mem_cons.mpr ⟨?_, hp.fields⟩⟩
  intro f hf
  obtain ⟨field, hfield, rfl⟩ := List.mem_map.mp hf
  exact hhas field hfield

variable (r use) in
theorem OrderlyPoint.judged {field : Handle} {rest : List Handle} (ht : Layered t)
    (hp : t.OrderlyPoint ⟨g, (h, field :: rest) :: scans, .scan⟩) :
    ∃ v, t.fieldVerdict r use h field = .ok v ∧ t.Judged r use h field v := by
  have hk : t.kind h = .ok (.nominal .struct) := hp.structs h (by
    rw [CheckGuard.touched, hp.inProgress_eq]
    exact List.mem_cons_self)
  obtain ⟨T, hT⟩ := layered_unfold ht (has_of_kind hk)
  obtain ⟨F, hF⟩ := layered_unfold ht (hp.fields _ List.mem_cons_self field List.mem_cons_self)
  exact fieldVerdict_judged ht hT hF

theorem orderlyPoint_next {field : Handle} {rest : List Handle} {task : CheckTask}
    (hp : t.OrderlyPoint ⟨g, (h, field :: rest) :: scans, .scan⟩)
    (hasked : ∀ s, task = .visit s → t.kind s = .ok (.nominal .struct)) :
    t.OrderlyPoint ⟨g, (h, rest) :: scans, task⟩ := by
  obtain ⟨hfirst, hothers⟩ := List.forall_mem_cons.mp hp.fields
  refine ⟨hp.stack, hp.distinct, hp.structs, hasked, List.forall_mem_cons.mpr ⟨?_, hothers⟩⟩
  intro f hf
  exact hfirst f (List.mem_cons_of_mem _ hf)

theorem checkStep_orderly (ht : Layered t) (hc : Closed t) (hp : t.OrderlyPoint p)
    (hs : t.CheckStep r use p begun q) : t.OrderlyPoint q := by
  cases hs with
  | finished | inProgress | resumes => exact { hp with asked := by simp }
  | begins hl hin hfields =>
    exact orderlyPoint_begins ht hc hp (not_mem_touched.mpr ⟨hin, hl⟩) hfields
  | fit => exact orderlyPoint_next hp (by simp)
  | asks hv =>
    apply orderlyPoint_next hp
    rintro s ⟨⟩
    obtain ⟨v, hv', hj⟩ := hp.judged r use ht
    cases hv.symm.trans hv'
    cases hj with
    | fitIf _ hk => exact hk
  | unfit | passes | fails => exact orderlyPoint_leave hp

theorem checkRun_orderly (ht : Layered t) (hc : Closed t) (hp : t.OrderlyPoint p)
    (hq : t.CheckRun r use p log q) : t.OrderlyPoint q := by
  induction hq with
  | refl => exact hp
  | head hstep _ ih => exact ih (checkStep_orderly ht hc hp hstep)

theorem checkRun_touched (ht : Layered t) (hc : Closed t) (hp : t.OrderlyPoint p)
    (hq : t.CheckRun r use p log q) : q.guard.touched.Perm (log ++ p.guard.touched) := by
  induction hq with
  | refl => exact .refl _
  | @head p begun q log s hstep _ ih =>
    have hfirst := (checkStep_touched hp hstep).append_left log
    have hrest := ih (checkStep_orderly ht hc hp hstep)
    rw [List.append_assoc]
    exact (hrest.trans hfirst).trans (List.perm_append_comm_assoc _ _ _)

/-! Structs that are left untouched. -/

theorem mem_untouched :
    h ∈ t.untouched g ↔ t.kind h = .ok (.nominal .struct) ∧ h ∉ g.touched := by
  have hrange (hk : t.kind h = .ok (.nominal .struct)) :
      h ∈ (List.range t.slots.size).map Handle.mk :=
    List.mem_map.mpr ⟨h.index, List.mem_range.mpr (has_of_kind hk), rfl⟩
  simp only [untouched, List.mem_filter, decide_eq_true_eq]
  exact ⟨fun hh => hh.2, fun hh => ⟨hrange hh.1, hh⟩⟩

theorem untouched_nodup : (t.untouched g).Nodup := by
  apply List.Nodup.filter
  apply List.Nodup.map _ List.nodup_range
  intro i j hij
  exact congrArg Handle.index hij

theorem untouched_congr (hg : ∀ k, k ∈ g'.touched ↔ k ∈ g.touched) :
    t.untouched g' = t.untouched g := by
  simp only [untouched, hg]

theorem untouched_cons (hg : g'.touched.Perm (h :: g.touched)) :
    t.untouched g' = (t.untouched g).erase h := by
  rw [untouched_nodup.erase_eq_filter, untouched, untouched, List.filter_filter]
  apply List.filter_congr
  intro k _
  simp only [hg.mem_iff, List.mem_cons]
  grind

theorem length_untouched (hp : t.OrderlyPoint p) (hq : t.OrderlyPoint q)
    (hs : t.CheckStep r use p begun q) :
    (t.untouched q.guard).length + begun.toList.length = (t.untouched p.guard).length := by
  have hperm := checkStep_touched hp hs
  cases begun with
  | none =>
    rw [untouched_congr fun k => hperm.mem_iff]
    rfl
  | some h =>
    have hnew : h ∉ p.guard.touched := (List.nodup_cons.mp (hperm.nodup_iff.mp hq.distinct)).1
    have hk := hq.structs h (hperm.mem_iff.mpr List.mem_cons_self)
    have hmem : h ∈ t.untouched p.guard := mem_untouched.mpr ⟨hk, hnew⟩
    rw [untouched_cons hperm, List.length_erase_of_mem hmem]
    exact Nat.sub_add_cancel (List.length_pos_of_mem hmem)

theorem checkRun_length (ht : Layered t) (hc : Closed t) (hp : t.OrderlyPoint p)
    (hq : t.CheckRun r use p log q) :
    (t.untouched q.guard).length + log.length = (t.untouched p.guard).length := by
  induction hq with
  | refl => rfl
  | head hstep _ ih =>
    have horderly := checkStep_orderly ht hc hp hstep
    rw [← length_untouched hp horderly hstep, ← ih horderly, List.length_append]
    omega

theorem checkStep_keeps (hp : t.OrderlyPoint p) (hs : t.CheckStep r use p begun q)
    (hk : p.guard.finished.lookup k = some result) :
    q.guard.finished.lookup k = some result := by
  have hleave {g h rest scans task} {result' : Bool}
      (hp : t.OrderlyPoint ⟨g, (h, rest) :: scans, task⟩)
      (hk : g.finished.lookup k = some result) :
      (g.leave h result').finished.lookup k = some result := by
    have hne : k ≠ h := by
      rintro rfl
      have hnone := lookup_eq_none_iff_not_mem.mpr fun hmem =>
        List.disjoint_of_nodup_append hp.distinct (hp.inProgress_eq ▸ List.mem_cons_self) hmem
      cases hk.symm.trans hnone
    rw [CheckGuard.leave, List.lookup_cons, beq_false_of_ne hne]
    exact hk
  cases hs with
  | finished | inProgress | begins | fit | asks | resumes => exact hk
  | unfit | passes | fails => exact hleave hp hk

theorem checkRun_keeps (ht : Layered t) (hc : Closed t) (hp : t.OrderlyPoint p)
    (hq : t.CheckRun r use p log q) (hk : p.guard.finished.lookup k = some result) :
    q.guard.finished.lookup k = some result := by
  induction hq with
  | refl => exact hk
  | head hstep _ ih =>
    exact ih (checkStep_orderly ht hc hp hstep) (checkStep_keeps hp hstep hk)

/-! Every visit ends, by induction on the number of structs left untouched. -/

variable (t r use) in
/-- The visit is answered, alike for all budgets above `n`, and a run leads from the visit to this
answer and this guard. -/
def VisitEnds (n : Nat) (g : CheckGuard) (scans : List (Handle × List Handle)) (h : Handle) :
    Prop :=
  ∃ result g' log, (∀ budget, n < budget → t.structFitsWithin r use budget g h = .ok (result, g')) ∧
    t.CheckRun r use ⟨g, scans, .visit h⟩ log ⟨g', scans, .answer result⟩

theorem VisitEnds.mono {n m : Nat} (hnm : n ≤ m) (hv : t.VisitEnds r use n g scans h) :
    t.VisitEnds r use m g scans h := by
  obtain ⟨result, g', log, hbudget, hrun⟩ := hv
  exact ⟨result, g', log, fun budget hb => hbudget budget (Nat.lt_of_le_of_lt hnm hb), hrun⟩

theorem scan_ends {n : Nat} (ht : Layered t) (hc : Closed t)
    (hvisit : ∀ {g scans s}, t.OrderlyPoint ⟨g, scans, .visit s⟩ → (t.untouched g).length ≤ n →
      t.VisitEnds r use n g scans s)
    (hp : t.OrderlyPoint ⟨g, (h, fields) :: scans, .scan⟩) (hn : (t.untouched g).length ≤ n) :
    ∃ result g' log, (∀ budget, n < budget → g.scan (t.structFitsWithin r use budget)
        (t.fieldVerdict r use h) fields = .ok (result, g')) ∧
      t.CheckRun r use ⟨g, (h, fields) :: scans, .scan⟩ log
        ⟨g'.leave h result, scans, .answer result⟩ := by
  induction fields generalizing g with
  | nil => exact ⟨true, g, _, fun _ _ => rfl, .single .passes⟩
  | cons field rest ih =>
    obtain ⟨v, hv, -⟩ := hp.judged r use ht
    cases v with
    | fit =>
      obtain ⟨result, g', log, hscan, hrun⟩ := ih (checkStep_orderly ht hc hp (.fit hv)) hn
      refine ⟨result, g', _, fun budget hb => ?_, .head (.fit hv) hrun⟩
      simpa [CheckGuard.scan, hv] using hscan budget hb
    | unfit =>
      exact ⟨false, g, _, fun _ _ => by simp [CheckGuard.scan, hv], .single (.unfit hv)⟩
    | fitIf s =>
      have hasks : t.CheckStep r use ⟨g, (h, field :: rest) :: scans, .scan⟩ none
          ⟨g, (h, rest) :: scans, .visit s⟩ := .asks hv
      have hasked := checkStep_orderly ht hc hp hasks
      obtain ⟨answer, g', log, hanswer, hrun⟩ := hvisit hasked hn
      have hanswered := checkRun_orderly ht hc hasked hrun
      cases answer with
      | false =>
        refine ⟨false, g', _, fun budget hb => ?_, .head hasks (hrun.trans (.single .fails))⟩
        simp [CheckGuard.scan, hv, hanswer budget hb]
      | true =>
        have hresumes : t.CheckStep r use ⟨g', (h, rest) :: scans, .answer true⟩ none
            ⟨g', (h, rest) :: scans, .scan⟩ := .resumes
        have hless := Nat.le.intro (checkRun_length ht hc hasked hrun)
        obtain ⟨result, g'', log', hscan, hrun'⟩ :=
          ih (checkStep_orderly ht hc hanswered hresumes) (Nat.le_trans hless hn)
        refine ⟨result, g'', _, fun budget hb => ?_,
          .head hasks (hrun.trans (.head hresumes hrun'))⟩
        simpa [CheckGuard.scan, hv, hanswer budget hb] using hscan budget hb

variable (r use) in
/-- A scan that begins leaves fewer structs to the visits inside it. -/
theorem visit_ends (ht : Layered t) (hc : Closed t) (hp : t.OrderlyPoint ⟨g, scans, .visit h⟩) :
    t.VisitEnds r use (t.untouched g).length g scans h := by
  induction hn : (t.untouched g).length using Nat.strong_induction_on generalizing g scans h with
  | _ n ih =>
    have hsucc {budget : Nat} (hb : n < budget) : ∃ b, budget = b + 1 ∧ n ≤ b :=
      ⟨budget - 1, by omega, by omega⟩
    cases hl : g.finished.lookup h with
    | some result =>
      refine ⟨result, g, _, fun budget hb => ?_, .single (.finished hl)⟩
      obtain ⟨b, rfl, -⟩ := hsucc hb
      simp [structFitsWithin, hl]
    | none =>
      by_cases hin : h ∈ g.inProgress
      · refine ⟨true, g, _, fun budget hb => ?_, .single (.inProgress hl hin)⟩
        obtain ⟨b, rfl, -⟩ := hsucc hb
        simp [structFitsWithin, hl, hin]
      obtain ⟨T, hT⟩ := layered_unfold ht (has_of_kind (hp.asked h rfl))
      obtain ⟨fields, hfields, -⟩ := closed_structFields hc hT
      have hbegins : t.CheckStep r use ⟨g, scans, .visit h⟩ (some h) _ := .begins hl hin hfields
      have horderly := checkStep_orderly ht hc hp hbegins
      have hless : (t.untouched (g.enter h)).length + 1 = n :=
        (length_untouched hp horderly hbegins).trans hn
      obtain ⟨result, g', log, hscan, hrun⟩ := scan_ends ht hc
        (fun hq hle => .mono hle (ih _ (by omega) hq rfl)) horderly (Nat.le_refl _)
      refine ⟨result, g'.leave h result, _, fun budget hb => ?_, .head hbegins hrun⟩
      obtain ⟨b, rfl, hle⟩ := hsucc hb
      simp [structFitsWithin, hl, hin, hfields, hscan b (by omega)]

variable (t r use) in
/-- A point that a check reaches on its way to the point `last`, after the scans of the structs in
`log` have begun. -/
structure GuardedPoint (last : CheckPoint) (log : List Handle) (p : CheckPoint) : Prop where
  distinct : p.guard.inProgress.Nodup
  disjoint : ∀ k ∈ p.guard.inProgress, p.guard.finished.lookup k = none
  once : log.Nodup
  begun : log.Perm p.guard.touched
  begins : ∀ k q, t.CheckStep r use p (some k) q →
    k ∉ p.guard.inProgress ∧ p.guard.finished.lookup k = none ∧
      (t.untouched q.guard).length + 1 = (t.untouched p.guard).length
  others : ∀ q, t.CheckStep r use p none q →
    (t.untouched q.guard).length = (t.untouched p.guard).length
  keeps : ∀ rest q, t.CheckRun r use p rest q → ∀ k result,
    p.guard.finished.lookup k = some result → q.guard.finished.lookup k = some result
  /-- A visit ends, with what is in progress as it was. The nested checks in it are no more than the
  structs left untouched, so a budget above their number is as good as none. -/
  visit : ∀ k, p.task = .visit k → ∃ result g rest,
    (∀ budget, (t.untouched p.guard).length < budget →
      t.structFitsWithin r use budget p.guard k = .ok (result, g)) ∧
    t.CheckRun r use p rest ⟨g, p.scans, .answer result⟩ ∧ g.inProgress = p.guard.inProgress
  ends : ∃ rest, t.CheckRun r use p rest last

theorem orderlyPoint_start (hk : t.kind h = .ok (.nominal .struct)) :
    t.OrderlyPoint (.start h) where
  stack := rfl
  distinct := List.nodup_nil
  structs := by simp [CheckPoint.start, CheckGuard.touched]
  asked := by
    rintro _ ⟨⟩
    exact hk
  fields := by simp [CheckPoint.start]

theorem guardedPoint_of_run (ht : Layered t) (hc : Closed t)
    (hk : t.kind h = .ok (.nominal .struct))
    (hend : t.CheckRun r use (.start h) log' (.finish g result))
    (hp : t.CheckRun r use (.start h) log p) :
    t.GuardedPoint r use (.finish g result) log p := by
  have hstart := orderlyPoint_start hk
  have horderly := checkRun_orderly ht hc hstart hp
  have hbegun : p.guard.touched.Perm log := by
    simpa [CheckPoint.start, CheckGuard.touched] using checkRun_touched ht hc hstart hp
  have hstep {begun q} (hs : t.CheckStep r use p begun q) :=
    length_untouched horderly (checkStep_orderly ht hc horderly hs) hs
  obtain ⟨hdistinct, -, hdisjoint⟩ := List.nodup_append'.mp horderly.distinct
  refine {
    distinct := hdistinct
    disjoint := fun k hk => lookup_eq_none_iff_not_mem.mpr (hdisjoint hk)
    once := hbegun.nodup_iff.mp horderly.distinct
    begun := hbegun.symm
    begins := ?_
    others := fun q hs => hstep hs
    keeps := fun rest q hq k result => checkRun_keeps ht hc horderly hq
    visit := ?_
    ends := hp.rest hend }
  · intro k q hs
    have hlength := hstep hs
    cases hs with
    | begins hl hin hfields => exact ⟨hin, hl, hlength⟩
  · intro k htask
    obtain ⟨g₁, scans, task⟩ := p
    cases htask
    obtain ⟨result, g₂, rest, hbudget, hrun⟩ := visit_ends r use ht hc horderly
    refine ⟨result, g₂, rest, hbudget, hrun, ?_⟩
    exact (checkRun_orderly ht hc horderly hrun).stack.trans horderly.stack.symm

theorem length_untouched_lt : (t.untouched g).length < t.walkBudget := by
  have hle := List.length_filter_le (fun h => decide (t.kind h = .ok (.nominal .struct) ∧
    h ∉ g.touched)) ((List.range t.slots.size).map Handle.mk)
  rw [List.length_map, List.length_range] at hle
  exact Nat.lt_succ_of_le hle

/-- A check for either use follows its guard from the first point to the last. No struct is in
progress twice, or in progress and finished; the fields of a struct are scanned at most once; no
result is ever replaced; a visit leaves what is in progress as it was; and the check ends, since
each scan that begins leaves fewer structs untouched. -/
theorem json_checks_scan_structs_once (ht : Reachable t) (hh : t.Has h) (r : Registry)
    (use : JsonUse) :
    (t.kind h ≠ .ok (.nominal .struct) → t.fitsUse r use h = .ok false) ∧
    (t.kind h = .ok (.nominal .struct) → ∃ result g log,
      t.fitsUse r use h = .ok result ∧
      t.structFitsWithin r use t.walkBudget {} h = .ok (result, g) ∧
      t.CheckRun r use (.start h) log (.finish g result) ∧
      ∀ log' p, t.CheckRun r use (.start h) log' p →
        t.GuardedPoint r use (.finish g result) log' p) := by
  have hl := reachable_layered ht
  have hc := reachable_closed ht
  constructor
  · intro hk
    obtain ⟨T, hT⟩ := layered_unfold hl hh
    have hkind := kind_eq hT
    have hne : T.kind ≠ .nominal .struct := fun heq => hk (heq ▸ hkind)
    simp [fitsUse, hkind, hne]
  · intro hk
    obtain ⟨result, g, log, hbudget, hrun⟩ :=
      visit_ends r use hl hc (orderlyPoint_start hk)
    have hfits := hbudget _ length_untouched_lt
    refine ⟨result, g, log, by simp [fitsUse, hk, hfits], hfits, hrun, ?_⟩
    intro log' p hp
    exact guardedPoint_of_run hl hc hk hrun hp

/-- The second struct fails because of its map, and with it the first. The copy of the first passed
before, on the assumption that the second would. All three were scanned once. -/
theorem mutualStructs_scanned_once :
    ∃ g log, mutualStructs.CheckRun Registry.builtin .constraint (.start ⟨14⟩) log
        (.finish g false) ∧
      g.finished = [(⟨14⟩, false), (⟨15⟩, false), (⟨16⟩, true)] ∧
      log.Perm [⟨14⟩, ⟨15⟩, ⟨16⟩] ∧ log.Nodup := by
  have ht : Reachable mutualStructs := reachable_grow .refl _
  have hhas : mutualStructs.Has ⟨14⟩ := by decide +kernel
  have hk : mutualStructs.kind ⟨14⟩ = .ok (.nominal .struct) := by decide +kernel
  obtain ⟨result, g, log, -, hfits, hrun, hguarded⟩ :=
    (json_checks_scan_structs_once ht hhas Registry.builtin .constraint).2 hk
  have hvalue : mutualStructs.structFitsWithin Registry.builtin .constraint
      mutualStructs.walkBudget {} ⟨14⟩ =
        .ok (false, ⟨[], [(⟨14⟩, false), (⟨15⟩, false), (⟨16⟩, true)]⟩) := by
    decide +kernel
  cases hfits.symm.trans hvalue
  have hlast := hguarded log _ hrun
  exact ⟨_, log, hrun, rfl, hlast.begun, hlast.once⟩

end TypeTable

end TypeConformance
