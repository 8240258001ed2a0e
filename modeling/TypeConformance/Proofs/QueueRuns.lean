import Mathlib.Data.List.Sort
import TypeConformance.Proofs.Templates
import TypeConformance.Report

/-! # The queue over whole runs

A diagnostic that is offered to a queue meets three tests in a fixed order: the limit, the filter
and the comparison with what is held. They keep the queue's list, its count of errors and its flag
consistent through any sequence of operations, flushes included. A flush reports what the queue
took, in the order of places, and tells if the limit refused an error. Nothing is lost in silence:
every diagnostic that was offered is reported, or the policy gives the reason why it is not.

The notice at the end of a flush says that a higher limit would show more errors. Whether it would
is seen by offering the same diagnostics to a queue without a limit. The limit is tested before
the filter and the comparison with what is held, so an error that those would drop anyway brings
the notice too. The notice is true exactly if the limit alone kept some error out.
-/
namespace TypeConformance

namespace Diagnostic

def Alike (d e : Diagnostic) : Prop :=
  d.code = e.code ∧ d.primarySpan = e.primarySpan ∧ d.message = e.message

variable {d e : Diagnostic}

theorem Alike.symm (h : d.Alike e) : e.Alike d := ⟨h.1.symm, h.2.1.symm, h.2.2.symm⟩

theorem repeats_iff : d.repeats e = true ↔ e.Alike d := by
  simp [repeats, Alike, and_assoc]

theorem isFollowOn_iff : d.isFollowOn = true ↔ d.isError = true ∧
    (errorMarker.toList <:+: d.message.toList ∨ errorMarker ∈ d.args) := by
  simp [isFollowOn, Text.occursIn_iff]

end Diagnostic

namespace Queue

def fresh (policy : QueuePolicy) : Queue := { policy }

def Exceeds (q : Queue) (d : Diagnostic) : Prop := d.isError = true ∧ q.limitReached = true

def Filters (q : Queue) (d : Diagnostic) : Prop :=
  q.policy.filterFollowOn = true ∧ d.isFollowOn = true

def Repeats (q : Queue) (d : Diagnostic) : Prop :=
  q.policy.deduplicate = true ∧ ∃ e ∈ q.toList, d.Alike e

def hold (q : Queue) (d : Diagnostic) : Queue :=
  { q with
    held := q.held ++ [(d.position, d)]
    errorCount := if d.isError then q.errorCount + 1 else q.errorCount }

/-- What a queue can do with a diagnostic that it is offered. -/
inductive Offer (q : Queue) (d : Diagnostic) : Bool × Queue → Prop where
  | exceeds : q.Exceeds d → Offer q d (false, { q with overflowed := true })
  | filtered : ¬q.Exceeds d → q.Filters d → Offer q d (false, q)
  | repeated : ¬q.Exceeds d → ¬q.Filters d → q.Repeats d → Offer q d (false, q)
  | held : ¬q.Exceeds d → ¬q.Filters d → ¬q.Repeats d → Offer q d (true, q.hold d)

variable {q : Queue} {d : Diagnostic} {x : Bool × Queue}

@[simp] theorem toList_hold : (q.hold d).toList = q.toList ++ [d] := by
  simp [toList, hold]

theorem limitReached_iff : q.limitReached = true ↔
    0 < q.policy.errorLimit ∧ q.policy.errorLimit ≤ q.errorCount := by
  simp [limitReached]

theorem isDuplicate_iff : q.isDuplicate d = true ↔ ∃ e ∈ q.toList, d.Alike e := by
  simp only [isDuplicate, toList, List.any_eq_true, Diagnostic.repeats_iff, List.mem_map]
  constructor
  · rintro ⟨entry, hentry, halike⟩
    exact ⟨entry.2, ⟨entry, hentry, rfl⟩, halike.symm⟩
  · rintro ⟨e, ⟨entry, hentry, rfl⟩, halike⟩
    exact ⟨entry, hentry, halike.symm⟩

theorem add_offer (q : Queue) (d : Diagnostic) : q.Offer d (q.add d) := by
  have hexceeds : (d.isError && q.limitReached) = true ↔ q.Exceeds d := Bool.and_eq_true_iff
  have hfilters : (q.policy.filterFollowOn && d.isFollowOn) = true ↔ q.Filters d :=
    Bool.and_eq_true_iff
  have hrepeats : (q.policy.deduplicate && q.isDuplicate d) = true ↔ q.Repeats d := by
    rw [Bool.and_eq_true_iff, isDuplicate_iff, Repeats]
  rw [add]
  split
  · next h => exact .exceeds (hexceeds.mp h)
  · next h₁ =>
    split
    · next h₂ => exact .filtered (mt hexceeds.mpr h₁) (hfilters.mp h₂)
    · next h₂ =>
      split
      · next h₃ =>
        exact .repeated (mt hexceeds.mpr h₁) (mt hfilters.mpr h₂) (hrepeats.mp h₃)
      · next h₃ =>
        exact .held (mt hexceeds.mpr h₁) (mt hfilters.mpr h₂) (mt hrepeats.mpr h₃)

/-- The parts of a queue agree with each other and with its policy. -/
structure Consistent (q : Queue) : Prop where
  counted : q.errorCount = q.toList.countP Diagnostic.isError
  limited : 0 < q.policy.errorLimit → q.errorCount ≤ q.policy.errorLimit
  placed : ∀ entry ∈ q.held, entry.1 = (entry.2.labels.head?.map fun l => l.span.start).getD 0
  distinct : q.policy.deduplicate = true → q.toList.Pairwise fun d e => ¬d.Alike e
  original : q.policy.filterFollowOn = true → ∀ d ∈ q.toList, d.isError = true →
    ¬errorMarker.toList <:+: d.message.toList ∧ errorMarker ∉ d.args
  overflow : q.overflowed = true → 0 < q.policy.errorLimit ∧ q.limitReached = true

theorem fresh_consistent (policy : QueuePolicy) : (fresh policy).Consistent := by
  constructor <;> simp [fresh, toList]

theorem hold_consistent (hq : q.Consistent) (hexceeds : ¬q.Exceeds d) (hfilters : ¬q.Filters d)
    (hrepeats : ¬q.Repeats d) : (q.hold d).Consistent := by
  have hgrows : q.errorCount ≤ (q.hold d).errorCount := by
    simp only [hold]
    split <;> omega
  constructor
  · rw [toList_hold, List.countP_append, ← hq.counted, List.countP_singleton]
    simp only [hold]
    split <;> rfl
  · intro hpos
    have hlimited := hq.limited hpos
    simp only [hold]
    split
    · next herror =>
      -- An error comes in only while there is room for one more.
      have hroom : ¬q.policy.errorLimit ≤ q.errorCount :=
        fun hle => hexceeds ⟨herror, limitReached_iff.mpr ⟨hpos, hle⟩⟩
      omega
    · exact hlimited
  · intro entry hentry
    rcases List.mem_append.mp hentry with hold | hnew
    · exact hq.placed entry hold
    · obtain rfl := List.mem_singleton.mp hnew
      simp [Diagnostic.position, Diagnostic.primarySpan, Function.comp_def]
  · intro hdedup
    rw [toList_hold, List.pairwise_append]
    refine ⟨hq.distinct hdedup, List.pairwise_singleton _ _, ?_⟩
    intro e he d' hd' halike
    obtain rfl := List.mem_singleton.mp hd'
    exact hrepeats ⟨hdedup, e, he, halike.symm⟩
  · intro hfilter e he herror
    rw [toList_hold] at he
    rcases List.mem_append.mp he with hold | hnew
    · exact hq.original hfilter e hold herror
    · obtain rfl := List.mem_singleton.mp hnew
      apply not_or.mp
      intro hmarked
      exact hfilters ⟨hfilter, Diagnostic.isFollowOn_iff.mpr ⟨herror, hmarked⟩⟩
  · intro hover
    obtain ⟨hpos, hreached⟩ := hq.overflow hover
    have hcount := (limitReached_iff.mp hreached).2
    exact ⟨hpos, limitReached_iff.mpr ⟨hpos, Nat.le_trans hcount hgrows⟩⟩

theorem Offer.consistent (ho : q.Offer d x) (hq : q.Consistent) : x.2.Consistent := by
  cases ho with
  | exceeds h =>
    obtain ⟨hpos, -⟩ := limitReached_iff.mp h.2
    exact { hq with overflow := fun _ => ⟨hpos, h.2⟩ }
  | filtered => exact hq
  | repeated => exact hq
  | held hexceeds hfilters hrepeats => exact hold_consistent hq hexceeds hfilters hrepeats

theorem Offer.policy_eq (ho : q.Offer d x) : x.2.policy = q.policy := by
  cases ho <;> rfl

inductive Operation where
  | add (d : Diagnostic)
  | emit (d : Diagnostic)
  | flush

def perform (q : Queue) : Operation → Queue
  | .add d => (q.add d).2
  | .emit d => q.emit d
  | .flush => q.flush.2

def performAll (q : Queue) (ops : List Operation) : Queue := ops.foldl perform q

theorem perform_consistent (hq : q.Consistent) (op : Operation) :
    (q.perform op).policy = q.policy ∧ (q.perform op).Consistent := by
  cases op with
  | add d | emit d => exact ⟨(add_offer q d).policy_eq, (add_offer q d).consistent hq⟩
  | flush => exact ⟨rfl, fresh_consistent q.policy⟩

/-- Whatever is done to a queue that was new: its policy stays, the count is the number of errors
that it holds and keeps to the limit, each entry has the place of its diagnostic, nothing is held
twice or in spite of the filter, and the flag is set only while the limit is reached. -/
theorem every_interleaving_consistent (policy : QueuePolicy) (ops : List Operation) :
    ((fresh policy).performAll ops).policy = policy ∧
      ((fresh policy).performAll ops).Consistent := by
  apply List.foldlRecOn (motive := fun q => q.policy = policy ∧ q.Consistent) ops perform
  · exact ⟨rfl, fresh_consistent policy⟩
  · rintro q ⟨hpolicy, hconsistent⟩ op -
    obtain ⟨hkept, hnext⟩ := perform_consistent hconsistent op
    exact ⟨hkept.trans hpolicy, hnext⟩

end Queue

namespace Diagnostic

/-- The second list is the first in the order of places. Diagnostics at one place keep their
order. -/
structure Ordered (ds sorted : List Diagnostic) : Prop where
  perm : sorted.Perm ds
  ascending : sorted.Pairwise fun d e => d.position ≤ e.position
  stable : ∀ n, sorted.filter (fun d => d.position = n) = ds.filter (fun d => d.position = n)

theorem insertionSort_ordered (ds : List Diagnostic) :
    Ordered ds (ds.insertionSort fun d e => d.position ≤ e.position) := by
  let before (d e : Diagnostic) : Prop := d.position ≤ e.position
  have htotal : Std.Total before := ⟨fun d e => Nat.le_total d.position e.position⟩
  have htrans : IsTrans Diagnostic before := ⟨fun _ _ _ => Nat.le_trans⟩
  refine ⟨List.perm_insertionSort before ds, List.pairwise_insertionSort before ds, ?_⟩
  intro n
  have hperm := (List.perm_insertionSort before ds).filter fun d => d.position = n
  -- Diagnostics at one place are sorted as they are, so the sort keeps them in their order.
  have hsorted : (ds.filter fun d => d.position = n).Pairwise before := by
    apply List.pairwise_of_forall_mem_list
    intro d hd e he
    have hd := (List.mem_filter.mp hd).2
    have he := (List.mem_filter.mp he).2
    simp only [decide_eq_true_eq] at hd he
    exact Nat.le_of_eq (hd.trans he.symm)
  have hsub := List.sublist_insertionSort hsorted List.filter_sublist
  have hfiltered := hsub.filter fun d => d.position = n
  rw [List.filter_filter] at hfiltered
  simp only [Bool.and_self] at hfiltered
  exact (hfiltered.eq_of_length hperm.length_eq.symm).symm

end Diagnostic

namespace Queue

/-- Those diagnostics that the queue takes, of a list that is offered to it one by one. -/
def taken (q : Queue) : List Diagnostic → List Diagnostic
  | [] => []
  | d :: ds => (if (q.add d).1 then [d] else []) ++ (q.emit d).taken ds

/-- An error of the list is offered when the limit is reached. -/
def Refuses (q : Queue) (ds : List Diagnostic) : Prop :=
  ∃ before d after, ds = before ++ d :: after ∧ (q.emitAll before).Exceeds d

/-- What becomes of a diagnostic that is offered to the queue, given the reports of its flush. -/
inductive Fate (q : Queue) (d : Diagnostic) (reports : List Diagnostic) : Prop where
  | reported : (q.add d).1 = true → d ∈ reports → Fate q d reports
  | filtered : q.Filters d → Fate q d reports
  | repeated : q.policy.deduplicate = true → (∃ e ∈ reports, d.Alike e) → Fate q d reports
  | refused : q.Exceeds d → (∃ e, reports.getLast? = some e ∧ e.code = .e9002) →
      Fate q d reports

variable {q : Queue} {d e : Diagnostic} {ds : List Diagnostic} {x : Bool × Queue}

theorem Offer.held_eq (ho : q.Offer d x) :
    x.2.held = q.held ++ if x.1 then [(d.position, d)] else [] := by
  cases ho <;> simp [hold]

theorem Offer.overflowed_iff (ho : q.Offer d x) :
    x.2.overflowed = true ↔ q.overflowed = true ∨ q.Exceeds d := by
  cases ho with
  | exceeds h => simp [h]
  | filtered h | repeated h | held h => simp [h, hold]

theorem emitAll_append (before after : List Diagnostic) :
    q.emitAll (before ++ after) = (q.emitAll before).emitAll after :=
  List.foldl_append

theorem policy_emitAll (q : Queue) (ds : List Diagnostic) : (q.emitAll ds).policy = q.policy := by
  induction ds generalizing q with
  | nil => rfl
  | cons d ds ih => exact (ih (q.emit d)).trans (add_offer q d).policy_eq

theorem held_emitAll (q : Queue) (ds : List Diagnostic) :
    (q.emitAll ds).held = q.held ++ (q.taken ds).map fun d => (d.position, d) := by
  induction ds generalizing q with
  | nil => simp [emitAll, taken]
  | cons d ds ih =>
    have hstep : (q.emit d).held = q.held ++ if (q.add d).1 then [(d.position, d)] else [] :=
      (add_offer q d).held_eq
    have hrest : (q.emitAll (d :: ds)).held =
        (q.emit d).held ++ ((q.emit d).taken ds).map fun d => (d.position, d) := ih (q.emit d)
    rw [hrest, hstep, taken]
    split <;> simp

theorem toList_emitAll (q : Queue) (ds : List Diagnostic) :
    (q.emitAll ds).toList = q.toList ++ q.taken ds := by
  simp [toList, held_emitAll, Function.comp_def]

theorem mem_toList_emitAll (he : e ∈ q.toList) (ds : List Diagnostic) :
    e ∈ (q.emitAll ds).toList := by
  rw [toList_emitAll]
  exact List.mem_append_left _ he

theorem offered_cons {meets : Queue → Diagnostic → Prop} :
    (∃ before d' after, d :: ds = before ++ d' :: after ∧ meets (q.emitAll before) d') ↔
      meets q d ∨ ∃ before d' after, ds = before ++ d' :: after ∧
        meets ((q.emit d).emitAll before) d' := by
  constructor
  · rintro ⟨before, d', after, hsplit, hmeets⟩
    cases before with
    | nil =>
      cases hsplit
      exact .inl hmeets
    | cons first before =>
      cases hsplit
      exact .inr ⟨before, d', after, rfl, hmeets⟩
  · rintro (hmeets | ⟨before, d', after, rfl, hmeets⟩)
    · exact ⟨[], d, ds, rfl, hmeets⟩
    · exact ⟨d :: before, d', after, rfl, hmeets⟩

theorem refuses_cons : q.Refuses (d :: ds) ↔ q.Exceeds d ∨ (q.emit d).Refuses ds :=
  offered_cons

theorem overflowed_emitAll (q : Queue) (ds : List Diagnostic) :
    (q.emitAll ds).overflowed = true ↔ q.overflowed = true ∨ q.Refuses ds := by
  induction ds generalizing q with
  | nil => simp [emitAll, Refuses]
  | cons d ds ih =>
    have hstep : (q.emit d).overflowed = true ↔ q.overflowed = true ∨ q.Exceeds d :=
      (add_offer q d).overflowed_iff
    have hrest : (q.emitAll (d :: ds)).overflowed = true ↔
        (q.emit d).overflowed = true ∨ (q.emit d).Refuses ds := ih (q.emit d)
    rw [hrest, hstep, refuses_cons, or_assoc]

theorem insertByPosition_eq (entry : Nat × Diagnostic) (entries : List (Nat × Diagnostic)) :
    insertByPosition entry entries = entries.orderedInsert (fun a b => a.1 ≤ b.1) entry := by
  induction entries with
  | nil => rfl
  | cons next rest ih => rw [insertByPosition, ih, List.orderedInsert_cons]

theorem sortByPosition_eq (entries : List (Nat × Diagnostic)) :
    sortByPosition entries = entries.insertionSort fun a b => a.1 ≤ b.1 := by
  induction entries with
  | nil => rfl
  | cons entry entries ih =>
    rw [List.insertionSort_cons, ← ih, ← insertByPosition_eq]
    rfl

theorem sortByPosition_map (ds : List Diagnostic) :
    (sortByPosition (ds.map fun d => (d.position, d))).map Prod.snd =
      ds.insertionSort fun d e => d.position ≤ e.position := by
  have hsort := List.map_insertionSort (fun d e => d.position ≤ e.position)
    (fun a b : Nat × Diagnostic => a.1 ≤ b.1) (fun d => (d.position, d)) ds (fun _ _ _ _ => .rfl)
  rw [sortByPosition_eq, ← hsort, List.map_map]
  exact List.map_id _

theorem fate_of_reports {reports : List Diagnostic} (hheld : ∀ e ∈ (q.emit d).toList, e ∈ reports)
    (hlimit : q.Exceeds d → ∃ e, reports.getLast? = some e ∧ e.code = .e9002) :
    q.Fate d reports := by
  have ho := add_offer q d
  have hemit : q.emit d = (q.add d).2 := rfl
  generalize hx : q.add d = x at ho hemit
  rw [hemit] at hheld
  cases ho with
  | exceeds h => exact .refused h (hlimit h)
  | filtered _ h => exact .filtered h
  | repeated _ _ h =>
    obtain ⟨hdedup, e, he, halike⟩ := h
    exact .repeated hdedup ⟨e, hheld e he, halike⟩
  | held =>
    refine .reported (by rw [hx]) (hheld d ?_)
    rw [toList_hold]
    exact List.mem_append_right _ List.mem_cons_self

/-- A queue that was new is offered a list of diagnostics and flushed. It gives those that it took
in the order of their places, and then one notice if and only if the limit refused an error. Each
of the list is reported, or follows from an earlier error, or is like one that is reported, or
was refused by the limit, which the notice tells. Then the queue is as new. -/
theorem flush_accounts_for_everything (policy : QueuePolicy) (ds : List Diagnostic) :
    ∃ sorted notice : List Diagnostic,
      ((fresh policy).emitAll ds).flush = (sorted ++ notice, fresh policy) ∧
      Diagnostic.Ordered ((fresh policy).taken ds) sorted ∧
      ((fresh policy).Refuses ds ∧
          (∃ span, notice = [Diagnostic.tooManyErrors policy.errorLimit span]) ∨
        ¬(fresh policy).Refuses ds ∧ notice = []) ∧
      ∀ before d after, ds = before ++ d :: after →
        ((fresh policy).emitAll before).Fate d (sorted ++ notice) := by
  have hpolicy := policy_emitAll (fresh policy) ds
  have hheld : ((fresh policy).emitAll ds).held =
      ((fresh policy).taken ds).map fun d => (d.position, d) := held_emitAll (fresh policy) ds
  have hlist : ((fresh policy).emitAll ds).toList = (fresh policy).taken ds :=
    toList_emitAll (fresh policy) ds
  have hover : ((fresh policy).emitAll ds).overflowed = true ↔ (fresh policy).Refuses ds := by
    simp [overflowed_emitAll, fresh]
  have hordered := Diagnostic.insertionSort_ordered ((fresh policy).taken ds)
  rw [← sortByPosition_map, ← hheld] at hordered
  refine ⟨_, _, Prod.ext rfl (congrArg fresh hpolicy), hordered, ?_, ?_⟩
  · rw [hpolicy]
    split
    · next hflag => exact .inl ⟨hover.mp hflag, _, rfl⟩
    · next hflag => exact .inr ⟨mt hover.mpr hflag, rfl⟩
  · intro before d after hsplit
    apply fate_of_reports
    · intro e he
      have hlater := mem_toList_emitAll he after
      have hall : ((fresh policy).emitAll before).emit d = (fresh policy).emitAll (before ++ [d]) :=
        (emitAll_append before [d]).symm
      rw [hall, ← emitAll_append, List.append_assoc, List.singleton_append, ← hsplit, hlist]
        at hlater
      exact List.mem_append_left _ (hordered.perm.mem_iff.mpr hlater)
    · intro hexceeds
      rw [if_pos (hover.mpr ⟨before, d, after, hsplit, hexceeds⟩)]
      exact ⟨_, List.getLast?_concat, rfl⟩

/-- Of these errors the third repeats the first, one mentions the error type, and the last exceeds a
limit of two. The warning stands before an error at the same place. -/
def submissions : List Diagnostic := [
  .ofTemplate .e2001 ⟨7, 8⟩ ["int", "string"], .ofTemplate .w2001 ⟨3, 4⟩ ["any", "int"],
  .ofTemplate .e2001 ⟨7, 8⟩ ["int", "string"], .ofTemplate .e2001 ⟨5, 6⟩ ["int", "<error>"],
  .ofTemplate .e2002 ⟨3, 4⟩ ["json", "blob"], .ofTemplate .e2001 ⟨1, 2⟩ ["int", "float"]]

theorem submissions_accounted_for :
    let reports := ((fresh ⟨2, true, true⟩).emitAll submissions).flush.1
    reports.map (fun d => (d.code, d.position)) =
        [(.w2001, 3), (.e2002, 3), (.e2001, 7), (.e9002, 7)] ∧
      ∀ before d after, submissions = before ++ d :: after →
        ((fresh ⟨2, true, true⟩).emitAll before).Fate d reports := by
  obtain ⟨sorted, notice, hflush, -, -, hfate⟩ :=
    flush_accounts_for_everything ⟨2, true, true⟩ submissions
  constructor
  · decide +kernel
  · rw [hflush]
    exact hfate

end Queue

def QueuePolicy.withoutLimit (policy : QueuePolicy) : QueuePolicy := { policy with errorLimit := 0 }

namespace Queue

/-- The limit refuses the error, and nothing else would. -/
structure LimitAlone (q : Queue) (d : Diagnostic) : Prop where
  exceeds : q.Exceeds d
  unfiltered : ¬q.Filters d
  unlike : ¬q.Repeats d

def Withholds (q : Queue) (ds : List Diagnostic) : Prop :=
  ∃ before d after, ds = before ++ d :: after ∧ (q.emitAll before).LimitAlone d

def GivesNotice (q : Queue) : Prop :=
  ∃ reports span, q.flush.1 = reports ++ [.tooManyErrors q.policy.errorLimit span] ∧
    reports.Perm q.toList

/-- The second queue has no limit but the same settings otherwise, and holds the same. -/
structure Shadows (q u : Queue) : Prop where
  policy : u.policy = q.policy.withoutLimit
  held : u.held = q.held
  count : u.errorCount = q.errorCount

variable {q u : Queue} {d : Diagnostic} {ds : List Diagnostic}

theorem emit_cases (q : Queue) (d : Diagnostic) :
    (q.Exceeds d ∧ q.emit d = { q with overflowed := true }) ∨
    (¬q.Exceeds d ∧ (q.Filters d ∨ q.Repeats d) ∧ q.emit d = q) ∨
    (¬q.Exceeds d ∧ ¬(q.Filters d ∨ q.Repeats d) ∧ q.emit d = q.hold d) := by
  have ho := add_offer q d
  rw [emit]
  generalize q.add d = x at ho
  cases ho with
  | exceeds h => exact .inl ⟨h, rfl⟩
  | filtered hroom h => exact .inr (.inl ⟨hroom, .inl h, rfl⟩)
  | repeated hroom _ h => exact .inr (.inl ⟨hroom, .inr h, rfl⟩)
  | held hroom hfilters hrepeats =>
    exact .inr (.inr ⟨hroom, not_or.mpr ⟨hfilters, hrepeats⟩, rfl⟩)

theorem errorCount_hold (q : Queue) (hd : d.isError = true) :
    (q.hold d).errorCount = q.errorCount + 1 := by
  simp [hold, hd]

theorem errorCount_emitAll_le (q : Queue) (ds : List Diagnostic) :
    q.errorCount ≤ (q.emitAll ds).errorCount := by
  induction ds generalizing q with
  | nil => exact Nat.le_refl _
  | cons d ds ih =>
    have hstep : q.errorCount ≤ (q.emit d).errorCount := by
      rcases emit_cases q d with ⟨-, hemit⟩ | ⟨-, -, hemit⟩ | ⟨-, -, hemit⟩
      · rw [hemit]
      · rw [hemit]
      · rw [hemit, hold]
        dsimp only
        split <;> omega
    exact Nat.le_trans hstep (ih (q.emit d))

theorem emitAll_consistent (hq : q.Consistent) (ds : List Diagnostic) :
    (q.emitAll ds).Consistent := by
  induction ds generalizing q with
  | nil => exact hq
  | cons d ds ih => exact ih ((add_offer q d).consistent hq)

theorem withholds_cons : q.Withholds (d :: ds) ↔ q.LimitAlone d ∨ (q.emit d).Withholds ds :=
  offered_cons

theorem Withholds.refuses (h : q.Withholds ds) : q.Refuses ds := by
  obtain ⟨before, d, after, hsplit, halone⟩ := h
  exact ⟨before, d, after, hsplit, halone.exceeds⟩

namespace Shadows

theorem not_exceeds (h : Shadows q u) : ¬u.Exceeds d := by
  rintro ⟨-, hreached⟩
  have hpos := (limitReached_iff.mp hreached).1
  rw [h.policy] at hpos
  exact Nat.lt_irrefl 0 hpos

theorem drops_iff (h : Shadows q u) : u.Filters d ∨ u.Repeats d ↔ q.Filters d ∨ q.Repeats d := by
  simp [Filters, Repeats, toList, h.policy, h.held, QueuePolicy.withoutLimit]

theorem emit (h : Shadows q u) (hd : ¬q.LimitAlone d) : Shadows (q.emit d) (u.emit d) := by
  rcases emit_cases u d with ⟨hexceeds, -⟩ | ⟨-, hdrops, hu⟩ | ⟨-, hpasses, hu⟩
  · exact absurd hexceeds h.not_exceeds
  · have hdrops := h.drops_iff.mp hdrops
    rw [hu]
    rcases emit_cases q d with ⟨-, hq⟩ | ⟨-, -, hq⟩ | ⟨-, hpasses, -⟩
    · rw [hq]
      exact ⟨h.policy, h.held, h.count⟩
    · rw [hq]
      exact h
    · exact absurd hdrops hpasses
  · have hpasses := mt h.drops_iff.mpr hpasses
    rw [hu]
    rcases emit_cases q d with ⟨hexceeds, -⟩ | ⟨-, hdrops, -⟩ | ⟨-, -, hq⟩
    · obtain ⟨hfilters, hrepeats⟩ := not_or.mp hpasses
      exact absurd ⟨hexceeds, hfilters, hrepeats⟩ hd
    · exact absurd hdrops hpasses
    · rw [hq]
      exact ⟨h.policy, by simp [hold, h.held], by simp [hold, h.count]⟩

theorem errorCount_of_limitAlone (h : Shadows q u) (hd : q.LimitAlone d) :
    q.policy.errorLimit < (u.emit d).errorCount := by
  have hfull := (limitReached_iff.mp hd.exceeds.2).2
  rcases emit_cases u d with ⟨hexceeds, -⟩ | ⟨-, hdrops, -⟩ | ⟨-, -, hu⟩
  · exact absurd hexceeds h.not_exceeds
  · exact absurd (h.drops_iff.mp hdrops) (not_or.mpr ⟨hd.unfiltered, hd.unlike⟩)
  · rw [hu, errorCount_hold u hd.exceeds.1, h.count]
    omega

/-- Without the limit there are more errors than it allows exactly if it alone kept one out. -/
theorem errorCount_emitAll (h : Shadows q u) (hq : q.Consistent) (hlimit : 0 < q.policy.errorLimit)
    (ds : List Diagnostic) :
    q.policy.errorLimit < (u.emitAll ds).errorCount ↔ q.Withholds ds := by
  induction ds generalizing q u with
  | nil =>
    have hle := hq.limited hlimit
    rw [← h.count] at hle
    simp [emitAll, Withholds, hle]
  | cons d ds ih =>
    have hrest : u.emitAll (d :: ds) = (u.emit d).emitAll ds := rfl
    rw [withholds_cons, hrest]
    by_cases hd : q.LimitAlone d
    · have hmore := Nat.lt_of_lt_of_le (h.errorCount_of_limitAlone hd)
        (errorCount_emitAll_le (u.emit d) ds)
      exact iff_of_true hmore (.inl hd)
    · have hpolicy : (q.emit d).policy = q.policy := (add_offer q d).policy_eq
      have hnext := ih (h.emit hd) ((add_offer q d).consistent hq) (hpolicy ▸ hlimit)
      rw [hpolicy] at hnext
      rw [hnext, or_iff_right hd]

end Shadows

theorem sorted_perm (q : Queue) : ((sortByPosition q.held).map Prod.snd).Perm q.toList := by
  rw [sortByPosition_eq]
  exact (List.perm_insertionSort _ q.held).map Prod.snd

theorem givesNotice_iff : q.GivesNotice ↔ q.overflowed = true := by
  constructor
  · rintro ⟨reports, span, hflush, hperm⟩
    by_contra hnot
    -- Without the flag a flush is no longer than what is held.
    have hlength := congrArg List.length hflush
    simp [flush, hnot, (sorted_perm q).length_eq, hperm.length_eq] at hlength
  · intro hflag
    simp only [GivesNotice, flush, if_pos hflag]
    exact ⟨_, _, rfl, sorted_perm q⟩

theorem countP_flush (hq : q.Consistent) (hlimit : q.policy.errorLimit = 0) :
    q.flush.1.countP Diagnostic.isError = q.errorCount := by
  have hflag : q.overflowed = false := by
    rw [Bool.eq_false_iff]
    intro hflag
    have hpos := (hq.overflow hflag).1
    omega
  simp [flush, hflag, (sorted_perm q).countP_eq, hq.counted]

/-- Let the same diagnostics be offered to a queue with a limit and to one without. The second
reports more errors than the limit allows exactly if the limit alone kept one out, and then the
first gives notice. A notice can be wrong only where errors are filtered or compared. -/
theorem notice_true_iff_limit_alone_refuses (policy : QueuePolicy) (hlimit : 0 < policy.errorLimit)
    (ds : List Diagnostic) :
    let limited := (fresh policy).emitAll ds
    let reports := ((fresh policy.withoutLimit).emitAll ds).flush.1
    (policy.errorLimit < reports.countP Diagnostic.isError ↔ (fresh policy).Withholds ds) ∧
    (policy.errorLimit < reports.countP Diagnostic.isError → limited.GivesNotice) ∧
    (policy.filterFollowOn = false → policy.deduplicate = false → limited.GivesNotice →
      policy.errorLimit < reports.countP Diagnostic.isError) := by
  intro limited reports
  have hcount : reports.countP Diagnostic.isError =
      ((fresh policy.withoutLimit).emitAll ds).errorCount := by
    apply countP_flush
    · exact emitAll_consistent (fresh_consistent _) ds
    · rw [policy_emitAll]
      rfl
  have hshadows : Shadows (fresh policy) (fresh policy.withoutLimit) := ⟨rfl, rfl, rfl⟩
  have hiff : policy.errorLimit < reports.countP Diagnostic.isError ↔ (fresh policy).Withholds ds :=
    hcount ▸ hshadows.errorCount_emitAll (fresh_consistent policy) hlimit ds
  have hnotice : limited.GivesNotice ↔ (fresh policy).Refuses ds := by
    rw [givesNotice_iff, overflowed_emitAll]
    simp [fresh]
  refine ⟨hiff, fun hmore => hnotice.mpr (hiff.mp hmore).refuses, ?_⟩
  intro hfilter hdedup hgiven
  obtain ⟨before, d, after, hsplit, hexceeds⟩ := hnotice.mp hgiven
  have hpolicy := policy_emitAll (fresh policy) before
  refine hiff.mpr ⟨before, d, after, hsplit, hexceeds, ?_, ?_⟩
  · rintro ⟨hfilters, -⟩
    rw [hpolicy] at hfilters
    cases hfilter.symm.trans hfilters
  · rintro ⟨hrepeats, -⟩
    rw [hpolicy] at hrepeats
    cases hdedup.symm.trans hrepeats

theorem submissions_withheld : (fresh ⟨2, true, true⟩).Withholds submissions :=
  (notice_true_iff_limit_alone_refuses ⟨2, true, true⟩ (by decide) submissions).1.mp
    (by decide +kernel)

def twice : List Diagnostic :=
  List.replicate 2 (.ofTemplate .e2001 ⟨7, 8⟩ ["int", "string"])

/-- The repetition brings the notice, but without a limit there would be only the one error. -/
theorem twice_gives_false_notice :
    ((fresh ⟨1, true, true⟩).emitAll twice).GivesNotice ∧
      ((fresh (QueuePolicy.withoutLimit ⟨1, true, true⟩)).emitAll twice).flush.1.countP
        Diagnostic.isError = 1 := by
  constructor
  · exact givesNotice_iff.mpr (by decide +kernel)
  · decide +kernel

end Queue

end TypeConformance
