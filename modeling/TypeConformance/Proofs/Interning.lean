import Mathlib.Algebra.BigOperators.Group.Finset.Piecewise
import Mathlib.Data.Fintype.Basic
import TypeConformance.Naming
import TypeConformance.Proofs.Answer

/-! # Texts and names correspond one to one

A pool is filled by interning, starting from the empty text. Each name that was given out leads
back to its text, also after more texts have come in. However a new pool is filled, within its
capacity: each text has one name and each name one text, for good. Both the texts of a shard and
its index tell the position of a text, and the pool counts every text once.
-/
namespace TypeConformance

/-- The index leads from each text to its position, and to nothing else. -/
def Shard.Indexed (k : Shard) : Prop :=
  ∀ s i, k.index.lookup s = some i ↔ k.texts[i]? = some s

theorem Shard.empty_indexed : Shard.Indexed {} := by
  intro s i
  simp

theorem Shard.lookup_push (k : Shard) (s t : String) :
    (k.push s).index.lookup t = if t = s then some k.texts.length else k.index.lookup t := by
  rw [push, List.lookup_cons]
  grind

theorem Shard.push_indexed {k : Shard} {s : String} (hk : k.Indexed)
    (hnew : k.index.lookup s = none) : (k.push s).Indexed := by
  intro t i
  have hfresh : k.texts[i]? ≠ some s := by
    intro hi
    cases hnew.symm.trans ((hk s i).mpr hi)
  have htexts : (k.push s).texts[i]? = some t ↔
      k.texts[i]? = some t ∨ i = k.texts.length ∧ t = s := by
    rw [push]
    grind
  rw [lookup_push, htexts]
  split
  · rename_i ht
    subst ht
    simp [hfresh, eq_comm]
  · rename_i ht
    simp [hk t i, ht]

namespace Pool

/-- Interning calls on a pool that held only the empty text, with the texts and the names given
out for them, the latest first. -/
inductive Run : Pool → List (String × Name) → Prop where
  | bare : Run bare [("", Name.empty)]
  | intern {p q log s n} : Run p log → p.intern s = .ok (n, q) → Run q ((s, n) :: log)

def Interned (p : Pool) (n : Name) : Prop := ∃ log s, p.Run log ∧ (s, n) ∈ log

def texts (p : Pool) (k : Fin Name.shardCount) : List String := p.shards[k].texts

def position? (p : Pool) (k : Fin Name.shardCount) (s : String) : Option Nat :=
  p.shards[k].index.lookup s

def put (p : Pool) (k : Fin Name.shardCount) (s : String) : Pool where
  shards := p.shards.set k (p.shards[k].push s)
  count := p.count + 1

/-- No shard has more texts than there are positions. Each text is in its own shard, where the
index finds it. -/
structure Sound (p : Pool) : Prop where
  bounded : ∀ k, (p.texts k).length ≤ Name.maxPosition + 1
  indexed : ∀ k s i, p.position? k s = some i ↔ (p.texts k)[i]? = some s
  placed : ∀ k, ∀ s ∈ p.texts k, shardOf s = k

variable {p q : Pool} {s text : String} {n m : Name} {log : List (String × Name)}

theorem shards_put (k k' : Fin Name.shardCount) :
    (p.put k s).shards[k'] = if k = k' then p.shards[k].push s else p.shards[k'] := by
  simp [put, Vector.getElem_set, Fin.ext_iff]

theorem texts_put (k k' : Fin Name.shardCount) :
    (p.put k s).texts k' = if k = k' then p.texts k ++ [s] else p.texts k' := by
  rw [texts, shards_put]
  split <;> rfl

/-- Interning finds the text in its shard, or puts it there. -/
theorem intern_cases (hq : p.intern s = .ok (n, q)) :
    (∃ i, p.position? (shardOf s) s = some i ∧ n = .ofParts (shardOf s) i ∧ q = p) ∨
    (p.position? (shardOf s) s = none ∧ (p.texts (shardOf s)).length ≤ Name.maxPosition ∧
      n = .ofParts (shardOf s) (p.texts (shardOf s)).length ∧ q = p.put (shardOf s) s) := by
  simp only [Pool.intern] at hq
  split at hq
  · rename_i i hi
    cases hq
    exact .inl ⟨i, hi, rfl, rfl⟩
  · rename_i hnone
    split at hq
    · cases hq
    · rename_i hroom
      cases hq
      exact .inr ⟨hnone, Nat.le_of_not_lt hroom, rfl, rfl⟩

theorem lookup_eq_ok : p.lookup n = .ok text ↔ (p.texts n.shard)[n.position]? = some text := by
  simp only [lookup]
  split
  · rename_i found hfound
    have htexts : (p.texts n.shard)[n.position]? = some found := hfound
    rw [htexts, Except.ok.injEq, Option.some.injEq]
  · rename_i hnone
    have htexts : (p.texts n.shard)[n.position]? = none := hnone
    simp [htexts]

theorem lookup_ofParts {k : Fin Name.shardCount} {i : Nat} (hi : i ≤ Name.maxPosition) :
    p.lookup (.ofParts k i) = .ok text ↔ (p.texts k)[i]? = some text := by
  rw [lookup_eq_ok, Name.shard_ofParts k hi, Name.position_ofParts k hi]

theorem put_sound (hp : p.Sound) (hnew : p.position? (shardOf s) s = none)
    (hroom : (p.texts (shardOf s)).length ≤ Name.maxPosition) : (p.put (shardOf s) s).Sound := by
  constructor
  · intro k
    rw [texts_put]
    split
    · rw [List.length_append]
      exact Nat.succ_le_succ hroom
    · exact hp.bounded k
  · intro k
    change Shard.Indexed (p.put (shardOf s) s).shards[k]
    rw [shards_put]
    split
    · exact Shard.push_indexed (hp.indexed (shardOf s)) hnew
    · exact hp.indexed k
  · intro k t ht
    rw [texts_put] at ht
    split at ht
    · rename_i heq
      rcases List.mem_append.mp ht with hold | hnew
      · exact heq ▸ hp.placed _ t hold
      · exact List.mem_singleton.mp hnew ▸ heq
    · exact hp.placed k t ht

theorem intern_sound (hp : p.Sound) (hq : p.intern s = .ok (n, q)) : q.Sound := by
  rcases intern_cases hq with ⟨_, _, _, rfl⟩ | ⟨hnew, hroom, _, rfl⟩
  · exact hp
  · exact put_sound hp hnew hroom

theorem position?_put (k k' : Fin Name.shardCount) (t : String) :
    (p.put k s).position? k' t =
      if k = k' ∧ t = s then some (p.texts k).length else p.position? k' t := by
  rw [position?, shards_put]
  by_cases hk : k = k'
  · subst hk
    rw [if_pos rfl, Shard.lookup_push]
    simp [texts, position?]
  · simp [hk, position?]

theorem intern_position (hq : p.intern s = .ok (n, q)) :
    ∃ i, q.position? (shardOf s) s = some i ∧ n = .ofParts (shardOf s) i := by
  rcases intern_cases hq with ⟨i, hi, rfl, rfl⟩ | ⟨_, _, rfl, rfl⟩
  · exact ⟨i, hi, rfl⟩
  · exact ⟨_, by rw [position?_put, if_pos ⟨rfl, rfl⟩], rfl⟩

theorem intern_keeps_position {k : Fin Name.shardCount} {i : Nat} (hq : p.intern s = .ok (n, q))
    (hi : p.position? k text = some i) : q.position? k text = some i := by
  rcases intern_cases hq with ⟨_, _, _, rfl⟩ | ⟨hnew, _, _, rfl⟩
  · exact hi
  · have hother : ¬(shardOf s = k ∧ text = s) := by
      rintro ⟨rfl, rfl⟩
      cases hnew.symm.trans hi
    rw [position?_put, if_neg hother, hi]

theorem position_le {k : Fin Name.shardCount} {i : Nat} (hp : p.Sound)
    (hi : p.position? k s = some i) : i ≤ Name.maxPosition := by
  obtain ⟨hlt, -⟩ := List.getElem?_eq_some_iff.mp ((hp.indexed k s i).mp hi)
  have hle := hp.bounded k
  omega

theorem bare_sound : Sound bare := by
  have hshards : ∀ k : Fin Name.shardCount, bare.shards[k] = {} ∨
      bare.shards[k] = Shard.push {} "" ∧ shardOf "" = k := by
    decide +kernel
  constructor
  · have hall : ∀ k, (bare.texts k).length ≤ 1 := by decide
    intro k
    exact Nat.le_trans (hall k) (by decide)
  · intro k
    change Shard.Indexed bare.shards[k]
    rcases hshards k with h | ⟨h, -⟩
    · exact h ▸ Shard.empty_indexed
    · exact h ▸ Shard.push_indexed Shard.empty_indexed rfl
  · intro k s hs
    rw [texts] at hs
    rcases hshards k with h | ⟨h, hk⟩
    · rw [h] at hs
      cases hs
    · rw [h] at hs
      cases List.mem_singleton.mp hs
      exact hk

theorem run_sound (hp : p.Run log) : p.Sound := by
  induction hp with
  | bare => exact bare_sound
  | intern _ hq ih => exact intern_sound ih hq

theorem run_position (hp : p.Run log) (hm : (text, m) ∈ log) :
    ∃ i, p.position? (shardOf text) text = some i ∧ m = .ofParts (shardOf text) i := by
  induction hp with
  | bare =>
    obtain ⟨rfl, rfl⟩ : text = "" ∧ m = Name.empty := by simpa using hm
    exact ⟨0, by decide⟩
  | intern hrun hq ih =>
    rcases List.mem_cons.mp hm with heq | hm
    · cases heq
      exact intern_position hq
    · obtain ⟨i, hi, hname⟩ := ih hm
      exact ⟨i, intern_keeps_position hq hi, hname⟩

theorem run_lookup (hp : p.Run log) (hm : (text, m) ∈ log) : p.lookup m = .ok text := by
  obtain ⟨i, hi, rfl⟩ := run_position hp hm
  have hsound := run_sound hp
  exact (lookup_ofParts (position_le hsound hi)).mpr ((hsound.indexed _ _ _).mp hi)

theorem interned_lookup (hn : p.Interned n) : ∃ text, p.lookup n = .ok text := by
  obtain ⟨log, text, hrun, hmem⟩ := hn
  exact ⟨text, run_lookup hrun hmem⟩

theorem internAll_run {texts : List String} {names : List Name} (hp : p.Run log)
    (hq : p.internAll texts = .ok (names, q)) :
    names.length = texts.length ∧ q.Run ((texts.zip names).reverse ++ log) := by
  induction texts generalizing p log names with
  | nil =>
    cases hq
    exact ⟨rfl, hp⟩
  | cons s rest ih =>
    obtain ⟨⟨n, p'⟩, hfirst, hq⟩ := bind_eq_ok.mp hq
    obtain ⟨⟨ns, q'⟩, hrest, hq⟩ := bind_eq_ok.mp hq
    cases hq
    obtain ⟨hlength, hrun⟩ := ih (.intern hp hfirst) hrest
    exact ⟨congrArg (· + 1) hlength, by simpa using hrun⟩

theorem initial_run : ∃ log, initial.Run log := by
  unfold initial
  split
  · rename_i hp
    exact ⟨_, (internAll_run .bare hp).2⟩
  · exact ⟨_, .bare⟩

end Pool

theorem Name.exists_pack (shard : Fin shardCount) {position : Nat} (h : position ≤ maxPosition) :
    ∃ n, pack shard position = .ok n ∧ n.shard = shard ∧ n.position = position := by
  refine ⟨ofParts shard position, ?_, shard_ofParts shard h, position_ofParts shard h⟩
  rw [pack, dif_pos shard.isLt, if_neg (Nat.not_lt.mpr h)]

namespace Pool

/-- Each shard has a position for every text of the list that belongs to it. -/
def Roomy (texts : List String) : Prop :=
  ∀ k, (texts.filter fun s => shardOf s = k).toFinset.card ≤ Name.maxPosition + 1

/-- What a pool has to do with the texts that it was asked to keep and the names that it gave for
them. -/
structure Catalogue (p : Pool) (log : List (String × Name)) : Prop where
  injective : ∀ e ∈ log, ∀ f ∈ log, e.2 = f.2 ↔ e.1 = f.1
  lookup : ∀ e ∈ log, p.lookup e.2 = .ok e.1
  /-- Names still lead back to their texts after any further calls. -/
  stable : ∀ texts names q, p.internAll texts = .ok (names, q) → ∀ e ∈ log, q.lookup e.2 = .ok e.1
  again : ∀ e ∈ log, p.intern e.1 = .ok (e.2, p)
  placed : ∀ e ∈ log, e.2.shard = shardOf e.1
  inverse : ∀ k s i, p.position? k s = some i ↔ (p.texts k)[i]? = some s
  complete : ∀ s, (∃ k, s ∈ p.texts k) ↔ s ∈ log.map Prod.fst
  counted : p.count = ∑ k, (p.texts k).toFinset.card
  total : p.count = (log.map Prod.fst).toFinset.card

variable {p q : Pool} {s : String} {n : Name} {log : List (String × Name)} {all : List String}

theorem nodup_texts (hp : p.Sound) (k : Fin Name.shardCount) : (p.texts k).Nodup := by
  rw [List.nodup_iff_getElem?_ne_getElem?]
  intro i j hij hj hsame
  have hi : (p.texts k)[i]? = some (p.texts k)[j] := hsame.trans (List.getElem?_eq_getElem hj)
  have hposition := (hp.indexed k _ i).mpr hi
  rw [(hp.indexed k _ j).mpr (List.getElem?_eq_getElem hj), Option.some.injEq] at hposition
  omega

theorem mem_texts_iff (hp : p.Sound) {k : Fin Name.shardCount} :
    s ∈ p.texts k ↔ ∃ i, p.position? k s = some i := by
  rw [List.mem_iff_getElem?]
  exact exists_congr fun i => (hp.indexed k s i).symm

theorem intern_of_position {i : Nat} (hi : p.position? (shardOf s) s = some i) :
    p.intern s = .ok (.ofParts (shardOf s) i, p) := by
  have hfound : p.shards[shardOf s].index.lookup s = some i := hi
  simp only [intern, hfound]

theorem mem_texts_intern {t : String} {k : Fin Name.shardCount} (hq : p.intern s = .ok (n, q))
    (ht : t ∈ q.texts k) : t ∈ p.texts k ∨ t = s := by
  rcases intern_cases hq with ⟨_, _, _, rfl⟩ | ⟨_, _, _, rfl⟩
  · exact .inl ht
  · rw [texts_put] at ht
    split at ht
    · rename_i hk
      rcases List.mem_append.mp ht with hold | hnew
      · exact .inl (hk ▸ hold)
      · exact .inr (List.mem_singleton.mp hnew)
    · exact .inl ht

theorem run_complete (hp : p.Run log) : (∃ k, s ∈ p.texts k) ↔ s ∈ log.map Prod.fst := by
  constructor
  · rintro ⟨k, hs⟩
    induction hp with
    | bare =>
      have hall : ∀ k, bare.texts k = [] ∨ bare.texts k = [""] := by decide
      rcases hall k with hnil | hempty
      · rw [hnil] at hs
        cases hs
      · rw [hempty] at hs
        exact hs
    | intern _ hq ih =>
      rcases mem_texts_intern hq hs with hold | rfl
      · exact List.mem_cons_of_mem _ (ih hold)
      · exact List.mem_cons_self
  · intro hs
    obtain ⟨⟨s, n⟩, hmem, rfl⟩ := List.mem_map.mp hs
    obtain ⟨i, hi, -⟩ := run_position hp hmem
    exact ⟨_, (mem_texts_iff (run_sound hp)).mpr ⟨i, hi⟩⟩

theorem intern_answers (hp : p.Run log) (hroom : Roomy all) (hlog : log.map Prod.fst ⊆ all)
    (hs : s ∈ all) : ∃ n q, p.intern s = .ok (n, q) := by
  have hsound := run_sound hp
  cases hi : p.position? (shardOf s) s with
  | some i => exact ⟨_, _, intern_of_position hi⟩
  | none =>
    have hnew : s ∉ p.texts (shardOf s) := by
      rw [mem_texts_iff hsound, hi]
      simp
    have hnodup : (s :: p.texts (shardOf s)).Nodup :=
      List.nodup_cons.mpr ⟨hnew, nodup_texts hsound (shardOf s)⟩
    have hsub : (s :: p.texts (shardOf s)).toFinset ⊆
        (all.filter fun t => shardOf t = shardOf s).toFinset := by
      intro t ht
      rw [List.mem_toFinset] at ht ⊢
      rcases List.mem_cons.mp ht with rfl | ht
      · simp [hs]
      · have hall : t ∈ all := hlog ((run_complete hp).mp ⟨_, ht⟩)
        simp [hall, hsound.placed _ t ht]
    have hfits : (p.texts (shardOf s)).length + 1 ≤ Name.maxPosition + 1 :=
      calc (p.texts (shardOf s)).length + 1
        _ = (s :: p.texts (shardOf s)).toFinset.card := (List.toFinset_card_of_nodup hnodup).symm
        _ ≤ (all.filter fun t => shardOf t = shardOf s).toFinset.card := Finset.card_le_card hsub
        _ ≤ Name.maxPosition + 1 := hroom (shardOf s)
    have hfree : ¬Name.maxPosition < p.shards[shardOf s].texts.length :=
      Nat.not_lt.mpr (Nat.le_of_succ_le_succ hfits)
    have hmissing : p.shards[shardOf s].index.lookup s = none := hi
    simp only [intern, hmissing, if_neg hfree]
    exact ⟨_, _, rfl⟩

theorem internAll_answers {texts : List String} (hp : p.Run log) (hroom : Roomy all)
    (hlog : log.map Prod.fst ⊆ all) (htexts : texts ⊆ all) :
    ∃ names q, p.internAll texts = .ok (names, q) := by
  induction texts generalizing p log with
  | nil => exact ⟨[], p, rfl⟩
  | cons s rest ih =>
    obtain ⟨hs, hrest⟩ := List.cons_subset.mp htexts
    obtain ⟨n, p', hfirst⟩ := intern_answers hp hroom hlog hs
    obtain ⟨names, q, hnames⟩ := ih (.intern hp hfirst) (List.cons_subset.mpr ⟨hs, hlog⟩) hrest
    exact ⟨n :: names, q, by simp [internAll, hfirst, hnames]⟩

theorem count_put (k : Fin Name.shardCount) (hp : p.count = ∑ k, (p.texts k).length) :
    (p.put k s).count = ∑ k', ((p.put k s).texts k').length := by
  have hlength (k') : ((p.put k s).texts k').length =
      (p.texts k').length + if k = k' then 1 else 0 := by
    rw [texts_put]
    split
    · rename_i hk
      simp [hk]
    · rfl
  have hcount : (p.put k s).count = p.count + 1 := rfl
  simp [hcount, hlength, Finset.sum_add_distrib, ← hp]

theorem run_count (hp : p.Run log) : p.count = ∑ k, (p.texts k).length := by
  induction hp with
  | bare => decide
  | intern _ hq ih =>
    rcases intern_cases hq with ⟨_, _, _, rfl⟩ | ⟨_, _, _, rfl⟩
    · exact ih
    · exact count_put _ ih

theorem run_counted (hp : p.Run log) : p.count = ∑ k, (p.texts k).toFinset.card := by
  rw [run_count hp]
  refine Finset.sum_congr rfl fun k _ => ?_
  exact (List.toFinset_card_of_nodup (nodup_texts (run_sound hp) k)).symm

theorem run_total (hp : p.Run log) : p.count = (log.map Prod.fst).toFinset.card := by
  rw [run_counted hp, Finset.card_eq_sum_card_fiberwise (f := shardOf) (t := Finset.univ)
    (fun s _ => Finset.mem_coe.mpr (Finset.mem_univ _))]
  refine Finset.sum_congr rfl fun k _ => congrArg Finset.card ?_
  ext s
  rw [Finset.mem_filter, List.mem_toFinset, List.mem_toFinset, ← run_complete hp]
  constructor
  · intro hs
    exact ⟨⟨k, hs⟩, (run_sound hp).placed k s hs⟩
  · rintro ⟨⟨k', hs⟩, hk⟩
    rw [← hk, (run_sound hp).placed k' s hs]
    exact hs

theorem run_catalogue (hp : p.Run log) : p.Catalogue log.reverse := by
  have hsound := run_sound hp
  constructor
  · rintro ⟨s, n⟩ hs ⟨t, m⟩ ht
    rw [List.mem_reverse] at hs ht
    constructor
    · intro hname
      have hname : n = m := hname
      subst hname
      exact Except.ok.inj ((run_lookup hp hs).symm.trans (run_lookup hp ht))
    · rintro rfl
      obtain ⟨i, hi, rfl⟩ := run_position hp hs
      obtain ⟨j, hj, rfl⟩ := run_position hp ht
      cases hi.symm.trans hj
      rfl
  · exact fun e he => run_lookup hp (List.mem_reverse.mp he)
  · intro texts names q hq e he
    exact run_lookup (internAll_run hp hq).2 (List.mem_append_right _ (List.mem_reverse.mp he))
  · rintro ⟨s, n⟩ hs
    obtain ⟨i, hi, rfl⟩ := run_position hp (List.mem_reverse.mp hs)
    exact intern_of_position hi
  · rintro ⟨s, n⟩ hs
    obtain ⟨i, hi, rfl⟩ := run_position hp (List.mem_reverse.mp hs)
    exact Name.shard_ofParts _ (position_le hsound hi)
  · exact hsound.indexed
  · intro s
    rw [run_complete hp, List.map_reverse, List.mem_reverse]
  · exact run_counted hp
  · rw [run_total hp, List.map_reverse, List.toFinset_reverse]

theorem roomy_of_length {texts : List String} (h : texts.length ≤ Name.maxPosition + 1) :
    Roomy texts := by
  intro k
  calc (texts.filter fun s => shardOf s = k).toFinset.card
    _ ≤ (texts.filter fun s => shardOf s = k).length := List.toFinset_card_le _
    _ ≤ texts.length := List.length_filter_le _ _
    _ ≤ Name.maxPosition + 1 := h

/-- Let a new pool be asked for names of any texts that its shards have room for. Then it gives
them; and with the texts and names that it had from the start, they correspond one to one. What
makes up a name can be read off it. -/
theorem interning_is_stable_bijection (texts : List String)
    (hroom : Roomy ("" :: keywords ++ texts)) :
    ∃ presetNames names p log, bare.internAll keywords = .ok (presetNames, initial) ∧
      initial.internAll texts = .ok (names, p) ∧
      log.map Prod.fst = "" :: keywords ++ texts ∧
      log.map Prod.snd = Name.empty :: presetNames ++ names ∧ p.Catalogue log ∧
      ∀ (shard : Fin Name.shardCount) (position : Nat), position ≤ Name.maxPosition →
        ∃ n, Name.pack shard position = .ok n ∧ n.shard = shard ∧ n.position = position := by
  have hpresetSub : "" :: keywords ⊆ "" :: keywords ++ texts := List.subset_append_left _ _
  obtain ⟨hempty, hkeywords⟩ := List.cons_subset.mp hpresetSub
  obtain ⟨presetNames, p, hpreset⟩ := internAll_answers .bare hroom
    (List.cons_subset.mpr ⟨hempty, List.nil_subset _⟩) hkeywords
  obtain rfl : initial = p := by simp [initial, hpreset]
  obtain ⟨hpresetLength, hpresetRun⟩ := internAll_run .bare hpreset
  have hpresetTexts : (keywords.zip presetNames).map Prod.fst = keywords :=
    List.map_fst_zip hpresetLength.ge
  have hpresetNames : (keywords.zip presetNames).map Prod.snd = presetNames :=
    List.map_snd_zip hpresetLength.le
  have hlog : ((keywords.zip presetNames).reverse ++ [("", Name.empty)]).map Prod.fst ⊆
      "" :: keywords ++ texts := by
    rw [List.map_append, List.map_reverse, hpresetTexts]
    refine List.append_subset.mpr ⟨List.reverse_subset.mpr hkeywords, ?_⟩
    exact List.cons_subset.mpr ⟨hempty, List.nil_subset _⟩
  obtain ⟨names, p, hnames⟩ := internAll_answers hpresetRun hroom hlog
    (List.subset_append_right _ texts)
  obtain ⟨hlength, hrun⟩ := internAll_run hpresetRun hnames
  refine ⟨presetNames, names, p, _, hpreset, hnames, ?_, ?_, run_catalogue hrun, ?_⟩
  · simp [hpresetTexts, List.map_fst_zip hlength.ge]
  · simp [hpresetNames, List.map_snd_zip hlength.le]
  · exact fun shard _ => Name.exists_pack shard

/-- The first eight bytes of both texts are those of a keyword, and one of them is the keyword. -/
theorem interning_beside_keyword :
    Roomy ("" :: keywords ++ ["connectors", "connector", "connectors"]) ∧
    ∃ names p, initial.internAll ["connectors", "connector", "connectors"] = .ok (names, p) ∧
      p.count = 18 := by
  have hroom : Roomy ("" :: keywords ++ ["connectors", "connector", "connectors"]) :=
    roomy_of_length (by decide)
  obtain ⟨_, names, p, log, -, hnames, htexts, -, hcatalogue, -⟩ :=
    interning_is_stable_bijection ["connectors", "connector", "connectors"] hroom
  refine ⟨hroom, names, p, hnames, ?_⟩
  rw [hcatalogue.total, htexts]
  decide +kernel

end Pool

end TypeConformance
