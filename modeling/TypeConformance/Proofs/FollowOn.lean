import TypeConformance.Proofs.QueueRuns
import TypeConformance.Proofs.Reading
import TypeConformance.Proofs.Reports

/-! # Errors that follow from earlier ones

A report is taken for a consequence of an earlier error if its message shows the marker of the error
type. The marker is searched for in the text, where it has two sources: the error type itself, and
`json` with a constraint that was declared under the name `error`.
-/
namespace TypeConformance

def Marked (text : List Char) : Prop := errorMarker.toList <:+: text

theorem marked_separator {c : Char} {xs ys : List Char} (hc : c ∉ errorMarker.toList) :
    Marked (xs ++ c :: ys) ↔ Marked xs ∨ Marked ys :=
  Text.infix_append_separator hc

theorem not_marked {text : List Char} (h : '<' ∉ text) : ¬Marked text :=
  fun hmarked => h (hmarked.subset (by decide))

theorem not_marked_nil : ¬Marked [] := not_marked List.not_mem_nil

namespace Tree

variable {nameOf : DeclRef → String} {C E T : Tree} {Ts ps rs : List Tree} {text : List Char}

theorem marked_basic (b : Basic) : Marked ((basic b).chars nameOf) ↔ b = .error := by
  rw [chars_basic, Marked]
  cases b <;> decide

theorem marked_array : Marked ((array E).chars nameOf) ↔ Marked (E.chars nameOf) := by
  rw [chars_array, marked_separator (by decide), or_iff_left (not_marked (by decide))]

theorem marked_following :
    Marked (text ++ following nameOf Ts) ↔ Marked text ∨ ∃ T ∈ Ts, Marked (T.chars nameOf) := by
  induction Ts generalizing text with
  | nil => simp [following]
  | cons T Ts ih =>
    have hcons : following nameOf (T :: Ts) =
        ',' :: ([] ++ ' ' :: (T.chars nameOf ++ following nameOf Ts)) := by
      simp [following]
    rw [hcons, marked_separator (by decide), marked_separator (by decide), ih,
      or_iff_right (not_marked_nil)]
    simp

theorem marked_listed : Marked (listed nameOf Ts) ↔ ∃ T ∈ Ts, Marked (T.chars nameOf) := by
  cases Ts with
  | nil => simpa [listed] using not_marked_nil
  | cons T Ts => simpa [listed] using marked_following

theorem marked_returned : Marked (returned nameOf rs) ↔ ∃ R ∈ rs, Marked (R.chars nameOf) := by
  by_cases hrs : rs = []
  · simpa [returned, hrs] using not_marked_nil
  · have hsplit : returned nameOf rs =
        " returns ".toList ++ '(' :: (listed nameOf rs ++ [')']) := by
      simp [returned, hrs]
    rw [hsplit, marked_separator (by decide), marked_separator (by decide), marked_listed,
      or_iff_right (not_marked (by decide)), or_iff_left (not_marked_nil)]

theorem marked_function : Marked ((function ps rs).chars nameOf) ↔
    (∃ P ∈ ps, Marked (P.chars nameOf)) ∨ ∃ R ∈ rs, Marked (R.chars nameOf) := by
  have hsplit : (function ps rs).chars nameOf =
      "function ".toList ++ '(' :: (listed nameOf ps ++ ')' :: returned nameOf rs) := by
    simp [chars_function]
  rw [hsplit, marked_separator (by decide), marked_separator (by decide), marked_listed,
    marked_returned, or_iff_right (not_marked (by decide))]

theorem eq_nominal_of_prefix (hn : ∀ d, Plain (nameOf d))
    (h : "error>".toList <+: C.chars nameOf ++ ['>']) :
    ∃ n d, C = nominal n d ∧ nameOf d = "error" := by
  obtain ⟨tail, h⟩ := h
  have hclose (tail : List Char) : Ends ('>' :: tail) := by simp [Ends, StartsIn]
  have hsplit : "error".toList ++ '>' :: tail =
      C.base.chars nameOf ++ (brackets C.dims ++ ['>']) := by
    rw [← List.append_assoc, ← chars_base, ← h]
    rfl
  -- The name ends where the first mark stands, and a closing bracket leaves no room for dimensions.
  obtain ⟨hfirst, hafter⟩ :=
    words_append (C.base.chars nameOf) (follows_brackets C.dims (hclose [])).isMark
  obtain ⟨hword, hrest⟩ :=
    @words_of_plain "error" ('>' :: tail) (by decide) (by simp [isMark, marks])
  rw [hsplit, hfirst] at hword
  rw [hsplit, hafter] at hrest
  by_cases hnominal : ∃ n d, C.base = nominal n d
  · obtain ⟨n, d, hbase⟩ := hnominal
    rw [hbase, (words_nominal (hn d)).1, String.toList_inj] at hword
    rw [hbase, (words_nominal (hn d)).2] at hrest
    have hdims : C.dims = 0 := brackets_injective (hclose []) (hclose tail) hrest
    refine ⟨n, d, ?_, hword⟩
    rw [← iterate_array_base C, hdims, hbase]
    rfl
  · have hkinds : ∀ k ∈ Kind.all, firstWord k.name.toList ≠ "error".toList := by decide
    rw [firstWord_chars (base_kind_ne_array C) (kind_ne_nominal hnominal)] at hword
    exact absurd hword (hkinds _ (kind_mem_all _))

theorem not_suffix_chars (hn : ∀ d, Plain (nameOf d)) : ¬"<error".toList <:+ T.chars nameOf := by
  intro h
  have hlast : (T.chars nameOf).getLast? = some 'r' := by
    obtain ⟨text, h⟩ := h
    rw [← h]
    simp
  cases T with
  | basic b =>
    rw [chars_basic] at hlast
    revert hlast
    cases b <;> decide
  | json C =>
    rw [chars_json, constrained] at hlast
    split at hlast <;> simp [List.getLast?_cons] at hlast
  | array E => simp [chars_array] at hlast
  | nominal n d =>
    rw [chars_nominal] at h
    have hangle : '<' ∈ (nameOf d).toList := h.subset (by decide)
    exact (hn d).not_mem (by decide) hangle
  | function ps rs =>
    rw [chars_function, returned] at hlast
    split at hlast <;> simp [List.getLast?_cons] at hlast

/-- Between the angle brackets of `json` the marker arises from the name alone. -/
theorem marked_constraint (hn : ∀ d, Plain (nameOf d)) :
    Marked ('<' :: (C.chars nameOf ++ ['>'])) ↔
      (∃ n d, C = nominal n d ∧ nameOf d = "error") ∨ Marked (C.chars nameOf) := by
  have hstart : errorMarker.toList <+: '<' :: (C.chars nameOf ++ ['>']) ↔
      ∃ n d, C = nominal n d ∧ nameOf d = "error" := by
    constructor
    · intro h
      exact eq_nominal_of_prefix hn (List.cons_prefix_cons.mp h).2
    · rintro ⟨n, d, rfl, hd⟩
      rw [chars_nominal, hd]
      exact List.prefix_rfl
  have hend : ¬errorMarker.toList <:+ C.chars nameOf ++ ['>'] := by
    intro h
    rcases List.suffix_concat_iff.mp h with hnil | ⟨text, htext, hsuffix⟩
    · exact absurd hnil (by decide)
    · have hsplit : "<error".toList ++ ['>'] = text ++ ['>'] := htext
      obtain rfl := List.append_cancel_right hsplit
      exact not_suffix_chars hn hsuffix
  rw [Marked, List.infix_cons_iff, hstart, List.infix_concat_iff, or_iff_right hend]
  rfl

theorem marked_json (hn : ∀ d, Plain (nameOf d)) : Marked ((json C).chars nameOf) ↔
    (∃ n d, C = nominal n d ∧ nameOf d = "error") ∨ Marked (C.chars nameOf) := by
  have hskip : Marked ((json C).chars nameOf) ↔ Marked (constrained nameOf C) := by
    rw [chars_json]
    exact Text.infix_append_of_head (by decide)
  rw [hskip, constrained]
  by_cases hnone : C = basic .none
  · simp [hnone, marked_basic, not_marked_nil]
  · rw [if_neg hnone, marked_constraint hn]

/-- A type whose text shows the marker even if its parts do not. -/
def Source (nameOf : DeclRef → String) (S : Tree) : Prop :=
  S = basic .error ∨ ∃ n d, S = json (nominal n d) ∧ nameOf d = "error"

theorem exists_mem_partsOfAll {p : Tree → Prop} :
    (∃ S ∈ partsOfAll Ts, p S) ↔ ∃ T ∈ Ts, ∃ S ∈ T.parts, p S := by
  induction Ts with
  | nil => simp [partsOfAll]
  | cons T Ts ih => simp [partsOfAll, or_and_right, exists_or, ih]

theorem marked_iff (hn : ∀ d, Plain (nameOf d)) (T : Tree) :
    Marked (T.chars nameOf) ↔ ∃ S ∈ T.parts, S.Source nameOf := by
  induction T using byParts with
  | basic b =>
    rw [marked_basic]
    simp [parts, Source]
  | json C ih =>
    rw [marked_json hn, ih, parts, List.exists_mem_cons_iff]
    simp [Source]
  | array E ih =>
    rw [marked_array, ih, parts, List.exists_mem_cons_iff]
    simp [Source]
  | nominal n d =>
    rw [chars_nominal]
    simpa [parts, Source] using not_marked ((hn d).not_mem (by decide))
  | function ps rs ihp ihr =>
    have hps := exists_congr fun P => and_congr_right (ihp P)
    have hrs := exists_congr fun R => and_congr_right (ihr R)
    rw [marked_function, hps, hrs, parts, List.exists_mem_cons_iff, ← exists_mem_partsOfAll,
      ← exists_mem_partsOfAll]
    simp [Source, or_and_right, exists_or]

theorem brace_not_mem_listed (h : ∀ T ∈ Ts, '\x7b' ∉ T.chars nameOf) :
    '\x7b' ∉ listed nameOf Ts := by
  cases Ts with
  | nil => exact List.not_mem_nil
  | cons T Ts =>
    obtain ⟨hT, hTs⟩ := List.forall_mem_cons.mp h
    simpa [listed, following, hT] using hTs

theorem brace_not_mem_chars (hn : ∀ d, Plain (nameOf d)) (T : Tree) :
    '\x7b' ∉ T.chars nameOf := by
  induction T using byParts with
  | basic b =>
    rw [chars_basic]
    cases b <;> decide
  | json C ih =>
    rw [chars_json, constrained]
    split <;> simp [ih]
  | array E ih => simp [chars_array, ih]
  | nominal n d =>
    rw [chars_nominal]
    exact (hn d).not_mem (by decide)
  | function ps rs ihp ihr =>
    rw [chars_function, returned]
    split <;> simp [brace_not_mem_listed ihp, brace_not_mem_listed ihr]

end Tree

namespace TypeTable

variable {t : TypeTable} {names : Pool} {h : Handle} {T : Tree} {d : DeclRef}

def MentionsError (t : TypeTable) (h : Handle) : Prop :=
  ∃ T, t.unfold h = .ok T ∧ .basic .error ∈ T.parts

/-- The type is or contains a `json` whose constraint was declared under the name `error`. -/
def MimicsError (t : TypeTable) (names : Pool) (h : Handle) : Prop :=
  ∃ T n d, t.unfold h = .ok T ∧ .json (.nominal n d) ∈ T.parts ∧
    t.declaredName names d = .ok "error"

theorem mentionsError_iff (hT : t.unfold h = .ok T) :
    t.MentionsError h ↔ .basic .error ∈ T.parts := by
  constructor
  · rintro ⟨T', hT', hmem⟩
    obtain rfl := Except.ok.inj (hT.symm.trans hT')
    exact hmem
  · intro hmem
    exact ⟨T, hT, hmem⟩

def PlainNames (t : TypeTable) (names : Pool) : Prop :=
  ∀ d ∈ t.declarations, ∀ text, names.lookup d.name = .ok text → Plain text

theorem plain_spelling (hp : t.PlainNames names) (d : DeclRef) : Plain (t.spelling names d) := by
  rw [spelling]
  split
  · next text htext =>
    obtain ⟨decl, hdecl, hlookup⟩ := bind_eq_ok.mp htext
    exact hp decl (Array.mem_of_getElem? (getElem?_of_declarationAt hdecl)) text hlookup
  · decide

theorem spelling_eq_iff {text : String} (htext : text ≠ "") :
    t.spelling names d = text ↔ t.declaredName names d = .ok text := by
  rw [spelling]
  cases t.declaredName names d with
  | ok name => simp
  | error fault => simpa using htext.symm

theorem source_mem_parts_iff (hT : t.unfold h = .ok T) :
    (∃ S ∈ T.parts, S.Source (t.spelling names)) ↔ t.MentionsError h ∨ t.MimicsError names h := by
  have hspelling (d : DeclRef) := @spelling_eq_iff t names d "error" (by decide)
  constructor
  · rintro ⟨S, hS, rfl | ⟨n, d, rfl, hd⟩⟩
    · exact .inl ((mentionsError_iff hT).mpr hS)
    · exact .inr ⟨T, n, d, hT, hS, (hspelling d).mp hd⟩
  · rintro (hmentions | ⟨T', n, d, hT', hS, hd⟩)
    · exact ⟨_, (mentionsError_iff hT).mp hmentions, .inl rfl⟩
    · obtain rfl := Except.ok.inj (hT.symm.trans hT')
      exact ⟨_, hS, .inr ⟨n, d, rfl, (hspelling d).mpr hd⟩⟩

end TypeTable

namespace Checker

variable {c : Checker} {span : Span} {h : Handle}

/-- Only the notice about the limit has an argument outside quotes, and it is about no type. -/
theorem Question.code_ne_notice {q : Question} (hcode : (q.code c).arity = q.types.length) :
    q.code c ≠ .e9002 := by
  intro hnotice
  rw [hnotice] at hcode
  cases q with
  | constraint h => cases hnotice
  | _ => cases hcode

/-- In a report the marker is found as a whole argument or within one, but not across. -/
theorem ofTemplate_isFollowOn {code : Code} {texts : List String} (hcode : code ≠ .e9002)
    (hlength : texts.length = code.arity) (hbrace : ∀ x ∈ texts, '\x7b' ∉ x.toList)
    (herror : (Diagnostic.ofTemplate code span texts).isError = true) :
    (Diagnostic.ofTemplate code span texts).isFollowOn = true ↔
      ∃ x ∈ texts, Marked x.toList := by
  have hmessage : errorMarker.toList <:+: (code.render texts).toList ↔
      ∃ x ∈ texts, Marked x.toList :=
    Code.infix_render_iff hcode hlength hbrace (by decide) (by decide)
  rw [Diagnostic.isFollowOn_iff, and_iff_right herror]
  constructor
  · rintro (h | h)
    · exact hmessage.mp h
    · exact ⟨errorMarker, h, List.infix_rfl⟩
  · intro h
    exact .inl (hmessage.mpr h)

theorem render_marked_iff {text : String} (hc : c.Complete) (hp : c.types.PlainNames c.names)
    (hh : c.types.Has h) (htext : c.render h = .ok text) :
    '\x7b' ∉ text.toList ∧
      (Marked text.toList ↔ c.types.MentionsError h ∨ c.types.MimicsError c.names h) := by
  have hn := TypeTable.plain_spelling hp
  obtain ⟨T, hT⟩ := TypeTable.layered_unfold hc.layered hh
  have hrender := TypeTable.render_eq hc.layered hc.closed hc.named hT
  obtain rfl := Except.ok.inj (htext.symm.trans hrender)
  constructor
  · exact T.brace_not_mem_chars hn
  · rw [← TypeTable.source_mem_parts_iff hT]
    exact T.marked_iff hn

theorem renders_marked_iff {hs : List Handle} {texts : List String} (hc : c.Complete)
    (hp : c.types.PlainNames c.names) (hhs : ∀ h ∈ hs, c.types.Has h)
    (htexts : List.Forall₂ (fun h text => c.render h = .ok text) hs texts) :
    (∀ x ∈ texts, '\x7b' ∉ x.toList) ∧ ((∃ x ∈ texts, Marked x.toList) ↔
      ∃ h ∈ hs, c.types.MentionsError h ∨ c.types.MimicsError c.names h) := by
  induction htexts with
  | nil => simp
  | cons hfirst _ ih =>
    obtain ⟨hh, hrest⟩ := List.forall_mem_cons.mp hhs
    obtain ⟨hbrace, hmarked⟩ := render_marked_iff hc hp hh hfirst
    obtain ⟨hbraces, hmarkeds⟩ := ih hrest
    constructor
    · exact List.forall_mem_cons.mpr ⟨hbrace, hbraces⟩
    · rw [List.exists_mem_cons_iff, List.exists_mem_cons_iff, hmarked, hmarkeds]

/-- A report that was made for two types, or one, is taken for a consequence of an earlier error
if and only if one of its types mentions the error type, or mimics it. -/
theorem followOn_iff_shows_error {q : Question} (ht : c.types.Reachable)
    (hn : ∀ d ∈ c.types.declarations, c.names.Interned d.name)
    (hp : c.types.PlainNames c.names) (hq : ∀ h ∈ q.types, c.types.Has h)
    (hcode : (q.code c).arity = q.types.length) (span : Span) :
    ∃ ds, q.reports c span = .ok ds ∧ ∀ d ∈ ds, d.isError = true →
      (d.isFollowOn = true ↔
        ∃ h ∈ q.types, c.types.MentionsError h ∨ c.types.MimicsError c.names h) := by
  have hc : c.Complete := {
    layered := TypeTable.reachable_layered ht
    closed := TypeTable.reachable_closed ht
    named := TypeTable.named_of_interned hn }
  obtain ⟨ds, hds, hnames⟩ := q.reports_spec hc hq span
  refine ⟨ds, hds, fun d hd herror => ?_⟩
  obtain ⟨texts, htexts, rfl⟩ := hnames d hd herror
  have hrendered := mapM_eq_ok.mp htexts
  obtain ⟨hbrace, hmarked⟩ := renders_marked_iff hc hp hq hrendered
  have hlength : texts.length = (q.code c).arity := by
    rw [hcode, hrendered.length_eq]
  rw [ofTemplate_isFollowOn (Question.code_ne_notice hcode) hlength hbrace herror, hmarked]

def errorName : Name := .ofParts (Pool.shardOf "error") 3

def namedError : Checker where
  types := TypeTable.initial.grow [.struct errorName [], .json ⟨14⟩, .array ⟨13⟩]
  operators := .builtin
  names := Pool.initial.put (Pool.shardOf "error") "error"

theorem namedError_interned :
    ∀ d ∈ namedError.types.declarations, namedError.names.Interned d.name := by
  obtain ⟨log, hlog⟩ := Pool.initial_run
  have herror : Pool.initial.intern "error" = .ok (errorName, namedError.names) := by
    decide +kernel
  have hnames : ∀ d ∈ namedError.types.declarations, d.name = errorName := by
    decide +kernel
  intro d hd
  exact ⟨_, "error", hlog.intern herror, hnames d hd ▸ .head _⟩

theorem namedError_plain : namedError.types.PlainNames namedError.names := by
  have hlookup : ∀ d ∈ namedError.types.declarations,
      namedError.names.lookup d.name = .ok "error" := by
    decide +kernel
  intro d hd text htext
  obtain rfl := Except.ok.inj ((hlookup d hd).symm.trans htext)
  apply plain_of_word
  decide

theorem namedError_reports_told_apart :
    (∃ d, (Question.check ⟨16⟩ ⟨0⟩ .e2001).reports namedError ⟨0, 1⟩ = .ok [d] ∧
      d.isFollowOn = true) ∧
    ∃ d, (Question.cast ⟨14⟩ ⟨0⟩).reports namedError ⟨0, 1⟩ = .ok [d] ∧ d.isFollowOn = false := by
  have ht : namedError.types.Reachable := TypeTable.reachable_grow .refl _
  have hhas : ∀ h ∈ [⟨0⟩, ⟨14⟩, ⟨16⟩], namedError.types.Has h := by decide +kernel
  constructor
  · have harray : namedError.types.unfold ⟨16⟩ = .ok (.array (.basic .error)) := by
      decide +kernel
    have hreports : (Question.check ⟨16⟩ ⟨0⟩ .e2001).reports namedError ⟨0, 1⟩ =
        .ok [(Finding.incompatible ⟨0, 1⟩ .e2001 "int" "<error>[]").toDiagnostic] := by
      decide +kernel
    obtain ⟨ds, hds, hiff⟩ := @followOn_iff_shows_error namedError (.check ⟨16⟩ ⟨0⟩ .e2001) ht
      namedError_interned namedError_plain (by simp [Question.types, hhas]) rfl ⟨0, 1⟩
    obtain rfl := Except.ok.inj (hreports.symm.trans hds)
    refine ⟨_, hreports, (hiff _ (.head _) rfl).mpr ⟨⟨16⟩, by simp [Question.types], .inl ?_⟩⟩
    exact ⟨_, harray, by simp [Tree.parts]⟩
  · have hstruct : namedError.types.unfold ⟨14⟩ = .ok (.nominal .struct ⟨0⟩) := by
      decide +kernel
    have hint : namedError.types.unfold ⟨0⟩ = .ok (.basic .int) := by decide +kernel
    have hreports : (Question.cast ⟨14⟩ ⟨0⟩).reports namedError ⟨0, 1⟩ =
        .ok [(Finding.invalidCast ⟨0, 1⟩ .e2002 "error" "int").toDiagnostic] := by
      decide +kernel
    obtain ⟨ds, hds, hiff⟩ := @followOn_iff_shows_error namedError (.cast ⟨14⟩ ⟨0⟩) ht
      namedError_interned namedError_plain (by simp [Question.types, hhas]) rfl ⟨0, 1⟩
    obtain rfl := Except.ok.inj (hreports.symm.trans hds)
    refine ⟨_, hreports, Bool.eq_false_iff.mpr fun hfollows => ?_⟩
    obtain ⟨h, hh, hshows⟩ := (hiff _ (.head _) rfl).mp hfollows
    simp only [Question.types, List.mem_cons, List.not_mem_nil, or_false] at hh
    rcases hh with rfl | rfl
    · rw [← TypeTable.source_mem_parts_iff hstruct] at hshows
      simp [Tree.parts, Tree.Source] at hshows
    · rw [← TypeTable.source_mem_parts_iff hint] at hshows
      simp [Tree.parts, Tree.Source] at hshows

/-- Documents constrained by a struct called `error` show the marker without mentioning the error
type, and a queue drops what is reported about them. -/
theorem namedError_json_dropped :
    ∃ d, (Question.check ⟨15⟩ ⟨0⟩ .e2001).reports namedError ⟨0, 1⟩ = .ok [d] ∧
      d.isError = true ∧ d.isFollowOn = true ∧ ({} : Queue).add d = (false, {}) ∧
      ∀ h ∈ (Question.check ⟨15⟩ ⟨0⟩ .e2001).types, ¬namedError.types.MentionsError h := by
  have hjson : namedError.types.unfold ⟨15⟩ = .ok (.json (.nominal .struct ⟨0⟩)) := by
    decide +kernel
  have hint : namedError.types.unfold ⟨0⟩ = .ok (.basic .int) := by decide +kernel
  refine ⟨(Finding.incompatible ⟨0, 1⟩ .e2001 "int" "json<error>").toDiagnostic, ?_, ?_, ?_, ?_, ?_⟩
  · decide +kernel
  · decide +kernel
  · decide +kernel
  · decide +kernel
  · simp [Question.types, TypeTable.mentionsError_iff hjson, TypeTable.mentionsError_iff hint,
      Tree.parts]

end Checker

end TypeConformance
