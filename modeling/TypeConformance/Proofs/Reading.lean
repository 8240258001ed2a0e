import TypeConformance.Proofs.Spelling
import TypeConformance.Proofs.Totality

/-! # The text of a type can be read back in one way only

If declarations have names of their own, which are words and not words of the language, then types
with the same text are identical. Reading goes from the left: the word decides the kind of type,
and marks tell where its parts end.
-/
namespace TypeConformance

def StartsIn (cs rest : List Char) : Prop := ∀ c ∈ rest.head?, c ∈ cs

/-- What may follow a type below its array dimensions. -/
def Follows (rest : List Char) : Prop := StartsIn ['[', ',', ')', '>'] rest

def Ends (rest : List Char) : Prop := StartsIn [',', ')', '>'] rest

theorem StartsIn.ne_cons {cs rest text : List Char} {c : Char} (h : StartsIn cs rest)
    (hc : c ∉ cs) : rest ≠ c :: text := by
  rintro rfl
  exact hc (h c rfl)

theorem Follows.isMark {rest : List Char} (h : Follows rest) :
    ∀ c ∈ rest.head?, isMark c = true := by
  have hall : ['[', ',', ')', '>'].all TypeConformance.isMark := by decide
  intro c hc
  exact List.all_eq_true.mp hall c (h c hc)

namespace Tree

/-- Words that are not names: those of the built-in types, `function`, and the lack of a word. -/
def reserved : List String := "" :: "function" :: Handle.builtinNames

/-- The declarations in use have names that are words and tell them apart. -/
structure Legible (nameOf : DeclRef → String) (used : Nominal → DeclRef → Prop) : Prop where
  plain : ∀ n d, used n d → Plain (nameOf d)
  free : ∀ n d, used n d → nameOf d ∉ reserved
  distinct : ∀ n d m e, used n d → used m e → nameOf d = nameOf e → n = m ∧ d = e

def Uses (used : Nominal → DeclRef → Prop) (T : Tree) : Prop :=
  ∀ n d, nominal n d ∈ T.parts → used n d

variable {nameOf : DeclRef → String} {used : Nominal → DeclRef → Prop} {A B C E T : Tree}
  {ps rs : List Tree} {r s : List Char}

theorem uses_json (h : (json C).Uses used) : C.Uses used :=
  fun n d hmem => h n d (List.mem_cons_of_mem _ hmem)

theorem uses_array (h : (array E).Uses used) : E.Uses used :=
  fun n d hmem => h n d (List.mem_cons_of_mem _ hmem)

theorem uses_params (h : (function ps rs).Uses used) : ∀ P ∈ ps, P.Uses used :=
  fun P hP n d hmem => h n d (List.mem_cons_of_mem _
    (List.mem_append_left _ (mem_partsOfAll.mpr ⟨P, hP, hmem⟩)))

theorem uses_rets (h : (function ps rs).Uses used) : ∀ R ∈ rs, R.Uses used :=
  fun R hR n d hmem => h n d (List.mem_cons_of_mem _
    (List.mem_append_right _ (mem_partsOfAll.mpr ⟨R, hR, hmem⟩)))

theorem uses_base (h : T.Uses used) : T.base.Uses used := by
  induction T using byParts with
  | array E ih => exact ih (uses_array h)
  | _ => exact h

theorem kind_ne_nominal (h : ¬∃ n d, T = nominal n d) : ∀ n, T.kind ≠ .nominal n := by
  intro n hk
  cases T with
  | nominal m d => exact h ⟨m, d, rfl⟩
  | _ => cases hk

theorem kind_mem_all (k : Kind) : k ∈ Kind.all := by
  cases k with
  | basic b => cases b <;> decide
  | nominal n => cases n <;> decide
  | _ => decide

theorem word_ne_name {n : Nominal} {d : DeclRef} (hl : Legible nameOf used) (hd : used n d)
    (harray : T.kind ≠ .array) (hnominal : ∀ n, T.kind ≠ .nominal n) :
    firstWord (T.chars nameOf) ≠ firstWord ((nominal n d).chars nameOf) := by
  have hall : ∀ k ∈ Kind.all, k ≠ .array → (∀ n ∈ Nominal.all, k ≠ .nominal n) →
      String.ofList (firstWord k.name.toList) ∈ reserved := by
    decide +kernel
  have hres := hall T.kind (kind_mem_all _) harray fun n _ => hnominal n
  intro heq
  rw [firstWord_chars harray hnominal, (words_nominal (hl.plain n d hd)).1] at heq
  rw [heq, String.ofList_toList] at hres
  exact hl.free n d hd hres

/-- The word at the beginning tells the kind of a type. A name tells the type itself. -/
theorem eq_of_word (hl : Legible nameOf used) (hA : A.Uses used) (hB : B.Uses used)
    (hkA : A.kind ≠ .array) (hkB : B.kind ≠ .array)
    (h : firstWord (A.chars nameOf) = firstWord (B.chars nameOf)) :
    A = B ∨ A.kind = B.kind ∧ ∀ n, A.kind ≠ .nominal n := by
  have hself : ∀ n d, nominal n d ∈ (nominal n d).parts := by simp [parts]
  by_cases hnA : ∃ n d, A = nominal n d
  · obtain ⟨n, d, rfl⟩ := hnA
    have hd := hA n d (hself n d)
    by_cases hnB : ∃ m e, B = nominal m e
    · obtain ⟨m, e, rfl⟩ := hnB
      have he := hB m e (hself m e)
      rw [(words_nominal (hl.plain n d hd)).1, (words_nominal (hl.plain m e he)).1,
        String.toList_inj] at h
      obtain ⟨rfl, rfl⟩ := hl.distinct n d m e hd he h
      exact .inl rfl
    · exact absurd h.symm (word_ne_name hl hd hkB (kind_ne_nominal hnB))
  · by_cases hnB : ∃ m e, B = nominal m e
    · obtain ⟨m, e, rfl⟩ := hnB
      exact absurd h (word_ne_name hl (hB m e (hself m e)) hkA (kind_ne_nominal hnA))
    · have hinj : ∀ k ∈ Kind.all, ∀ k' ∈ Kind.all, k ≠ .array → k' ≠ .array →
          firstWord k.name.toList = firstWord k'.name.toList → k = k' := by
        decide +kernel
      have hnA' := kind_ne_nominal hnA
      rw [firstWord_chars hkA hnA', firstWord_chars hkB (kind_ne_nominal hnB)] at h
      exact .inr ⟨hinj _ (kind_mem_all _) _ (kind_mem_all _) hkA hkB h, hnA'⟩

theorem eq_of_words (hl : Legible nameOf used) (hA : A.Uses used) (hB : B.Uses used)
    (hkA : A.kind ≠ .array) (hkB : B.kind ≠ .array) (hr : Follows r) (hs : Follows s)
    (h : A.chars nameOf ++ r = B.chars nameOf ++ s) :
    A = B ∨ A.kind = B.kind ∧ (∀ n, A.kind ≠ .nominal n) ∧
      afterWord (A.chars nameOf) ++ r = afterWord (B.chars nameOf) ++ s := by
  obtain ⟨hfirst, hafter⟩ := words_append (A.chars nameOf) hr.isMark
  obtain ⟨hfirst', hafter'⟩ := words_append (B.chars nameOf) hs.isMark
  have hword : firstWord (A.chars nameOf) = firstWord (B.chars nameOf) := by
    rw [← hfirst, h, hfirst']
  rcases eq_of_word hl hA hB hkA hkB hword with heq | ⟨hkind, hnominal⟩
  · exact .inl heq
  · exact .inr ⟨hkind, hnominal, by rw [← hafter, h, hafter']⟩

theorem iterate_array_base (T : Tree) : array^[T.dims] T.base = T := by
  induction T using byParts with
  | array E ih => rw [dims, base, Function.iterate_succ_apply', ih]
  | _ => rfl

theorem follows_brackets (k : Nat) (hr : Ends r) : Follows (brackets k ++ r) := by
  cases k with
  | zero =>
    intro c hc
    exact List.mem_cons_of_mem _ (hr c hc)
  | succ k =>
    intro c hc
    obtain rfl : '[' = c := by simpa [brackets, List.replicate_succ] using hc
    simp

theorem brackets_injective {k l : Nat} (hr : Ends r) (hs : Ends s)
    (h : brackets k ++ r = brackets l ++ s) : k = l := by
  induction k generalizing l with
  | zero =>
    cases l with
    | zero => rfl
    | succ l => exact absurd h (hr.ne_cons (by decide))
  | succ k ih =>
    cases l with
    | zero => exact absurd h.symm (hs.ne_cons (by decide))
    | succ l =>
      simp only [brackets, List.replicate_succ, List.flatten_cons, List.cons_append,
        List.nil_append, List.cons.injEq, true_and] at h
      rw [ih h]

/-- No other tree has a text that begins with the text of this one below its dimensions. -/
def ReadAs (nameOf : DeclRef → String) (used : Nominal → DeclRef → Prop) (A : Tree) : Prop :=
  ∀ B r s, B.Uses used → B.kind ≠ .array → Follows r → Follows s →
    A.base.chars nameOf ++ r = B.chars nameOf ++ s → A.base = B

theorem ReadAs.whole (hA : ReadAs nameOf used A) (hB : B.Uses used) (hr : Ends r) (hs : Ends s)
    (h : A.chars nameOf ++ r = B.chars nameOf ++ s) : A = B ∧ r = s := by
  have hAB : A = B := by
    rw [chars_base A, chars_base B, List.append_assoc, List.append_assoc] at h
    have hbase := hA B.base _ _ (uses_base hB) (base_kind_ne_array B) (follows_brackets _ hr)
      (follows_brackets _ hs) h
    rw [hbase] at h
    have hdims := brackets_injective hr hs (List.append_cancel_left h)
    rw [← iterate_array_base A, ← iterate_array_base B, hbase, hdims]
  subst hAB
  exact ⟨rfl, List.append_cancel_left h⟩

theorem constrained_injective (hC : ReadAs nameOf used C) {D : Tree} (hD : D.Uses used)
    (hr : Follows r) (hs : Follows s)
    (h : constrained nameOf C ++ r = constrained nameOf D ++ s) : C = D := by
  by_cases hnone : C = basic .none
  · by_cases hnone' : D = basic .none
    · rw [hnone, hnone']
    · simp only [constrained, if_pos hnone, if_neg hnone'] at h
      exact absurd h (hr.ne_cons (by decide))
  · by_cases hnone' : D = basic .none
    · simp only [constrained, if_neg hnone, if_pos hnone'] at h
      exact absurd h.symm (hs.ne_cons (by decide))
    · simp only [constrained, if_neg hnone, if_neg hnone', List.cons_append, List.append_assoc,
        List.cons.injEq, true_and] at h
      exact (hC.whole hD (by simp [Ends, StartsIn]) (by simp [Ends, StartsIn]) h).1

theorem ends_following (Ts : List Tree) : Ends (following nameOf Ts ++ ')' :: r) := by
  intro c hc
  cases Ts with
  | nil =>
    obtain rfl : ')' = c := by simpa [following] using hc
    simp
  | cons T Ts =>
    obtain rfl : ',' = c := by simpa [following] using hc
    simp

theorem following_injective {As Bs : List Tree} (hA : ∀ A ∈ As, ReadAs nameOf used A)
    (hB : ∀ B ∈ Bs, B.Uses used)
    (h : following nameOf As ++ ')' :: r = following nameOf Bs ++ ')' :: s) : As = Bs ∧ r = s := by
  induction As generalizing Bs with
  | nil =>
    cases Bs with
    | nil => exact ⟨rfl, (List.cons.inj h).2⟩
    | cons B Bs => simp [following] at h
  | cons A As ih =>
    cases Bs with
    | nil => simp [following] at h
    | cons B Bs =>
      have hchars : A.chars nameOf ++ (following nameOf As ++ ')' :: r) =
          B.chars nameOf ++ (following nameOf Bs ++ ')' :: s) := by
        simpa [following] using h
      obtain ⟨rfl, hrest⟩ := (hA A List.mem_cons_self).whole (hB B List.mem_cons_self)
        (ends_following As) (ends_following Bs) hchars
      obtain ⟨rfl, hrs⟩ := ih (fun A hmem => hA A (List.mem_cons_of_mem _ hmem))
        (fun B hmem => hB B (List.mem_cons_of_mem _ hmem)) hrest
      exact ⟨rfl, hrs⟩

theorem chars_ne_close (hl : Legible nameOf used) (hT : T.Uses used) :
    T.chars nameOf ++ r ≠ ')' :: s := by
  induction T using byParts generalizing r with
  | basic b =>
    rw [chars_basic]
    cases b <;> simp [Basic.name]
  | json C _ => simp [chars_json]
  | array E ih =>
    rw [chars_array, List.append_assoc]
    exact ih (uses_array hT)
  | nominal n d =>
    have hd := hT n d (by simp [parts])
    rw [chars_nominal]
    intro h
    cases hname : (nameOf d).toList with
    | nil => exact hl.free n d hd (by rw [String.toList_eq_nil_iff.mp hname]; decide)
    | cons c rest =>
      rw [hname] at h
      have hplain := hl.plain n d hd c (by rw [hname]; exact List.mem_cons_self)
      rw [(List.cons.inj h).1] at hplain
      cases hplain
  | function ps rs _ _ => simp [chars_function]

theorem listed_injective {As Bs : List Tree} (hl : Legible nameOf used)
    (hA : ∀ A ∈ As, ReadAs nameOf used A) (hAs : ∀ A ∈ As, A.Uses used)
    (hBs : ∀ B ∈ Bs, B.Uses used)
    (h : listed nameOf As ++ ')' :: r = listed nameOf Bs ++ ')' :: s) : As = Bs ∧ r = s := by
  cases As with
  | nil =>
    cases Bs with
    | nil => exact ⟨rfl, (List.cons.inj h).2⟩
    | cons B Bs =>
      simp only [listed, List.append_assoc] at h
      exact absurd h.symm (chars_ne_close hl (hBs B List.mem_cons_self))
  | cons A As =>
    cases Bs with
    | nil =>
      simp only [listed, List.append_assoc] at h
      exact absurd h (chars_ne_close hl (hAs A List.mem_cons_self))
    | cons B Bs =>
      -- With a comma before it, a list that is not empty looks like what follows another member.
      apply following_injective hA hBs
      simpa [following, listed] using h

theorem returned_injective (hl : Legible nameOf used) (hA : ∀ A ∈ rs, ReadAs nameOf used A)
    (hrs : ∀ A ∈ rs, A.Uses used) {ss : List Tree} (hss : ∀ B ∈ ss, B.Uses used)
    (hr : Follows r) (hs : Follows s) (h : returned nameOf rs ++ r = returned nameOf ss ++ s) :
    rs = ss := by
  by_cases hempty : rs = []
  · by_cases hempty' : ss = []
    · rw [hempty, hempty']
    · simp only [returned, if_pos hempty, if_neg hempty'] at h
      exact absurd h (hr.ne_cons (by decide))
  · by_cases hempty' : ss = []
    · simp only [returned, if_neg hempty, if_pos hempty'] at h
      exact absurd h.symm (hs.ne_cons (by decide))
    · simp only [returned, if_neg hempty, if_neg hempty', List.append_assoc] at h
      exact (listed_injective hl hA hrs hss (List.append_cancel_left h)).1

/-- Every tree can be read off its text. The induction is on the tree that was written; the word
at the beginning of the text tells that the other tree has the same kind. -/
theorem readAs (hl : Legible nameOf used) (hA : A.Uses used) : ReadAs nameOf used A := by
  induction A using byParts with
  | array E ih => exact ih (uses_array hA)
  | basic b =>
    intro B r s hB hk hr hs h
    rcases eq_of_words hl hA hB (by simp) hk hr hs h with heq | ⟨hkind, -, -⟩
    · exact heq
    · exact (kind_eq_basic.mp hkind.symm).symm
  | nominal n d =>
    intro B r s hB hk hr hs h
    rcases eq_of_words hl hA hB (by simp) hk hr hs h with heq | ⟨-, hnot, -⟩
    · exact heq
    · exact absurd rfl (hnot n)
  | json C ih =>
    intro B r s hB hk hr hs h
    rcases eq_of_words hl hA hB (by simp) hk hr hs h with heq | ⟨hkind, -, h⟩
    · exact heq
    cases B with
    | json D =>
      rw [words_json.2, words_json.2] at h
      exact congrArg json (constrained_injective (ih (uses_json hA)) (uses_json hB) hr hs h)
    | _ => cases hkind
  | function ps rs ihp ihr =>
    intro B r s hB hk hr hs h
    rcases eq_of_words hl hA hB (by simp) hk hr hs h with heq | ⟨hkind, -, h⟩
    · exact heq
    cases B with
    | function qs ss =>
      simp only [words_function.2, List.cons_append, List.append_assoc, List.cons.injEq,
        true_and] at h
      obtain ⟨rfl, hreturned⟩ := listed_injective hl (fun P hP => ihp P hP (uses_params hA P hP))
        (uses_params hA) (uses_params hB) h
      exact congrArg (function ps) (returned_injective hl
        (fun R hR => ihr R hR (uses_rets hA R hR)) (uses_rets hA) (uses_rets hB) hr hs hreturned)
    | _ => cases hkind

theorem text_injective (hl : Legible nameOf used) (hA : A.Uses used) (hB : B.Uses used)
    (h : A.text nameOf = B.text nameOf) : A = B := by
  have hchars : A.chars nameOf ++ [] = B.chars nameOf ++ [] := by rw [chars, chars, h]
  exact ((readAs hl hA).whole hB (by simp [Ends, StartsIn]) (by simp [Ends, StartsIn]) hchars).1

end Tree

def DeclBody.nominal : DeclBody → Nominal
  | struct _ => .struct
  | connector => .connector
  | enum _ => .enum

namespace TypeTable

variable {t : TypeTable} {names : Pool} {a b h : Handle} {S T : Tree}

/-- Nominal types have the kind of their declarations, and declarations can be told apart by
their names. A name is a word, and neither the name of a built-in type nor `function`. -/
structure Legible (t : TypeTable) (names : Pool) : Prop where
  kinds : ∀ h n d decl, t.shape h = .ok (.nominal n d) → t.declarationAt d = .ok decl →
    decl.body.nominal = n
  distinct : ∀ d e, t.Declares d → t.Declares e →
    t.declaredName names d = t.declaredName names e → d = e
  words : ∀ d, t.Declares d → ∃ text, t.declaredName names d = .ok text ∧
    text ≠ "" ∧ Plain text ∧ text ∉ Handle.builtinNames ∧ text ≠ "function"

theorem exists_of_forall₂ {sub : Handle → Except Fault Tree} {hs : List Handle} {Ts : List Tree}
    (hsub : List.Forall₂ (fun h T => sub h = .ok T) hs Ts) (hT : T ∈ Ts) : ∃ h, sub h = .ok T := by
  induction hsub with
  | nil => cases hT
  | cons hfirst _ ih =>
    rcases List.mem_cons.mp hT with rfl | hT
    · exact ⟨_, hfirst⟩
    · exact ih hT

theorem unfold_parts (hT : t.unfold h = .ok T) (hS : S ∈ T.parts) : ∃ k, t.unfold k = .ok S := by
  induction T using Tree.byParts generalizing h with
  | basic b =>
    rw [Tree.parts, List.mem_singleton] at hS
    exact ⟨h, hS ▸ hT⟩
  | nominal n d =>
    rw [Tree.parts, List.mem_singleton] at hS
    exact ⟨h, hS ▸ hT⟩
  | json C ih =>
    rcases List.mem_cons.mp hS with rfl | hS
    · exact ⟨h, hT⟩
    · obtain ⟨s, -, ho⟩ := unfold_inv hT
      cases ho with
      | json hC => exact ih hC hS
  | array E ih =>
    rcases List.mem_cons.mp hS with rfl | hS
    · exact ⟨h, hT⟩
    · obtain ⟨s, -, ho⟩ := unfold_inv hT
      cases ho with
      | array hE => exact ih hE hS
  | function ps rs ihp ihr =>
    rcases List.mem_cons.mp hS with rfl | hS
    · exact ⟨h, hT⟩
    · obtain ⟨s, -, ho⟩ := unfold_inv hT
      cases ho with
      | function hp hr =>
        rcases List.mem_append.mp hS with hS | hS
        · obtain ⟨P, hP, hS⟩ := Tree.mem_partsOfAll.mp hS
          obtain ⟨p, hp⟩ := exists_of_forall₂ hp hP
          exact ihp P hP hp hS
        · obtain ⟨R, hR, hS⟩ := Tree.mem_partsOfAll.mp hS
          obtain ⟨r, hr⟩ := exists_of_forall₂ hr hR
          exact ihr R hR hr hS

theorem unfold_uses (hT : t.unfold h = .ok T) :
    T.Uses fun n d => ∃ k, t.shape k = .ok (.nominal n d) := by
  intro n d hmem
  obtain ⟨k, hk⟩ := unfold_parts hT hmem
  obtain ⟨s, hs, ho⟩ := unfold_inv hk
  cases ho
  exact ⟨k, hs⟩

theorem Legible.named (hl : t.Legible names) : t.Named names := by
  intro d hd
  obtain ⟨text, htext, -⟩ := hl.words d hd
  exact ⟨text, htext⟩

theorem Legible.spelling (hl : t.Legible names) (hc : Closed t) :
    Tree.Legible (t.spelling names) fun n d => ∃ k, t.shape k = .ok (.nominal n d) := by
  have hdeclares : ∀ {n d}, (∃ k, t.shape k = .ok (.nominal n d)) → t.Declares d := by
    rintro n d ⟨k, hk⟩
    exact hc.declared _ n d (getElem?_of_shape hk)
  have hword : ∀ {d}, t.Declares d → t.spelling names d ≠ "" ∧ Plain (t.spelling names d) ∧
      t.spelling names d ∉ Handle.builtinNames ∧ t.spelling names d ≠ "function" := by
    intro d hd
    obtain ⟨text, htext, hword⟩ := hl.words d hd
    obtain rfl := Except.ok.inj ((declaredName_eq hl.named hd).symm.trans htext)
    exact hword
  refine ⟨?_, ?_, ?_⟩
  · intro n d hused
    exact (hword (hdeclares hused)).2.1
  · intro n d hused
    obtain ⟨hempty, -, hbuiltin, hfunction⟩ := hword (hdeclares hused)
    simp [Tree.reserved, hempty, hbuiltin, hfunction]
  · intro n d m e hd he hsame
    have hdecl := hdeclares hd
    have hname : t.declaredName names d = t.declaredName names e := by
      rw [declaredName_eq hl.named hdecl, declaredName_eq hl.named (hdeclares he), hsame]
    obtain rfl := hl.distinct d e hdecl (hdeclares he) hname
    have hget := Array.getElem?_eq_getElem hdecl
    have hat := declarationAt_of_getElem? hget
    obtain ⟨k, hk⟩ := hd
    obtain ⟨k', hk'⟩ := he
    exact ⟨(hl.kinds k n d _ hk hat).symm.trans (hl.kinds k' m d _ hk' hat), rfl⟩

/-- Identical types have the same text, whatever names there are. If the names are legible, every
type has a text, and the texts tell whether types are identical. -/
theorem texts_identify_types (ht : Reachable t) (names : Pool) (ha : t.Has a) (hb : t.Has b) :
    (t.identical a b = .ok true → t.render names a = t.render names b) ∧
    (t.Legible names → ∃ x y, t.render names a = .ok x ∧ t.render names b = .ok y ∧
      Decides (t.identical a b) (x = y)) := by
  have hlayered := reachable_layered ht
  have hclosed := reachable_closed ht
  obtain ⟨A, hA⟩ := layered_unfold hlayered ha
  obtain ⟨B, hB⟩ := layered_unfold hlayered hb
  have hsame := identical_decides hA hB
  constructor
  · intro h
    obtain rfl := hsame.eq_true_iff.mp h
    exact render_congr hlayered names hA hB
  · intro hl
    have hnamed := hl.named
    refine ⟨_, _, render_eq hlayered hclosed hnamed hA, render_eq hlayered hclosed hnamed hB, ?_⟩
    apply hsame.congr
    constructor
    · rintro rfl
      rfl
    · exact Tree.text_injective (hl.spelling hclosed) (unfold_uses hA) (unfold_uses hB)

open Checker (palette)

def signatures : TypeTable :=
  palette.types.grow [.function [⟨14⟩] [⟨16⟩], .function [⟨15⟩] [⟨16⟩], .function [⟨14⟩, ⟨16⟩] []]

theorem signatures_legible : signatures.Legible palette.names := by
  refine ⟨?_, ?_, ?_⟩
  · have hall : ∀ s ∈ signatures.slots.toList, ∀ d ∈ s.references,
        signatures.declarations[d.index]?.map (Kind.nominal ·.body.nominal) = some s.kind := by
      decide +kernel
    intro h n d decl hs hd
    have hslot := Array.mem_toList_iff.mpr (Array.mem_of_getElem? (getElem?_of_shape hs))
    have hkind := hall _ hslot d (by simp [Shape.references])
    rw [getElem?_of_declarationAt hd] at hkind
    exact Kind.nominal.inj (Option.some.inj hkind)
  · have hall : ∀ i < signatures.declarations.size, ∀ j < signatures.declarations.size,
        signatures.declaredName palette.names ⟨i⟩ = signatures.declaredName palette.names ⟨j⟩ →
          i = j := by
      decide +kernel
    rintro ⟨i⟩ ⟨j⟩ hi hj h
    exact congrArg DeclRef.mk (hall i hi j hj h)
  · have hall : ∀ i < signatures.declarations.size, ∃ text ∈ ["Color", "Pixel"],
        signatures.declaredName palette.names ⟨i⟩ = .ok text := by
      decide +kernel
    have hwords : ∀ text ∈ ["Color", "Pixel"], text ≠ "" ∧
        text.toList.all isWordChar ∧ text ∉ Handle.builtinNames ∧ text ≠ "function" := by
      decide
    rintro ⟨i⟩ hi
    obtain ⟨text, hmem, htext⟩ := hall i hi
    obtain ⟨hempty, hword, hfree⟩ := hwords text hmem
    exact ⟨text, htext, hempty, plain_of_word hword, hfree⟩

theorem signatures_identified_by_text :
    signatures.identical ⟨17⟩ ⟨18⟩ = .ok true ∧ signatures.identical ⟨17⟩ ⟨19⟩ = .ok false := by
  have ht : Reachable signatures := reachable_grow (reachable_grow .refl _) _
  have hhas : signatures.Has ⟨17⟩ ∧ signatures.Has ⟨18⟩ ∧ signatures.Has ⟨19⟩ := by decide +kernel
  have hfirst : signatures.render palette.names ⟨17⟩ = .ok "function (Color) returns (Pixel)" := by
    decide +kernel
  have hsecond : signatures.render palette.names ⟨18⟩ = .ok "function (Color) returns (Pixel)" := by
    decide +kernel
  have hthird : signatures.render palette.names ⟨19⟩ = .ok "function (Color, Pixel)" := by
    decide +kernel
  obtain ⟨x, y, hx, hy, hsame⟩ :=
    (texts_identify_types ht palette.names hhas.1 hhas.2.1).2 signatures_legible
  obtain ⟨x', z, hx', hz, hdiffer⟩ :=
    (texts_identify_types ht palette.names hhas.1 hhas.2.2).2 signatures_legible
  obtain rfl := Except.ok.inj (hfirst.symm.trans hx)
  obtain rfl := Except.ok.inj (hfirst.symm.trans hx')
  obtain rfl := Except.ok.inj (hsecond.symm.trans hy)
  obtain rfl := Except.ok.inj (hthird.symm.trans hz)
  exact ⟨hsame.eq_true_iff.mpr rfl, hdiffer.eq_false_iff.mpr (by decide)⟩

end TypeTable

end TypeConformance
