import Mathlib.Data.List.TakeWhile
import TypeConformance.Proofs.Decision
import TypeConformance.Proofs.Interning
import TypeConformance.Table

/-! # The text of a type

How a type is written depends on its tree and on the names of declarations. Writing fails only if
a name has no text. The text begins with a word, unless the type is the error type. What follows
the word begins with a mark: a bracket, a parenthesis, a comma or a blank. Names that contain no
marks, such as those of letters, digits and underscores, are words.
-/
namespace TypeConformance

namespace Tree

mutual

/-- The type as written in source, with the text of each declaration's name given. -/
def text (nameOf : DeclRef → String) : Tree → String
  | basic b => b.name
  | json constraint =>
    if constraint = basic .none then "json" else "json<" ++ constraint.text nameOf ++ ">"
  | array element => element.text nameOf ++ "[]"
  | nominal _ d => nameOf d
  | function params rets =>
    let head := "function (" ++ TypeTable.commaSeparated (texts nameOf params) ++ ")"
    if rets.isEmpty then head
    else head ++ " returns (" ++ TypeTable.commaSeparated (texts nameOf rets) ++ ")"

def texts (nameOf : DeclRef → String) : List Tree → List String
  | [] => []
  | T :: Ts => T.text nameOf :: texts nameOf Ts

end

theorem texts_eq_nil {nameOf : DeclRef → String} {Ts : List Tree} :
    texts nameOf Ts = [] ↔ Ts = [] := by
  cases Ts <;> simp [texts]

end Tree

namespace TypeTable

def declaredName (t : TypeTable) (names : Pool) (d : DeclRef) : Except Fault String := do
  names.lookup (← t.declarationAt d).name

/-- The text of a declaration's name, empty where there is none. -/
def spelling (t : TypeTable) (names : Pool) (d : DeclRef) : String :=
  match t.declaredName names d with
  | .ok text => text
  | .error _ => ""

def Named (t : TypeTable) (names : Pool) : Prop :=
  ∀ d, t.Declares d → ∃ text, t.declaredName names d = .ok text

variable {t : TypeTable} {names : Pool} {nameOf : DeclRef → String} {h : Handle} {T : Tree}

theorem named_of_interned (hn : ∀ d ∈ t.declarations, names.Interned d.name) : t.Named names := by
  intro d hd
  have hget := Array.getElem?_eq_getElem hd
  obtain ⟨text, htext⟩ := Pool.interned_lookup (hn _ (Array.getElem_mem hd))
  exact ⟨text, by simp [declaredName, declarationAt, hget, htext]⟩

theorem declaredName_eq {d : DeclRef} (hn : t.Named names) (hd : t.Declares d) :
    t.declaredName names d = .ok (t.spelling names d) := by
  obtain ⟨text, htext⟩ := hn d hd
  simp [spelling, htext]

theorem mapM_texts {sub : Handle → Except Fault Tree} {write : Handle → Except Fault String}
    (hwrite : ∀ h T, sub h = .ok T → write h = .ok (T.text nameOf)) {hs : List Handle}
    {Ts : List Tree} (hsub : List.Forall₂ (fun h T => sub h = .ok T) hs Ts) :
    hs.mapM write = .ok (Tree.texts nameOf Ts) := by
  rw [mapM_eq_ok]
  induction hsub with
  | nil => exact .nil
  | cons hT _ ih => exact .cons (hwrite _ _ hT) ih

/-- A type is written layer by layer, as its tree is unfolded. -/
theorem renderWithin_eq (ht : Layered t) (hc : Closed t) (hn : t.Named names) {n : Nat}
    (hbudget : n ≤ t.walkBudget) (hT : t.unfoldWithin n h = .ok T) :
    t.renderWithin names n h = .ok (T.text (t.spelling names)) := by
  induction n generalizing h T with
  | zero => cases hT
  | succ n ih =>
    have ih' : ∀ h T, t.unfoldWithin n h = .ok T →
        t.renderWithin names n h = .ok (T.text (t.spelling names)) := fun h T => ih (by omega)
    obtain ⟨s, hs, ho⟩ := unfoldWithin_succ.mp hT
    have hvalid := not_invalid_of_has ht (has_of_shape hs)
    simp only [renderWithin, hvalid, hs, bind_ok, Bool.false_eq_true, if_false]
    cases ho with
    | basic b => rfl
    | @json c C hC =>
      have hsame := identical_eq (unfoldWithin_mono (by omega) hC) (unfold_basic ht .none)
      by_cases hplain : C = .basic .none
      · simp [hsame, hplain, Tree.text]
      · simp [hsame, hplain, ih' c C hC, Tree.text]
    | array he => simp [ih' _ _ he, Tree.text]
    | nominal m d =>
      have hd := declaredName_eq hn (hc.declared _ m d (getElem?_of_shape hs))
      simpa [declaredName, Tree.text] using hd
    | function hp hr =>
      simp [mapM_texts ih' hp, mapM_texts ih' hr, Tree.text, Tree.texts_eq_nil]

theorem render_eq (ht : Layered t) (hc : Closed t) (hn : t.Named names)
    (hT : t.unfold h = .ok T) : t.render names h = .ok (T.text (t.spelling names)) :=
  renderWithin_eq ht hc hn (Nat.le_refl _) hT

end TypeTable

/-- Characters with a meaning of their own in types and in message templates. -/
def marks : List Char := ['<', '>', '[', ']', '(', ')', ',', ' ', '\x7b', '\x7d']

def isMark (c : Char) : Bool := marks.contains c

def Plain (text : String) : Prop := ∀ c ∈ text.toList, isMark c = false
instance (text : String) : Decidable (Plain text) :=
  decidable_of_iff (text.toList.all fun c => !isMark c) (by simp [Plain])

def isWordChar (c : Char) : Bool := c.isAlphanum || c == '_'

theorem plain_of_word {text : String} (h : text.toList.all isWordChar) : Plain text := by
  have hmarks : marks.all fun c => !isWordChar c := by decide
  intro c hc
  have hword := List.all_eq_true.mp h c hc
  rw [isMark, List.contains_eq_mem, decide_eq_false_iff_not]
  intro hmark
  have hnot := List.all_eq_true.mp hmarks c hmark
  rw [hword] at hnot
  cases hnot

theorem Plain.not_mem {text : String} {c : Char} (h : Plain text) (hc : isMark c = true) :
    c ∉ text.toList := by
  intro hmem
  rw [h c hmem] at hc
  cases hc

def firstWord (text : List Char) : List Char := text.takeWhile fun c => !isMark c
def afterWord (text : List Char) : List Char := text.dropWhile fun c => !isMark c

/-- What begins with a mark does not add to the word before it. -/
theorem words_append (text : List Char) {rest : List Char}
    (hrest : ∀ c ∈ rest.head?, isMark c = true) :
    firstWord (text ++ rest) = firstWord text ∧
      afterWord (text ++ rest) = afterWord text ++ rest := by
  induction text with
  | nil =>
    cases rest with
    | nil => exact ⟨rfl, rfl⟩
    | cons c rest =>
      have hc : isMark c = true := hrest c rfl
      simp [firstWord, afterWord, hc]
  | cons c text ih =>
    cases hc : isMark c with
    | true => simp [firstWord, afterWord, hc]
    | false => simpa [firstWord, afterWord, hc] using ih

theorem words_of_plain {text : String} {rest : List Char} (h : Plain text)
    (hrest : ∀ c ∈ rest.head?, isMark c = true) :
    firstWord (text.toList ++ rest) = text.toList ∧ afterWord (text.toList ++ rest) = rest := by
  have hall : ∀ c ∈ text.toList, (!isMark c) = true := by
    intro c hc
    rw [h c hc]
    rfl
  obtain ⟨hfirst, hafter⟩ := words_append text.toList hrest
  rw [hfirst, hafter]
  constructor
  · exact List.takeWhile_eq_self_iff.mpr hall
  · rw [afterWord, List.dropWhile_eq_nil_iff.mpr hall, List.nil_append]

namespace Tree

/-- Induction over a tree with all parts of a signature at once. -/
@[elab_as_elim]
theorem byParts {motive : Tree → Prop} (basic : ∀ b, motive (basic b))
    (json : ∀ C, motive C → motive (json C)) (array : ∀ E, motive E → motive (array E))
    (nominal : ∀ n d, motive (nominal n d))
    (function : ∀ ps rs, (∀ P ∈ ps, motive P) → (∀ R ∈ rs, motive R) → motive (function ps rs))
    (T : Tree) : motive T := by
  refine T.rec (motive_2 := fun Ts => ∀ T ∈ Ts, motive T) basic json array nominal function ?_ ?_
  · simp
  · intro T Ts hT hTs
    simpa using ⟨hT, hTs⟩

mutual

/-- The type itself and the types that it is made of, at any depth. -/
def parts : Tree → List Tree
  | basic b => [basic b]
  | json constraint => json constraint :: constraint.parts
  | array element => array element :: element.parts
  | nominal n d => [nominal n d]
  | function params rets => function params rets :: (partsOfAll params ++ partsOfAll rets)

def partsOfAll : List Tree → List Tree
  | [] => []
  | T :: Ts => T.parts ++ partsOfAll Ts

end

variable {nameOf : DeclRef → String} {S T C E : Tree} {Ts ps rs : List Tree}

theorem mem_partsOfAll : S ∈ partsOfAll Ts ↔ ∃ T ∈ Ts, S ∈ T.parts := by
  induction Ts with
  | nil => simp [partsOfAll]
  | cons T Ts ih => simp [partsOfAll, ih]

def chars (nameOf : DeclRef → String) (T : Tree) : List Char := (T.text nameOf).toList

def constrained (nameOf : DeclRef → String) (C : Tree) : List Char :=
  if C = basic .none then [] else '<' :: (C.chars nameOf ++ ['>'])

def following (nameOf : DeclRef → String) (Ts : List Tree) : List Char :=
  Ts.flatMap fun T => ',' :: ' ' :: T.chars nameOf

def listed (nameOf : DeclRef → String) : List Tree → List Char
  | [] => []
  | T :: Ts => T.chars nameOf ++ following nameOf Ts

def returned (nameOf : DeclRef → String) (rets : List Tree) : List Char :=
  if rets = [] then [] else " returns (".toList ++ (listed nameOf rets ++ [')'])

theorem chars_basic (b : Basic) : (basic b).chars nameOf = b.name.toList := by
  simp [chars, text]

theorem chars_nominal (n : Nominal) (d : DeclRef) :
    (nominal n d).chars nameOf = (nameOf d).toList := by
  simp [chars, text]

theorem chars_json : (json C).chars nameOf = "json".toList ++ constrained nameOf C := by
  by_cases hC : C = basic .none
  · simp [chars, text, constrained, hC]
  · simp [chars, text, constrained, hC]

theorem chars_array : (array E).chars nameOf = E.chars nameOf ++ ['[', ']'] := by
  simp [chars, text]

theorem chars_commaSeparated (Ts : List Tree) :
    (TypeTable.commaSeparated (texts nameOf Ts)).toList = listed nameOf Ts := by
  rw [TypeTable.commaSeparated, String.toList_intercalate]
  cases Ts with
  | nil => rfl
  | cons T Ts =>
    induction Ts generalizing T with
    | nil => simp [texts, listed, following, chars]
    | cons T' Ts ih =>
      have hrest := ih T'
      simp only [texts, List.map_cons, listed, following, List.flatMap_cons] at hrest ⊢
      rw [List.intercalate_cons_cons, hrest]
      simp [chars]

theorem chars_function :
    (function ps rs).chars nameOf =
      "function".toList ++ ' ' :: '(' :: (listed nameOf ps ++ ')' :: returned nameOf rs) := by
  by_cases hrs : rs = []
  · simp [chars, text, returned, hrs, chars_commaSeparated]
  · simp [chars, text, returned, hrs, chars_commaSeparated]

theorem words_nominal {n : Nominal} {d : DeclRef} (hd : Plain (nameOf d)) :
    firstWord ((nominal n d).chars nameOf) = (nameOf d).toList ∧
      afterWord ((nominal n d).chars nameOf) = [] := by
  have hwords := @words_of_plain (nameOf d) [] hd (by simp)
  simpa [chars_nominal] using hwords

theorem words_json :
    firstWord ((json C).chars nameOf) = "json".toList ∧
      afterWord ((json C).chars nameOf) = constrained nameOf C := by
  rw [chars_json]
  apply words_of_plain (by decide)
  by_cases hC : C = basic .none
  · simp [constrained, hC]
  · simp [constrained, hC, isMark, marks]

theorem words_function :
    firstWord ((function ps rs).chars nameOf) = "function".toList ∧
      afterWord ((function ps rs).chars nameOf) =
        ' ' :: '(' :: (listed nameOf ps ++ ')' :: returned nameOf rs) := by
  rw [chars_function]
  exact words_of_plain (by decide) (by simp [isMark, marks])

/-- Other types than arrays begin with the name of their kind, or with their own name. -/
theorem firstWord_chars (harray : T.kind ≠ .array) (hnominal : ∀ n, T.kind ≠ .nominal n) :
    firstWord (T.chars nameOf) = firstWord T.kind.name.toList := by
  cases T with
  | basic b => rw [chars_basic]; rfl
  | json C =>
    rw [words_json.1, kind_json]
    decide
  | array E => exact absurd rfl harray
  | nominal n d => exact absurd rfl (hnominal n)
  | function ps rs =>
    rw [words_function.1, kind_function]
    decide

def brackets (k : Nat) : List Char := (List.replicate k ['[', ']']).flatten

theorem chars_base (T : Tree) : T.chars nameOf = T.base.chars nameOf ++ brackets T.dims := by
  induction T using byParts with
  | array E ih =>
    rw [chars_array, ih, base, dims, brackets, brackets, List.replicate_succ', List.flatten_append]
    simp
  | basic b => simp [base, dims, brackets]
  | json C _ => simp [base, dims, brackets]
  | nominal n d => simp [base, dims, brackets]
  | function ps rs _ _ => simp [base, dims, brackets]

end Tree

end TypeConformance
