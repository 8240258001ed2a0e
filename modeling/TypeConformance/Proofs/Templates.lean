import Mathlib.Data.List.Infix
import TypeConformance.Report

/-! # Messages made from templates

A template consists of literal pieces and numbered holes. Arguments are put in one after another,
each over the whole message so far. If none of them contains an opening brace, that comes to
filling all holes at once.
-/
namespace TypeConformance

namespace Text

variable {c : Char} {pattern new text rest xs ys : List Char}

theorem occursIn_iff : occursIn pattern text = true ↔ pattern <:+: text := by
  induction text with
  | nil => simp [occursIn]
  | cons c text ih =>
    rw [occursIn, Bool.or_eq_true, ih, List.isPrefixOf_iff_prefix, List.infix_cons_iff]

theorem prefix_append_separator (hc : c ∉ pattern) :
    pattern <+: xs ++ c :: ys ↔ pattern <+: xs := by
  induction xs generalizing pattern with
  | nil =>
    cases pattern with
    | nil => simp
    | cons p pattern =>
      have hp : p ≠ c := fun h => hc (h ▸ List.mem_cons_self)
      simp [List.cons_prefix_cons, hp]
  | cons x xs ih =>
    cases pattern with
    | nil => simp
    | cons p pattern =>
      rw [List.cons_append, List.cons_prefix_cons, List.cons_prefix_cons,
        ih fun h => hc (List.mem_cons_of_mem _ h)]

/-- A pattern does not reach across a character that it does not contain. -/
theorem infix_append_separator (hc : c ∉ pattern) :
    pattern <:+: xs ++ c :: ys ↔ pattern <:+: xs ∨ pattern <:+: ys := by
  induction xs with
  | nil =>
    have hfirst : pattern <+: [] ++ c :: ys ↔ pattern <+: [] := prefix_append_separator hc
    rw [List.nil_append] at hfirst ⊢
    rw [List.infix_cons_iff, hfirst, List.infix_nil, List.prefix_nil]
  | cons x xs ih =>
    rw [List.cons_append, List.infix_cons_iff, ih, List.infix_cons_iff, or_assoc,
      ← List.cons_append, prefix_append_separator hc]

theorem not_prefix_cons {x : Char} (h : c ≠ x) : ¬c :: pattern <+: x :: text := by
  rw [List.cons_prefix_cons]
  exact fun hprefix => h hprefix.1

theorem infix_append_of_head (hc : c ∉ xs) :
    c :: pattern <:+: xs ++ ys ↔ c :: pattern <:+: ys := by
  induction xs with
  | nil => rfl
  | cons x xs ih =>
    obtain ⟨hx, hxs⟩ := not_or.mp (mt List.mem_cons.mpr hc)
    rw [List.cons_append, List.infix_cons_iff, or_iff_right (not_prefix_cons hx), ih hxs]

theorem replace_cons (h : ¬pattern <+: c :: text) :
    replace pattern new (c :: text) = c :: replace pattern new text := by
  rw [← List.isPrefixOf_iff_prefix, Bool.not_eq_true] at h
  simp [replace, replaceFrom, h]

theorem replace_append (hc : c ∉ xs) :
    replace (c :: pattern) new (xs ++ rest) = xs ++ replace (c :: pattern) new rest := by
  induction xs with
  | nil => rfl
  | cons x xs ih =>
    obtain ⟨hx, hxs⟩ := not_or.mp (mt List.mem_cons.mpr hc)
    rw [List.cons_append, replace_cons (not_prefix_cons hx), ih hxs, List.cons_append]

theorem replaceFrom_length (xs : List Char) :
    replaceFrom pattern new xs.length (xs ++ rest) = replaceFrom pattern new 0 rest := by
  induction xs with
  | nil => rfl
  | cons x xs ih => exact ih

theorem replace_self :
    replace (c :: pattern) new (c :: pattern ++ rest) = new ++ replace (c :: pattern) new rest := by
  have hprefix : (c :: pattern).isPrefixOf (c :: (pattern ++ rest)) = true :=
    List.isPrefixOf_iff_prefix.mpr ⟨rest, rfl⟩
  simp only [replace, List.cons_append, replaceFrom, hprefix, if_true, List.length_cons,
    Nat.add_sub_cancel, replaceFrom_length]

end Text

inductive Piece where
  | literal (text : List Char)
  | hole (number : Nat)
  deriving DecidableEq, Repr

namespace Piece

def chars : Piece → List Char
  | literal text => text
  | hole i => Code.placeholder i

def put (i : Nat) (arg : List Char) : Piece → Piece
  | literal text => literal text
  | hole j => if i = j then literal arg else hole j

def putAll : Nat → List String → Piece → Piece
  | _, [], p => p
  | i, arg :: rest, p => putAll (i + 1) rest (p.put i arg.toList)

def Braceless : Piece → Prop
  | literal text => '\x7b' ∉ text
  | hole _ => True

instance (p : Piece) : Decidable p.Braceless :=
  match p with
  | literal text => inferInstanceAs (Decidable ('\x7b' ∉ text))
  | hole _ => .isTrue trivial

def written (ps : List Piece) : List Char := ps.flatMap chars

variable {i j : Nat} {arg text rest : List Char} {p : Piece} {ps : List Piece}

theorem isDigit_of_mem_repr {c : Char} (hc : c ∈ (Nat.repr i).toList) : c.isDigit = true := by
  rw [Nat.toList_repr] at hc
  exact Nat.isDigit_of_mem_toDigits (by decide) le_rfl hc

theorem takeWhile_repr (i : Nat) (rest : List Char) :
    ((Nat.repr i).toList ++ '\x7d' :: rest).takeWhile Char.isDigit = (Nat.repr i).toList := by
  rw [List.takeWhile_append_of_pos fun _ => isDigit_of_mem_repr,
    List.takeWhile_cons_of_neg (by decide), List.append_nil]

/-- The closing brace tells where a number ends, so no hole looks like one of another number. -/
theorem placeholder_prefix_iff : Code.placeholder i <+: Code.placeholder j ++ rest ↔ i = j := by
  constructor
  · rintro ⟨tail, h⟩
    have hdigits : (Nat.repr i).toList ++ '\x7d' :: tail =
        (Nat.repr j).toList ++ '\x7d' :: rest := by
      simpa [Code.placeholder] using h
    have hrepr := congrArg (List.takeWhile Char.isDigit) hdigits
    rw [takeWhile_repr, takeWhile_repr, Nat.toList_repr, Nat.toList_repr] at hrepr
    rw [← Nat.ofDigitChars_ten_toDigits (n := i), hrepr, Nat.ofDigitChars_ten_toDigits]
  · rintro rfl
    exact List.prefix_append _ _

theorem replace_piece (hp : p.Braceless) :
    Text.replace (Code.placeholder i) arg (p.chars ++ rest) =
      (p.put i arg).chars ++ Text.replace (Code.placeholder i) arg rest := by
  cases p with
  | literal text => exact Text.replace_append hp
  | hole j =>
    by_cases hij : i = j
    · subst hij
      simp only [chars, put, if_true]
      exact Text.replace_self
    · -- The opening brace is passed over, and there is no other one up to the next piece.
      have hother : ¬Code.placeholder i <+: Code.placeholder j ++ rest :=
        fun h => hij (placeholder_prefix_iff.mp h)
      have htail : '\x7b' ∉ (Nat.repr j).toList ++ ['\x7d'] := by
        intro hmem
        rcases List.mem_append.mp hmem with hdigit | hclose
        · exact absurd (isDigit_of_mem_repr hdigit) (by decide)
        · simp at hclose
      simp only [chars, put, if_neg hij]
      calc Text.replace (Code.placeholder i) arg (Code.placeholder j ++ rest)
          = '\x7b' :: Text.replace (Code.placeholder i) arg
              ((Nat.repr j).toList ++ ['\x7d'] ++ rest) := Text.replace_cons hother
        _ = '\x7b' :: ((Nat.repr j).toList ++ ['\x7d'] ++
              Text.replace (Code.placeholder i) arg rest) :=
            congrArg _ (Text.replace_append htail)

theorem braceless_put (hp : p.Braceless) (harg : '\x7b' ∉ arg) : (p.put i arg).Braceless := by
  cases p with
  | literal text => exact hp
  | hole j =>
    by_cases hij : i = j
    · simpa [put, hij, Braceless] using harg
    · simp [put, hij, Braceless]

theorem replace_written (hps : ∀ p ∈ ps, p.Braceless) :
    Text.replace (Code.placeholder i) arg (written ps) = written (ps.map (put i arg)) := by
  induction ps with
  | nil => rfl
  | cons p ps ih =>
    obtain ⟨hp, hrest⟩ := List.forall_mem_cons.mp hps
    have hwritten := ih hrest
    simp only [written, List.flatMap_cons, List.map_cons] at hwritten ⊢
    rw [replace_piece hp, hwritten]

theorem fill_written {args : List String} (hps : ∀ p ∈ ps, p.Braceless)
    (hargs : ∀ a ∈ args, '\x7b' ∉ a.toList) :
    Code.fill (written ps) i args = written (ps.map (putAll i args)) := by
  induction args generalizing i ps with
  | nil => simp [Code.fill, putAll]
  | cons arg args ih =>
    obtain ⟨harg, hrest⟩ := List.forall_mem_cons.mp hargs
    have hput : ∀ p ∈ ps.map (put i arg.toList), p.Braceless := by
      intro p hp
      obtain ⟨q, hq, rfl⟩ := List.mem_map.mp hp
      exact braceless_put (hps q hq) harg
    rw [Code.fill, replace_written hps, ih hput hrest, List.map_map]
    rfl

/-- Text with holes in quotes. Their numbers count up from `i`; the links are the texts after
each hole. -/
def quoting (lead : List Char) : Nat → List (List Char) → List Piece
  | _, [] => [literal lead]
  | i, link :: links =>
    literal lead :: literal ['\x27'] :: hole i :: literal ['\x27'] :: quoting link (i + 1) links

theorem put_of_mem_quoting {lead : List Char} {links : List (List Char)} (hij : i < j)
    (hp : p ∈ quoting lead j links) : p.put i arg = p := by
  induction links generalizing lead j with
  | nil =>
    obtain rfl := List.mem_singleton.mp hp
    rfl
  | cons link links ih =>
    simp only [quoting, List.mem_cons] at hp
    rcases hp with rfl | rfl | rfl | rfl | hp
    · rfl
    · rfl
    · rw [put, if_neg (Nat.ne_of_lt hij)]
    · rfl
    · exact ih (Nat.lt_succ_of_lt hij) hp

theorem putAll_literal (args : List String) : putAll i args (literal text) = literal text := by
  induction args generalizing i with
  | nil => rfl
  | cons arg args ih => exact ih

/-- Filled holes in quotes: the arguments stand between the literal texts, and quotes part them. -/
theorem infix_quoting {pattern lead : List Char} {links : List (List Char)} {args : List String}
    (hquote : '\x27' ∉ pattern) (hlength : args.length = links.length) :
    pattern <:+: written ((quoting lead i links).map (putAll i args)) ↔
      (∃ l ∈ lead :: links, pattern <:+: l) ∨ ∃ a ∈ args, pattern <:+: a.toList := by
  induction links generalizing i lead args with
  | nil =>
    obtain rfl := List.length_eq_zero_iff.mp hlength
    simp [quoting, written, putAll, chars]
  | cons link links ih =>
    obtain ⟨arg, args, rfl⟩ := List.exists_cons_of_length_eq_add_one hlength
    have hothers : (quoting link (i + 1) links).map (putAll i (arg :: args)) =
        (quoting link (i + 1) links).map (putAll (i + 1) args) := by
      apply List.map_congr_left
      intro p hp
      rw [putAll, put_of_mem_quoting (Nat.lt_succ_self i) hp]
    have hfirst : putAll i (arg :: args) (hole i) = literal arg.toList := by
      rw [putAll, put, if_pos rfl, putAll_literal]
    have hwritten : written ((quoting lead i (link :: links)).map (putAll i (arg :: args))) =
        lead ++ '\x27' :: (arg.toList ++ '\x27' ::
          written ((quoting link (i + 1) links).map (putAll (i + 1) args))) := by
      simp [quoting, written, putAll_literal, hfirst, hothers, chars]
    rw [hwritten, Text.infix_append_separator hquote, Text.infix_append_separator hquote,
      ih (Nat.succ.inj hlength)]
    simp only [List.exists_mem_cons_iff, or_assoc, or_left_comm]

end Piece

namespace Code

open Piece (quoting literal hole)

def pieces : Code → List Piece
  | e2001 => quoting "incompatible types: expected ".toList 0 [", found ".toList, []]
  | e2002 => quoting "incompatible types: ".toList 0 [" cannot be cast to ".toList, []]
  | e2003 => quoting "incompatible types: ".toList 0 [" cannot be converted to ".toList, []]
  | e2005 => quoting "incompatible types: ".toList 0 [" cannot be used as a json constraint".toList]
  | e2006 => quoting "incompatible argument type: expected ".toList 0 [", found ".toList, []]
  | e2007 => quoting "incompatible return type: expected ".toList 0 [", found ".toList, []]
  | e9002 => [literal "aborting due to ".toList, hole 0, literal " previous errors".toList]
  | w2001 => quoting "unsafe cast from ".toList 0 [" to ".toList, " is checked at run time".toList]

theorem template_eq_written (c : Code) : c.template.toList = Piece.written c.pieces := by
  cases c <;> decide +kernel

theorem pieces_braceless (c : Code) : ∀ p ∈ c.pieces, p.Braceless := by
  cases c <;> decide +kernel

variable {c : Code} {args : List String}

theorem render_eq_written (hargs : ∀ a ∈ args, '\x7b' ∉ a.toList) :
    (c.render args).toList = Piece.written (c.pieces.map (Piece.putAll 0 args)) := by
  rw [render, String.toList_ofList, template_eq_written,
    Piece.fill_written c.pieces_braceless hargs]

def arity : Code → Nat
  | e2005 | e9002 => 1
  | _ => 2

theorem pieces_quoting (hc : c ≠ .e9002) : ∃ lead links, c.pieces = quoting lead 0 links ∧
    links.length = c.arity ∧ ∀ l ∈ lead :: links, '<' ∉ l := by
  cases c with
  | e9002 => exact absurd rfl hc
  | _ => exact ⟨_, _, rfl, rfl, by decide +kernel⟩

/-- A pattern with an angle bracket is found in a message only if it is found in an argument. -/
theorem infix_render_iff {pattern : List Char} (hc : c ≠ .e9002) (hlength : args.length = c.arity)
    (hargs : ∀ a ∈ args, '\x7b' ∉ a.toList) (hquote : '\x27' ∉ pattern) (hangle : '<' ∈ pattern) :
    pattern <:+: (c.render args).toList ↔ ∃ a ∈ args, pattern <:+: a.toList := by
  obtain ⟨lead, links, hpieces, hlinks, hliteral⟩ := pieces_quoting hc
  have hnone : ¬∃ l ∈ lead :: links, pattern <:+: l := by
    rintro ⟨l, hl, hfound⟩
    exact hliteral l hl (hfound.subset hangle)
  rw [render_eq_written hargs, hpieces, Piece.infix_quoting hquote (hlength.trans hlinks.symm),
    or_iff_right hnone]

end Code

end TypeConformance
