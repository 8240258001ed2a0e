import TypeConformance.Proofs.Templates

/-! # Arguments that contain placeholders

An argument that is put into a message is searched for the placeholders of the arguments after
it. So a hole gets its argument with the later arguments already put into that argument. A message
is the template with all holes filled at once exactly if this changes none of its arguments, in
particular if no argument contains the placeholder of a later one.
-/
namespace TypeConformance

namespace Text

variable {c : Char} {pattern new text xs ys : List Char}

theorem replaceFrom_append_separator (hc : c ∉ pattern) (hne : pattern ≠ []) {skip : Nat}
    (hskip : skip ≤ xs.length) :
    replaceFrom pattern new skip (xs ++ c :: ys) =
      replaceFrom pattern new skip xs ++ c :: replace pattern new ys := by
  induction xs generalizing skip with
  | nil =>
    obtain rfl := Nat.le_zero.mp hskip
    have hfirst : ¬pattern <+: c :: ys := by
      rw [← List.nil_append (c :: ys), prefix_append_separator hc, List.prefix_nil]
      exact hne
    exact replace_cons hfirst
  | cons x xs ih =>
    cases skip with
    | succ skip => exact ih (Nat.le_of_succ_le_succ hskip)
    | zero =>
      have hsame : pattern.isPrefixOf (x :: (xs ++ c :: ys)) = pattern.isPrefixOf (x :: xs) := by
        rw [Bool.eq_iff_iff, List.isPrefixOf_iff_prefix, List.isPrefixOf_iff_prefix,
          ← List.cons_append, prefix_append_separator hc]
      simp only [List.cons_append, replaceFrom, hsame]
      split
      · -- An occurrence lies on this side of the separator, and so does what is passed over.
        rename_i hprefix
        have hlength := (List.isPrefixOf_iff_prefix.mp hprefix).length_le
        rw [List.length_cons] at hlength
        rw [ih (by omega), List.append_assoc]
      · rw [ih (Nat.zero_le _), List.cons_append]

theorem replace_append_separator (hc : c ∉ pattern) (hne : pattern ≠ []) :
    replace pattern new (xs ++ c :: ys) =
      replace pattern new xs ++ c :: replace pattern new ys :=
  replaceFrom_append_separator hc hne (Nat.zero_le _)

theorem replace_eq_self (h : ¬pattern <:+: text) : replace pattern new text = text := by
  induction text with
  | nil => rfl
  | cons c text ih =>
    obtain ⟨hfirst, hrest⟩ := not_or.mp (mt List.infix_cons_iff.mpr h)
    rw [replace_cons hfirst, ih hrest]

section Separated

variable {change : List Char → List Char} {a b mid : List Char}

/-- No change makes a text shorter in a way that the change itself preserves: what is left would
become shorter again without end. -/
theorem not_shortened (change : List Char → List Char) (shortens : List Char → List Char → Prop)
    (hlength : ∀ u v, shortens u v → v.length < u.length)
    (hchange : ∀ u v, shortens u v → shortens (change u) (change v)) (a : List Char) :
    ¬shortens a (change a) := by
  induction hn : a.length using Nat.strong_induction_on generalizing a with
  | _ n ih =>
    intro ha
    exact ih _ (hn ▸ hlength _ _ ha) (change a) rfl (hchange _ _ ha)

theorem not_changed_prefix (hchange : ∀ u v, change (u ++ c :: v) = change u ++ c :: change v)
    (a : List Char) : ¬change a ++ [c] <+: a := by
  refine not_shortened change (fun u v => v ++ [c] <+: u) ?_ ?_ a
  · intro u v h
    have hle := h.length_le
    rw [List.length_append, List.length_singleton] at hle
    omega
  · rintro _ v ⟨z, rfl⟩
    exact ⟨change z, by simp [hchange]⟩

theorem not_changed_suffix (hchange : ∀ u v, change (u ++ c :: v) = change u ++ c :: change v)
    (b : List Char) : ¬c :: change b <:+ b := by
  refine not_shortened change (fun u v => c :: v <:+ u) ?_ ?_ b
  · intro u v h
    have hle := h.length_le
    rw [List.length_cons] at hle
    omega
  · rintro _ v ⟨z, rfl⟩
    exact ⟨change z, by simp [hchange]⟩

theorem unchanged_of_whole (change change' : List Char → List Char)
    (hchange : ∀ u v, change (u ++ c :: v) = change u ++ c :: change v)
    (hchange' : ∀ u v, change' (u ++ c :: v) = change' u ++ c :: change' v)
    (h : change a ++ c :: (mid ++ c :: change' b) = a ++ c :: (mid ++ c :: b)) :
    change a = a ∧ change' b = b := by
  have hsum : (change a).length + (change' b).length = a.length + b.length := by
    have hlength := congrArg List.length h
    simp only [List.length_append, List.length_cons] at hlength
    omega
  -- If one text became shorter, it would have lost its end, or its beginning, at a separator.
  have hfirst : a.length ≤ (change a).length := by
    by_contra hlt
    have hwhole : change a ++ [c] <+: a ++ c :: (mid ++ c :: b) :=
      ⟨mid ++ c :: change' b, by simpa using h⟩
    have hlength : (change a ++ [c]).length ≤ a.length := by
      rw [List.length_append, List.length_singleton]
      omega
    exact not_changed_prefix hchange a
      (List.prefix_of_prefix_length_le hwhole (List.prefix_append _ _) hlength)
  have hsecond : b.length ≤ (change' b).length := by
    by_contra hlt
    have hwhole : c :: change' b <:+ a ++ c :: (mid ++ c :: b) :=
      ⟨change a ++ c :: mid, by simpa using h⟩
    have hown : b <:+ a ++ c :: (mid ++ c :: b) := ⟨a ++ c :: (mid ++ [c]), by simp⟩
    have hlength : (c :: change' b).length ≤ b.length := by
      rw [List.length_cons]
      omega
    exact not_changed_suffix hchange' b (List.suffix_of_suffix_length_le hwhole hown hlength)
  obtain ⟨ha, hrest⟩ := List.append_inj h (by omega)
  exact ⟨ha, by simpa using hrest⟩

end Separated

end Text

namespace Code

variable {c : Char} {i j : Nat} {args : List String} {text rest xs ys : List Char}

def apart : List Char → Bool
  | [] => true
  | c :: _ => c ≠ '\x7b' && c ≠ '\x7d' && !c.isDigit

theorem not_mem_placeholder (hc : apart [c] = true) (i : Nat) : c ∉ placeholder i := by
  simp only [apart, ne_eq, Bool.and_eq_true, decide_eq_true_eq, Bool.not_eq_true'] at hc
  intro hmem
  rcases List.mem_append.mp hmem with hmem | hmem
  · rcases List.mem_cons.mp hmem with rfl | hmem
    · exact hc.1.1 rfl
    · rw [Piece.isDigit_of_mem_repr hmem] at hc
      cases hc.2
  · exact hc.1.2 (List.mem_singleton.mp hmem)

theorem placeholder_ne_nil (i : Nat) : placeholder i ≠ [] := List.cons_ne_nil _ _

theorem fill_nil (i : Nat) (args : List String) : fill [] i args = [] := by
  induction args generalizing i with
  | nil => rfl
  | cons arg args ih => exact ih (i + 1)

theorem fill_braceless_append (htext : '\x7b' ∉ text) :
    fill (text ++ rest) i args = text ++ fill rest i args := by
  induction args generalizing i rest with
  | nil => rfl
  | cons arg args ih =>
    rw [fill, placeholder, List.cons_append, Text.replace_append htext, ih]
    rfl

theorem fill_append_separator (hc : apart [c] = true) :
    fill (xs ++ c :: ys) i args = fill xs i args ++ c :: fill ys i args := by
  induction args generalizing i xs ys with
  | nil => rfl
  | cons arg args ih =>
    rw [fill, Text.replace_append_separator (not_mem_placeholder hc i) (placeholder_ne_nil i), ih]
    rfl

theorem fill_append (hrest : apart rest = true) :
    fill (xs ++ rest) i args = fill xs i args ++ fill rest i args := by
  cases rest with
  | nil => rw [fill_nil, List.append_nil, List.append_nil]
  | cons c rest =>
    have hrest' : fill ([] ++ c :: rest) i args = fill [] i args ++ c :: fill rest i args :=
      fill_append_separator hrest
    rw [fill_nil, List.nil_append, List.nil_append] at hrest'
    rw [fill_append_separator hrest, hrest']

theorem replace_placeholder (arg : List Char) :
    Text.replace (placeholder i) arg (placeholder j) = if i = j then arg else placeholder j := by
  have hpiece : Text.replace (placeholder i) arg ((Piece.hole j).chars ++ []) =
      ((Piece.hole j).put i arg).chars ++ Text.replace (placeholder i) arg [] :=
    Piece.replace_piece trivial
  by_cases hij : i = j
  · simpa [Piece.put, Piece.chars, hij, Text.replace, Text.replaceFrom] using hpiece
  · simpa [Piece.put, Piece.chars, hij, Text.replace, Text.replaceFrom] using hpiece

/-- A placeholder is filled by its argument, into which the later arguments are put. -/
theorem fill_placeholder (i n : Nat) (args : List String) :
    fill (placeholder (i + n)) i args =
      (args[n]?.map fun arg => fill arg.toList (i + n + 1) (args.drop (n + 1))).getD
        (placeholder (i + n)) := by
  induction args generalizing i n with
  | nil => rfl
  | cons arg args ih =>
    cases n with
    | zero => simp [fill, replace_placeholder]
    | succ n =>
      have hother : ¬i = i + (n + 1) := by omega
      have hnext := ih (i + 1) n
      rw [Nat.add_right_comm i 1 n, Nat.add_assoc i n 1] at hnext
      rw [fill, replace_placeholder, if_neg hother, hnext]
      rfl

theorem fill_eq_self (htext : ∀ j, i ≤ j → j < i + args.length → ¬placeholder j <:+: text) :
    fill text i args = text := by
  induction args generalizing i with
  | nil => rfl
  | cons arg args ih =>
    rw [fill, Text.replace_eq_self (htext i (Nat.le_refl i) (by simp))]
    apply ih
    intro j hij hj
    apply htext j (by omega)
    rw [List.length_cons]
    omega

end Code

namespace Piece

def filled (texts : Nat → Option (List Char)) : Piece → List Char
  | literal text => text
  | hole i => (texts i).getD (Code.placeholder i)

def parted : List Piece → Bool
  | [] => true
  | literal _ :: ps => parted ps
  | hole _ :: ps => Code.apart (written ps) && parted ps

end Piece

namespace Code

open Piece (quoting filled)

def verbatim (args : List String) (i : Nat) : Option (List Char) := args[i]?.map String.toList

/-- The arguments by their numbers, each with the later ones put into it. -/
def settled (args : List String) (i : Nat) : Option (List Char) :=
  args[i]?.map fun arg => fill arg.toList (i + 1) (args.drop (i + 1))

/-- The template with all its holes filled at once. A hole without a text stays as it is. -/
def substituted (c : Code) (texts : Nat → Option (List Char)) : List Char :=
  c.pieces.flatMap (filled texts)

variable {c : Code} {i : Nat} {args : List String} {ps : List Piece}

theorem pieces_parted (c : Code) : Piece.parted c.pieces = true := by
  cases c <;> decide +kernel

theorem substituted_nothing (c : Code) : c.substituted (fun _ => none) = c.template.toList := by
  have hchars : filled (fun _ => none) = Piece.chars := by
    funext p
    cases p <;> rfl
  rw [template_eq_written, substituted, hchars, Piece.written]

theorem fill_parted (hbraceless : ∀ p ∈ ps, p.Braceless) (hparted : Piece.parted ps = true) :
    fill (Piece.written ps) 0 args = ps.flatMap (filled (settled args)) := by
  induction ps with
  | nil => exact fill_nil 0 args
  | cons p ps ih =>
    obtain ⟨hp, hrest⟩ := List.forall_mem_cons.mp hbraceless
    rw [Piece.written, List.flatMap_cons, ← Piece.written, List.flatMap_cons]
    cases p with
    | literal text => rw [Piece.chars, fill_braceless_append hp, ih hrest hparted, filled]
    | hole i =>
      obtain ⟨hapart, hparted⟩ := Bool.and_eq_true_iff.mp hparted
      have hhole := fill_placeholder 0 i args
      rw [Nat.zero_add] at hhole
      rw [Piece.chars, fill_append hapart, ih hrest hparted, hhole]
      rfl

theorem render_eq_substituted (c : Code) (args : List String) :
    (c.render args).toList = c.substituted (settled args) := by
  rw [render, String.toList_ofList, template_eq_written,
    fill_parted c.pieces_braceless c.pieces_parted, substituted]

theorem settled_getD (args : List String) (i : Nat) :
    (settled args i).getD (placeholder i) =
      fill ((verbatim args i).getD (placeholder i)) (i + 1) (args.drop (i + 1)) := by
  cases harg : args[i]? with
  | some arg => simp [settled, verbatim, harg]
  | none =>
    have hdrop : args.drop (i + 1) = [] := by
      have := List.getElem?_eq_none_iff.mp harg
      exact List.drop_eq_nil_of_le (by omega)
    simp [settled, verbatim, harg, hdrop, fill]

theorem settled_eq_verbatim_iff : settled args i = verbatim args i ↔
    (settled args i).getD (placeholder i) = (verbatim args i).getD (placeholder i) := by
  cases harg : args[i]? with
  | some arg => simp [settled, verbatim, harg]
  | none => simp [settled, verbatim, harg]

theorem settled_eq_verbatim {arg : String} (harg : args[i]? = some arg)
    (hclean : ∀ j, i < j → j < args.length → ¬placeholder j <:+: arg.toList) :
    settled args i = verbatim args i := by
  have hsame : fill arg.toList (i + 1) (args.drop (i + 1)) = arg.toList := by
    apply fill_eq_self
    intro j hij hj
    rw [List.length_drop] at hj
    exact hclean j (by omega) (by omega)
  simp [settled, verbatim, harg, hsame]

theorem settled_of_quoting {lead mid tail : List Char}
    (h : (quoting lead 0 [mid, tail]).flatMap (filled (settled args)) =
      (quoting lead 0 [mid, tail]).flatMap (filled (verbatim args))) :
    settled args 0 = verbatim args 0 ∧ settled args 1 = verbatim args 1 := by
  have hquote (i : Nat) (args : List String) (u v : List Char) :
      fill (u ++ '\x27' :: v) i args = fill u i args ++ '\x27' :: fill v i args :=
    fill_append_separator rfl
  rw [settled_eq_verbatim_iff, settled_eq_verbatim_iff, settled_getD, settled_getD]
  simp only [quoting, List.flatMap_cons, filled, settled_getD] at h
  generalize (verbatim args 0).getD (placeholder 0) = a at h ⊢
  generalize (verbatim args 1).getD (placeholder 1) = b at h ⊢
  have hmessage :
      (fill a 1 (args.drop 1) ++ '\x27' :: (mid ++ '\x27' :: fill b 2 (args.drop 2))) ++
        '\x27' :: tail = (a ++ '\x27' :: (mid ++ '\x27' :: b)) ++ '\x27' :: tail := by
    simpa using h
  exact Text.unchanged_of_whole (fill · 1 (args.drop 1)) (fill · 2 (args.drop 2)) (hquote _ _)
    (hquote _ _) (List.append_cancel_right hmessage)

/-- Whether later arguments change an earlier one shows in every message that it stands in. -/
theorem substituted_settled_iff (c : Code) (args : List String) :
    c.substituted (settled args) = c.substituted (verbatim args) ↔
      ∀ i, Piece.hole i ∈ c.pieces → settled args i = verbatim args i := by
  constructor
  · intro h i hi
    cases c with
    | e2005 | e9002 =>
      obtain rfl : i = 0 := by simpa [pieces, quoting] using hi
      rw [settled_eq_verbatim_iff]
      simpa [substituted, pieces, quoting, filled] using h
    | _ =>
      obtain ⟨hfirst, hsecond⟩ := settled_of_quoting h
      have hholes : i = 0 ∨ i = 1 := by simpa [pieces, quoting] using hi
      rcases hholes with rfl | rfl
      · exact hfirst
      · exact hsecond
  · intro h
    apply List.flatMap_congr
    intro p hp
    cases p with
    | literal text => rfl
    | hole i => rw [filled, filled, h i hp]

/-- A message is its template with each hole filled by its argument, into which the later
arguments were put. That is the template with the arguments themselves in its holes exactly if no
argument that stands in a hole is changed by the later ones. It is enough that none of them
contains a later placeholder. -/
theorem render_substitutes_settled_arguments (c : Code) (args : List String) :
    c.template.toList = c.substituted (fun _ => none) ∧
    (c.render args).toList = c.substituted (settled args) ∧
    ((c.render args).toList = c.substituted (verbatim args) ↔
      ∀ i, Piece.hole i ∈ c.pieces → settled args i = verbatim args i) ∧
    ((∀ i j arg, Piece.hole i ∈ c.pieces → args[i]? = some arg → i < j → j < args.length →
        ¬placeholder j <:+: arg.toList) →
      (c.render args).toList = c.substituted (verbatim args)) := by
  have hrender := c.render_eq_substituted args
  have hiff := c.substituted_settled_iff args
  refine ⟨(c.substituted_nothing).symm, hrender, by rw [hrender, hiff], ?_⟩
  intro hclean
  rw [hrender, hiff]
  intro i hi
  cases harg : args[i]? with
  | none => simp [settled, verbatim, harg]
  | some arg => exact settled_eq_verbatim harg fun j => hclean i j arg hi harg

/-- The first argument asks for the second one and gets it. Filled at once, the hole would hold
the first argument as it is. -/
theorem incompatible_fills_given_placeholder :
    e2001.render ["\x7b1\x7d", "int"] = "incompatible types: expected 'int', found 'int'" ∧
    e2001.substituted (verbatim ["\x7b1\x7d", "int"]) =
      "incompatible types: expected '\x7b1\x7d', found 'int'".toList ∧
    (e2001.render ["\x7b1\x7d", "int"]).toList ≠
      e2001.substituted (verbatim ["\x7b1\x7d", "int"]) := by
  decide +kernel

end Code

end TypeConformance
