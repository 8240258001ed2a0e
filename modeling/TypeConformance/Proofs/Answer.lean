import Mathlib.Data.List.Forall2
import TypeConformance.Table

/-! # Answers of questions that may fail

A question about types gives a fault or an answer. `Decides` says that a question is answered,
and rightly; `Agree` says that two questions fail alike or have related answers.
-/
namespace TypeConformance

variable {α β : Type}

theorem bind_eq_ok {ε : Type} {x : Except ε α} {f : α → Except ε β} {b : β} :
    (x >>= f) = .ok b ↔ ∃ a, x = .ok a ∧ f a = .ok b := by
  cases x with
  | error e => simp [bind, Except.bind]
  | ok a => simp [bind, Except.bind]

theorem bind_eq_error {ε : Type} {x : Except ε α} {f : α → Except ε β} {e : ε} :
    (x >>= f) = .error e ↔ x = .error e ∨ ∃ a, x = .ok a ∧ f a = .error e := by
  cases x with
  | error e => simp [bind, Except.bind]
  | ok a => simp [bind, Except.bind]

@[simp] theorem bind_ok {ε : Type} (a : α) (f : α → Except ε β) :
    ((Except.ok a : Except ε α) >>= f) = f a := rfl

@[simp] theorem bind_error {ε : Type} (e : ε) (f : α → Except ε β) :
    ((Except.error e : Except ε α) >>= f) = .error e := rfl

@[simp] theorem pure_eq_ok {ε : Type} (a : α) : (pure a : Except ε α) = .ok a := rfl

theorem mapM_eq_ok {ε : Type} {f : α → Except ε β} {xs : List α} {ys : List β} :
    xs.mapM f = .ok ys ↔ List.Forall₂ (fun x y => f x = .ok y) xs ys := by
  induction xs generalizing ys with
  | nil => cases ys <;> simp
  | cons x xs ih =>
    rw [List.mapM_cons, bind_eq_ok]
    constructor
    · rintro ⟨y, hy, h⟩
      obtain ⟨rest, hrest, h⟩ := bind_eq_ok.mp h
      cases h
      exact .cons hy (ih.mp hrest)
    · intro h
      cases h with
      | cons hy hrest => exact ⟨_, hy, bind_eq_ok.mpr ⟨_, ih.mpr hrest, rfl⟩⟩

def SameAnswer (x y : Except Fault α) : Prop := ∃ answer, x = .ok answer ∧ y = .ok answer

/-- The question is answered, and the answer is `true` exactly if `p` holds. -/
def Decides (question : Except Fault Bool) (p : Prop) : Prop :=
  ∃ b, question = .ok b ∧ (b = true ↔ p)

namespace Decides

variable {x y : Except Fault Bool} {p q : Prop}

theorem of_true (h : x = .ok true) (hp : p) : Decides x p := ⟨true, h, by simp [hp]⟩

theorem of_false (h : x = .ok false) (hp : ¬p) : Decides x p := ⟨false, h, by simp [hp]⟩

theorem eq_true_iff (h : Decides x p) : x = .ok true ↔ p := by
  obtain ⟨b, rfl, hb⟩ := h
  simp [← hb]

theorem eq_false_iff (h : Decides x p) : x = .ok false ↔ ¬p := by
  obtain ⟨b, rfl, hb⟩ := h
  simp [← hb]

theorem eq_decide [Decidable p] (h : Decides x p) : x = .ok (decide p) := by
  obtain ⟨b, rfl, hb⟩ := h
  rw [Bool.eq_iff_iff.mpr (hb.trans decide_eq_true_iff.symm)]

theorem congr (h : Decides x p) (hpq : p ↔ q) : Decides x q := by
  obtain ⟨b, hx, hb⟩ := h
  exact ⟨b, hx, hb.trans hpq⟩

theorem sameAnswer (hx : Decides x p) (hy : Decides y p) : SameAnswer x y := by
  obtain ⟨b, hx, hb⟩ := hx
  obtain ⟨c, hy, hc⟩ := hy
  exact ⟨b, hx, by rw [hy, Bool.eq_iff_iff.mpr (hb.trans hc.symm)]⟩

theorem and (hx : Decides x p) (hy : Decides y q) :
    Decides (do if ← x then y else return false) (p ∧ q) := by
  obtain ⟨b, rfl, hb⟩ := hx
  obtain ⟨c, rfl, hc⟩ := hy
  cases b with
  | false => exact .of_false rfl (by simp [← hb])
  | true => exact ⟨c, rfl, by simp [← hb, hc]⟩

theorem or (hx : Decides x p) (hy : Decides y q) :
    Decides (do if ← x then return true else y) (p ∨ q) := by
  obtain ⟨b, rfl, hb⟩ := hx
  obtain ⟨c, rfl, hc⟩ := hy
  cases b with
  | false => exact ⟨c, rfl, by simp [← hb, hc]⟩
  | true => exact .of_true rfl (by simp [← hb])

end Decides

/-- Both computations fail with the same fault, or both succeed with related results. -/
inductive Agree (related : α → β → Prop) : Except Fault α → Except Fault β → Prop where
  | ok {a b} : related a b → Agree related (.ok a) (.ok b)
  | error (fault) : Agree related (.error fault) (.error fault)

theorem Agree.refl {related : α → α → Prop} (hrefl : ∀ a, related a a) (x : Except Fault α) :
    Agree related x x := by
  cases x with
  | ok a => exact .ok (hrefl a)
  | error fault => exact .error fault

end TypeConformance
