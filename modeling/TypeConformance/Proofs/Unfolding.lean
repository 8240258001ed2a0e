import TypeConformance.Proofs.Growth
import TypeConformance.Table

/-! # Types as finite trees

A type of a table unfolds to a finite tree: arrays, constraints and signatures are opened part by
part, nominal types are leaves. Identity of types is equality of their trees.
-/
namespace TypeConformance

inductive Tree where
  | basic (b : Basic)
  | json (constraint : Tree)
  | array (element : Tree)
  | nominal (n : Nominal) (declaration : DeclRef)
  | function (params rets : List Tree)
  deriving Repr

namespace Tree

mutual

def decEq : (A B : Tree) → Decidable (A = B)
  | basic b, B => match B with
    | basic c => decidable_of_iff (b = c) (by simp)
    | json _ | array _ | nominal _ _ | function _ _ => isFalse (by simp)
  | json C, B => match B with
    | json D => match decEq C D with
      | isTrue h => isTrue (by rw [h])
      | isFalse h => isFalse (by simpa using h)
    | basic _ | array _ | nominal _ _ | function _ _ => isFalse (by simp)
  | array C, B => match B with
    | array D => match decEq C D with
      | isTrue h => isTrue (by rw [h])
      | isFalse h => isFalse (by simpa using h)
    | basic _ | json _ | nominal _ _ | function _ _ => isFalse (by simp)
  | nominal n d, B => match B with
    | nominal m e => decidable_of_iff (n = m ∧ d = e) (by simp)
    | basic _ | json _ | array _ | function _ _ => isFalse (by simp)
  | function ps rs, B => match B with
    | function qs ss => match decEqList ps qs, decEqList rs ss with
      | isTrue h, isTrue k => isTrue (by rw [h, k])
      | isFalse h, _ => isFalse (by simp [h])
      | _, isFalse h => isFalse (by simp [h])
    | basic _ | json _ | array _ | nominal _ _ => isFalse (by simp)

def decEqList : (As Bs : List Tree) → Decidable (As = Bs)
  | [], [] => isTrue rfl
  | A :: As, B :: Bs => match decEq A B, decEqList As Bs with
    | isTrue h, isTrue k => isTrue (by rw [h, k])
    | isFalse h, _ => isFalse (by simp [h])
    | _, isFalse h => isFalse (by simp [h])
  | [], _ :: _ | _ :: _, [] => isFalse (by simp)

end

instance : DecidableEq Tree := decEq

def kind : Tree → Kind
  | basic b => .basic b
  | json _ => .json
  | array _ => .array
  | nominal n _ => .nominal n
  | function _ _ => .function

@[simp] theorem kind_basic (b : Basic) : (basic b).kind = .basic b := rfl
@[simp] theorem kind_json (C : Tree) : (json C).kind = .json := rfl
@[simp] theorem kind_array (E : Tree) : (array E).kind = .array := rfl
@[simp] theorem kind_nominal (n : Nominal) (d : DeclRef) : (nominal n d).kind = .nominal n := rfl
@[simp] theorem kind_function (ps rs : List Tree) : (function ps rs).kind = .function := rfl

@[simp] theorem kind_eq_basic {T : Tree} {b : Basic} : T.kind = .basic b ↔ T = .basic b := by
  cases T <;> simp

end Tree

namespace TypeTable

def unfoldWithin (t : TypeTable) : Nat → Handle → Except Fault Tree
  | 0, _ => .error .endless
  | budget + 1, h => do
    match ← t.shape h with
    | .basic b => return .basic b
    | .json constraint => return .json (← t.unfoldWithin budget constraint)
    | .array element => return .array (← t.unfoldWithin budget element)
    | .nominal n d => return .nominal n d
    | .function params rets =>
      return .function (← params.mapM (t.unfoldWithin budget))
        (← rets.mapM (t.unfoldWithin budget))

/-- The tree of a type. A walk through more layers than there are slots never ends. -/
def unfold (t : TypeTable) (h : Handle) : Except Fault Tree := t.unfoldWithin t.walkBudget h

/-- One layer of a tree, with the trees of the parts given by `sub`. -/
inductive Opens (sub : Handle → Except Fault Tree) : Shape → Tree → Prop where
  | basic (b) : Opens sub (.basic b) (.basic b)
  | json {c C} : sub c = .ok C → Opens sub (.json c) (.json C)
  | array {e E} : sub e = .ok E → Opens sub (.array e) (.array E)
  | nominal (n d) : Opens sub (.nominal n d) (.nominal n d)
  | function {ps rs Ps Rs} : List.Forall₂ (fun p P => sub p = .ok P) ps Ps →
      List.Forall₂ (fun r R => sub r = .ok R) rs Rs →
      Opens sub (.function ps rs) (.function Ps Rs)

variable {t : TypeTable} {sub sub' : Handle → Except Fault Tree} {s : Shape} {T : Tree}
  {a b h : Handle} {A B : Tree}

theorem Opens.mono (hle : ∀ h T, sub h = .ok T → sub' h = .ok T) (ho : Opens sub s T) :
    Opens sub' s T := by
  cases ho with
  | basic b => exact .basic b
  | json hc => exact .json (hle _ _ hc)
  | array he => exact .array (hle _ _ he)
  | nominal n d => exact .nominal n d
  | function hp hr => exact .function (hp.imp fun _ _ => hle _ _) (hr.imp fun _ _ => hle _ _)

theorem unfoldWithin_succ {n : Nat} : t.unfoldWithin (n + 1) h = .ok T ↔
    ∃ s, t.shape h = .ok s ∧ Opens (t.unfoldWithin n) s T := by
  rw [unfoldWithin, bind_eq_ok]
  refine exists_congr fun s => and_congr_right fun _ => ?_
  constructor
  · intro hT
    cases s with
    | basic b => cases hT; exact .basic b
    | json c =>
      obtain ⟨C, hC, hT⟩ := bind_eq_ok.mp hT
      cases hT
      exact .json hC
    | array e =>
      obtain ⟨E, hE, hT⟩ := bind_eq_ok.mp hT
      cases hT
      exact .array hE
    | nominal n d => cases hT; exact .nominal n d
    | function ps rs =>
      obtain ⟨Ps, hP, hT⟩ := bind_eq_ok.mp hT
      obtain ⟨Rs, hR, hT⟩ := bind_eq_ok.mp hT
      cases hT
      exact .function (mapM_eq_ok.mp hP) (mapM_eq_ok.mp hR)
  · intro ho
    cases ho with
    | basic | nominal => rfl
    | json hc => exact bind_eq_ok.mpr ⟨_, hc, rfl⟩
    | array he => exact bind_eq_ok.mpr ⟨_, he, rfl⟩
    | function hp hr =>
      exact bind_eq_ok.mpr ⟨_, mapM_eq_ok.mpr hp, bind_eq_ok.mpr ⟨_, mapM_eq_ok.mpr hr, rfl⟩⟩

theorem unfoldWithin_mono {n m : Nat} (hnm : n ≤ m) (hT : t.unfoldWithin n h = .ok T) :
    t.unfoldWithin m h = .ok T := by
  induction n generalizing m h T with
  | zero => cases hT
  | succ n ih =>
    obtain ⟨m, rfl⟩ : ∃ k, m = k + 1 := ⟨m - 1, by omega⟩
    obtain ⟨s, hs, ho⟩ := unfoldWithin_succ.mp hT
    exact unfoldWithin_succ.mpr ⟨s, hs, ho.mono fun _ _ => ih (by omega)⟩

theorem unfold_inv (hT : t.unfold h = .ok T) : ∃ s, t.shape h = .ok s ∧ Opens t.unfold s T := by
  obtain ⟨s, hs, ho⟩ := unfoldWithin_succ.mp hT
  exact ⟨s, hs, ho.mono fun _ _ => unfoldWithin_mono (Nat.le_succ _)⟩

private theorem exists_forall₂ {xs : List Handle} (h : ∀ x ∈ xs, ∃ T, sub x = .ok T) :
    ∃ Ts, List.Forall₂ (fun x T => sub x = .ok T) xs Ts := by
  induction xs with
  | nil => exact ⟨[], .nil⟩
  | cons x xs ih =>
    obtain ⟨T, hT⟩ := h x List.mem_cons_self
    obtain ⟨Ts, hTs⟩ := ih fun x hx => h x (List.mem_cons_of_mem _ hx)
    exact ⟨T :: Ts, .cons hT hTs⟩

theorem exists_opens (h : ∀ c ∈ s.components, ∃ T, sub c = .ok T) : ∃ T, Opens sub s T := by
  cases s with
  | basic b => exact ⟨_, .basic b⟩
  | json c =>
    obtain ⟨C, hC⟩ := h c (by simp [Shape.components])
    exact ⟨_, .json hC⟩
  | array e =>
    obtain ⟨E, hE⟩ := h e (by simp [Shape.components])
    exact ⟨_, .array hE⟩
  | nominal n d => exact ⟨_, .nominal n d⟩
  | function ps rs =>
    obtain ⟨Ps, hP⟩ := exists_forall₂ fun p hp => h p (List.mem_append_left _ hp)
    obtain ⟨Rs, hR⟩ := exists_forall₂ fun r hr => h r (List.mem_append_right _ hr)
    exact ⟨_, .function hP hR⟩

theorem shape_of_getElem? {i : Nat} (h : t.slots[i]? = some s) : t.shape ⟨i⟩ = .ok s := by
  simp [shape, h]

theorem exists_shape (hh : t.Has h) : ∃ s, t.slots[h.index]? = some s ∧ t.shape h = .ok s :=
  ⟨_, Array.getElem?_eq_getElem hh, shape_of_getElem? (Array.getElem?_eq_getElem hh)⟩

/-- No type takes more layers than there are slots up to its own. -/
theorem layered_unfoldWithin (ht : Layered t) (i : Nat) (hi : t.Has ⟨i⟩) :
    ∃ T, t.unfoldWithin (i + 1) ⟨i⟩ = .ok T := by
  induction i using Nat.strongRecOn with
  | ind i ih =>
    obtain ⟨s, hs, hshape⟩ := exists_shape hi
    have parts : ∀ c ∈ s.components, ∃ C, t.unfoldWithin i c = .ok C := by
      intro c hc
      by_cases hb : Handle.builtinCount ≤ i
      · have hlt := ht.earlier i s hs hb c hc
        obtain ⟨C, hC⟩ := ih c.index hlt (Nat.lt_trans hlt hi)
        exact ⟨C, unfoldWithin_mono hlt hC⟩
      · -- Among the built-in types only `json` has a component, and it lies ahead.
        have ahead : ∀ p ∈ Shape.builtins.zipIdx, ∀ c ∈ p.1.components,
            0 < p.2 ∧ c = Basic.none.handle := by decide
        have hlt : i < Shape.builtins.length := Nat.lt_of_not_le hb
        have hbi := ht.builtins i _ (List.getElem?_eq_getElem hlt)
        obtain rfl : s = Shape.builtins[i] := Option.some.inj (hs.symm.trans hbi)
        obtain ⟨hpos, rfl⟩ := ahead (Shape.builtins[i], i)
          (List.mem_zipIdx_iff_getElem?.mpr (List.getElem?_eq_getElem hlt)) c hc
        have hnone : t.unfoldWithin 1 Basic.none.handle = .ok (.basic .none) :=
          unfoldWithin_succ.mpr ⟨_, shape_of_getElem? (ht.builtins 12 _ rfl), .basic _⟩
        exact ⟨_, unfoldWithin_mono hpos hnone⟩
    obtain ⟨T, hT⟩ := exists_opens parts
    exact ⟨T, unfoldWithin_succ.mpr ⟨s, hshape, hT⟩⟩

theorem layered_unfold (ht : Layered t) (hh : t.Has h) : ∃ T, t.unfold h = .ok T := by
  obtain ⟨T, hT⟩ := layered_unfoldWithin ht h.index hh
  exact ⟨T, unfoldWithin_mono (Nat.succ_le_succ (Nat.le_of_lt hh)) hT⟩

theorem allPairs_decides {p : Handle → Handle → Except Fault Bool} {as bs : List Handle}
    {As Bs : List Tree} (ha : List.Forall₂ (fun a A => sub a = .ok A) as As)
    (hb : List.Forall₂ (fun b B => sub b = .ok B) bs Bs) (hlen : as.length = bs.length)
    (hp : ∀ {a b A B}, sub a = .ok A → sub b = .ok B → Decides (p a b) (A = B)) :
    Decides (allPairs p as bs) (As = Bs) := by
  induction ha generalizing bs Bs with
  | nil =>
    obtain rfl := List.eq_nil_of_length_eq_zero hlen.symm
    cases hb
    exact .of_true rfl rfl
  | @cons a A as As hA _ ih =>
    cases hb with
    | nil => cases hlen
    | @cons b B bs Bs hB hb =>
      exact ((hp hA hB).and (ih hb (Nat.succ.inj hlen))).congr (by simp)

theorem allMatch_decides {p : Handle → Handle → Except Fault Bool} {as bs : List Handle}
    {As Bs : List Tree} (ha : List.Forall₂ (fun a A => sub a = .ok A) as As)
    (hb : List.Forall₂ (fun b B => sub b = .ok B) bs Bs)
    (hp : ∀ {a b A B}, sub a = .ok A → sub b = .ok B → Decides (p a b) (A = B)) :
    Decides (allMatch p as bs) (As = Bs) := by
  unfold allMatch
  by_cases hlen : as.length = bs.length
  · rw [if_pos hlen]
    exact allPairs_decides ha hb hlen hp
  · rw [if_neg hlen]
    refine .of_false rfl fun h => hlen ?_
    rw [ha.length_eq, hb.length_eq, h]

theorem identicalWithin_decides {n m : Nat} (hnm : n ≤ m) (ha : t.unfoldWithin n a = .ok A)
    (hb : t.unfoldWithin n b = .ok B) : Decides (t.identicalWithin m a b) (A = B) := by
  induction n generalizing m a b A B with
  | zero => cases ha
  | succ n ih =>
    obtain ⟨m, rfl⟩ : ∃ k, m = k + 1 := ⟨m - 1, by omega⟩
    by_cases hab : a = b
    · subst hab
      exact .of_true (by simp [identicalWithin])
        (Except.ok.inj (ha.symm.trans hb))
    · obtain ⟨sa, hsa, hoa⟩ := unfoldWithin_succ.mp ha
      obtain ⟨sb, hsb, hob⟩ := unfoldWithin_succ.mp hb
      have walk : ∀ {a b A B}, t.unfoldWithin n a = .ok A → t.unfoldWithin n b = .ok B →
          Decides (t.identicalWithin m a b) (A = B) := ih (by omega)
      rw [identicalWithin, if_neg hab, hsa, hsb]
      -- Only shapes of one kind go on; all others differ at once.
      cases hoa with
      | basic c =>
        cases hob with
        | basic d => exact ⟨_, rfl, by simp⟩
        | _ => exact .of_false rfl (by simp)
      | json hc =>
        cases hob with
        | json hd => exact (walk hc hd).congr (by simp)
        | _ => exact .of_false rfl (by simp)
      | array hc =>
        cases hob with
        | array hd => exact (walk hc hd).congr (by simp)
        | _ => exact .of_false rfl (by simp)
      | nominal c d =>
        cases hob with
        | nominal c' d' => exact ⟨_, rfl, by simp⟩
        | _ => exact .of_false rfl (by simp)
      | function hp hr =>
        cases hob with
        | function hp' hr' =>
          have hparams := allMatch_decides hp hp' walk
          have hrets := allMatch_decides hr hr' walk
          exact (hparams.and hrets).congr (by simp)
        | _ => exact .of_false rfl (by simp)

theorem walkBudget_le_pairBudget : t.walkBudget ≤ t.pairBudget := by
  have := Nat.le_mul_self t.slots.size
  unfold walkBudget pairBudget
  omega

theorem identical_decides (ha : t.unfold a = .ok A) (hb : t.unfold b = .ok B) :
    Decides (t.identical a b) (A = B) :=
  identicalWithin_decides walkBudget_le_pairBudget ha hb

theorem identical_iff_unfold (ht : Layered t) (ha : t.Has a) (hb : t.Has b) :
    t.identical a b = .ok true ↔ t.unfold a = t.unfold b := by
  obtain ⟨A, hA⟩ := layered_unfold ht ha
  obtain ⟨B, hB⟩ := layered_unfold ht hb
  rw [(identical_decides hA hB).eq_true_iff, hA, hB, Except.ok.injEq]

/-- Whatever declarations the shapes refer to, the comparison ends, and two types are identical
exactly if they unfold to the same tree. -/
theorem identity_is_tree_equality (ht : Growth (fun t op => op.HandlesIn t) initial t) :
    (∀ a b, t.Has a → t.Has b → ∃ A B, t.unfold a = .ok A ∧ t.unfold b = .ok B ∧
      Decides (t.identical a b) (A = B)) ∧
    Equivalence fun a b : { h // t.Has h } => t.identical a b = .ok true := by
  have layered := growth_preserves_layered ht initial_layered
  constructor
  · intro a b ha hb
    obtain ⟨A, hA⟩ := layered_unfold layered ha
    obtain ⟨B, hB⟩ := layered_unfold layered hb
    exact ⟨A, B, hA, hB, identical_decides hA hB⟩
  · have same : ∀ a b : { h // t.Has h },
        t.identical a b = .ok true ↔ t.unfold a = t.unfold b :=
      fun a b => identical_iff_unfold layered a.2 b.2
    constructor
    · exact fun a => (same a a).mpr rfl
    · exact fun {a b} h => (same b a).mpr ((same a b).mp h).symm
    · exact fun {a b c} h k => (same a c).mpr (((same a b).mp h).trans ((same b c).mp k))

def jsonCopies : TypeTable := initial.grow [.alloc (.json ⟨12⟩), .array ⟨14⟩, .array ⟨8⟩]

theorem jsonCopies_unfold_alike :
    ∃ A, jsonCopies.unfold ⟨15⟩ = .ok A ∧ jsonCopies.unfold ⟨16⟩ = .ok A := by
  have ht : Growth (fun t op => op.HandlesIn t) initial jsonCopies :=
    (reachable_grow .refl _).mono fun _ _ hw => hw.1
  obtain ⟨A, B, hA, hB, hd⟩ :=
    (identity_is_tree_equality ht).1 ⟨15⟩ ⟨16⟩ (by decide) (by decide)
  obtain rfl := hd.eq_true_iff.mp (by decide +kernel)
  exact ⟨A, hA, hB⟩

end TypeTable

end TypeConformance
