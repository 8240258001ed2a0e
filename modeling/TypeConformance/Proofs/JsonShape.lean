import Mathlib.Order.FixedPoints
import TypeConformance.Conformance
import TypeConformance.Proofs.Decision

/-! # What makes a struct fit for JSON

A struct is unfit if a bad field can be reached from it. This is the greatest solution of the
plain recursion over fields, which keeps no record of the structs it has visited.
-/
namespace TypeConformance

namespace TypeTable

variable (t : TypeTable) (r : Registry) (use : JsonUse)

def GoesIntoJson (h : Handle) : Prop :=
  t.isAssignable h Handle.json = .ok true ∨ t.castsImplicitly r h Handle.json = .ok true

/-- The part of a field that decides about it: an array counts by its base, unless it goes into
`json` as a whole. -/
inductive JudgedBy : Handle → Handle → Prop where
  | self {h kind} : t.kind h = .ok kind → kind ≠ .array → JudgedBy h h
  | base {h b} : t.kind h = .ok .array → ¬(use = .constraint ∧ t.GoesIntoJson r h) →
      t.elementType h = .ok b → JudgedBy h b

structure BadPart (owner part : Handle) : Prop where
  foreign : t.identical owner part = .ok false
  reference : t.isValue part = .ok false
  notStruct : t.kind part ≠ .ok (.nominal .struct)
  closed : use = .conversion → t.kind part ≠ .ok (.basic .map) ∧ t.kind part ≠ .ok (.basic .any)
  notJson : ¬t.GoesIntoJson r part

def BadField (owner field : Handle) : Prop :=
  ∃ part, t.JudgedBy r use field part ∧ t.BadPart r use owner part

def HasBadField (s : Handle) : Prop :=
  ∃ fields, t.structFields s = .ok fields ∧ ∃ f ∈ fields, t.BadField r use s f.type

def LeadsTo (s s' : Handle) : Prop :=
  t.kind s' = .ok (.nominal .struct) ∧
    ∃ fields, t.structFields s = .ok fields ∧ ∃ f ∈ fields, t.JudgedBy r use f.type s'

/-- A struct from which no bad field can be reached. -/
def Sane (h : Handle) : Prop :=
  t.kind h = .ok (.nominal .struct) ∧
    ∀ s, Relation.ReflTransGen (t.LeadsTo r use) h s → ¬t.HasBadField r use s

/-- The rule for a field, read as a plain recursion over structs that are `good`. -/
inductive FieldHolds (good : Handle → Prop) (owner : Handle) : Handle → Prop where
  | same {h} : t.identical owner h = .ok true → FieldHolds good owner h
  | value {h} : t.isValue h = .ok true → FieldHolds good owner h
  | tested {h} : use = .conversion → t.kind h = .ok (.basic .map) ∨ t.kind h = .ok (.basic .any) →
      FieldHolds good owner h
  | struct {h} : t.kind h = .ok (.nominal .struct) → good h → FieldHolds good owner h
  | whole {h} : use = .constraint → t.kind h = .ok .array → t.GoesIntoJson r h →
      FieldHolds good owner h
  | elements {h b} : t.kind h = .ok .array → t.elementType h = .ok b →
      FieldHolds good owner b → FieldHolds good owner h
  | json {h kind} : t.kind h = .ok kind → kind ≠ .nominal .struct → kind ≠ .array →
      t.GoesIntoJson r h → FieldHolds good owner h

/-- No reason against the field is known: it is not bad, and a struct that it leads to is the
owner again or was seen. -/
def FieldSettled (seen : Handle → Prop) (owner field : Handle) : Prop :=
  ¬t.BadField r use owner field ∧
    ∀ s, t.JudgedBy r use field s → t.kind s = .ok (.nominal .struct) →
      t.unfold owner = t.unfold s ∨ seen s

def Settled (seen : Handle → Prop) (s : Handle) : Prop :=
  ∀ fields, t.structFields s = .ok fields → ∀ f ∈ fields, t.FieldSettled r use seen s f.type

def BadBelow (h : Handle) : Prop :=
  ∃ s, Relation.ReflTransGen (t.LeadsTo r use) h s ∧ t.HasBadField r use s

def FieldFails (owner field : Handle) : Prop :=
  t.BadField r use owner field ∨ ∃ s, t.JudgedBy r use field s ∧
    t.kind s = .ok (.nominal .struct) ∧ t.BadBelow r use s

variable {t r use} {a b h owner field part : Handle} {O F T : Tree} {seen seen' : Handle → Prop}

theorem FieldHolds.mono {good good' : Handle → Prop} (hle : good ≤ good')
    (hf : t.FieldHolds r use good owner field) : t.FieldHolds r use good' owner field := by
  induction hf with
  | same h => exact .same h
  | value h => exact .value h
  | tested huse h => exact .tested huse h
  | struct hk h => exact .struct hk (hle _ h)
  | whole huse hk h => exact .whole huse hk h
  | elements hk he _ ih => exact .elements hk he ih
  | json hk hs ha h => exact .json hk hs ha h

/-- One unfolding of the check that keeps no record of what it has visited. -/
def unguarded (t : TypeTable) (r : Registry) (use : JsonUse) :
    (Handle → Prop) →o (Handle → Prop) where
  toFun good h := t.kind h = .ok (.nominal .struct) ∧ ∃ fields, t.structFields h = .ok fields ∧
    ∀ f ∈ fields, t.FieldHolds r use good h f.type
  monotone' := by
    rintro good good' hle h ⟨hk, fields, hfields, hall⟩
    exact ⟨hk, fields, hfields, fun f hf => (hall f hf).mono hle⟩

theorem fitsJson_decides (ht : Layered t) (hT : t.unfold h = .ok T) :
    Decides (t.fitsJson r h) (t.GoesIntoJson r h) := by
  obtain ⟨J, hJ⟩ := layered_unfold ht (builtin_has (h := Handle.json) ht rfl)
  refine .or ⟨_, isAssignable_eq hT hJ, ?_⟩ ⟨_, castsImplicitly_eq ht r hT hJ, ?_⟩
  · simp [isAssignable_eq hT hJ]
  · simp [castsImplicitly_eq ht r hT hJ]

theorem judgedBy_unique (ha : t.JudgedBy r use field a) (hb : t.JudgedBy r use field b) :
    a = b := by
  cases ha with
  | self hk hne =>
    cases hb with
    | self => rfl
    | base hk' => exact absurd (Except.ok.inj (hk.symm.trans hk')) hne
  | base hk _ he =>
    cases hb with
    | self hk' hne => exact absurd (Except.ok.inj (hk'.symm.trans hk)) hne
    | base _ _ he' => exact Except.ok.inj (he.symm.trans he')

theorem judgedBy_unfold (hF : t.unfold field = .ok F) (hp : t.JudgedBy r use field part) :
    t.unfold part = .ok F.base := by
  cases hp with
  | self hk hne =>
    have hF' : F.base = F := by
      have := kind_eq hF
      rw [hk] at this
      cases F with
      | array => exact absurd (Except.ok.inj this) hne
      | _ => rfl
    rw [hF', hF]
  | base _ _ he =>
    obtain ⟨b, hb, hB⟩ := elementType_eq hF
    cases he.symm.trans hb
    exact hB

theorem FieldSettled.mono (hle : ∀ s, seen s → seen' s)
    (hf : t.FieldSettled r use seen owner field) : t.FieldSettled r use seen' owner field :=
  ⟨hf.1, fun s hs hk => (hf.2 s hs hk).imp_right (hle s)⟩

theorem Settled.mono (hle : ∀ s, seen s → seen' s) (hs : t.Settled r use seen h) :
    t.Settled r use seen' h := by
  intro fields hfields f hf
  exact (hs fields hfields f hf).mono hle

theorem fieldSettled_of_part (hp : t.JudgedBy r use field part)
    (hgood : ¬t.BadPart r use owner part)
    (hstruct : t.kind part = .ok (.nominal .struct) → t.unfold owner = t.unfold part ∨ seen part) :
    t.FieldSettled r use seen owner field := by
  constructor
  · rintro ⟨q, hq, hbad⟩
    exact hgood (judgedBy_unique hp hq ▸ hbad)
  · intro s hs
    exact judgedBy_unique hp hs ▸ hstruct

theorem fieldSettled_of_whole (hk : t.kind field = .ok .array)
    (hwhole : use = .constraint ∧ t.GoesIntoJson r field) :
    t.FieldSettled r use seen owner field := by
  have hnone (p : Handle) : ¬t.JudgedBy r use field p := by
    rintro (⟨hk', hne⟩ | ⟨_, hnot, _⟩)
    · exact hne (Except.ok.inj (hk'.symm.trans hk))
    · exact hnot hwhole
  constructor
  · rintro ⟨p, hp, _⟩
    exact hnone p hp
  · intro s hs
    exact absurd hs (hnone s)

inductive Judged (t : TypeTable) (r : Registry) (use : JsonUse) (owner field : Handle) :
    FieldVerdict → Prop where
  | fit : t.FieldSettled r use (fun _ => False) owner field → Judged t r use owner field .fit
  | unfit : t.BadField r use owner field → Judged t r use owner field .unfit
  | fitIf {s} : t.JudgedBy r use field s → t.kind s = .ok (.nominal .struct) →
      t.FieldSettled r use (· = s) owner field → Judged t r use owner field (.fitIf s)

theorem accepts_iff {kind : Kind} : use.accepts kind = true ↔
    use = .conversion ∧ (kind = .basic .map ∨ kind = .basic .any) := by
  cases use <;> rcases kind with (_ | _) | _ | _ | _ | _ <;> simp [JsonUse.accepts]

theorem baseVerdict_judged (ht : Layered t) (hO : t.unfold owner = .ok O)
    (hT : t.unfold part = .ok T) (hp : t.JudgedBy r use field part) :
    ∃ v, t.baseVerdict r use owner part = .ok v ∧ Judged t r use owner field v := by
  have hsame := identical_eq hO hT
  have hk := kind_eq hT
  have hv := isValue_eq hT
  by_cases hOT : O = T
  · refine ⟨.fit, by simp [baseVerdict, hsame, hOT],
      .fit (fieldSettled_of_part hp (fun hbad => ?_) fun _ => .inl ?_)⟩
    · simpa [hsame, hOT] using hbad.foreign
    · rw [hO, hT, hOT]
  by_cases hacc : T.kind.isValue = true ∨ use.accepts T.kind = true
  · refine ⟨.fit, by simp [baseVerdict, hsame, hOT, hk, hacc],
      .fit (fieldSettled_of_part hp (fun hbad => ?_) fun hs => ?_)⟩
    · rcases hacc with hval | hacc
      · simpa [hv, hval] using hbad.reference
      · obtain ⟨huse, hmap | hany⟩ := accepts_iff.mp hacc
        · exact (hbad.closed huse).1 (hk.trans (congrArg _ hmap))
        · exact (hbad.closed huse).2 (hk.trans (congrArg _ hany))
    · rw [Except.ok.inj (hk.symm.trans hs)] at hacc
      simp [accepts_iff, Kind.isValue] at hacc
  by_cases hst : T.kind = .nominal .struct
  · rw [hst] at hk hacc
    refine ⟨.fitIf part, by simp [baseVerdict, hsame, hOT, hk, hacc], .fitIf hp hk ?_⟩
    exact fieldSettled_of_part hp (fun hbad => hbad.notStruct hk) fun _ => .inr rfl
  obtain ⟨b, hb, hiff⟩ := fitsJson_decides (r := r) ht hT
  refine ⟨.ofBool b, by simp [baseVerdict, hsame, hOT, hk, hacc, hst, hb], ?_⟩
  cases b with
  | true =>
    exact .fit (fieldSettled_of_part hp (fun hbad => hbad.notJson (hiff.mp rfl))
      fun hs => absurd (Except.ok.inj (hk.symm.trans hs)) hst)
  | false =>
    refine .unfit ⟨part, hp, ⟨by simp [hsame, hOT], ?_, by simp [hk, hst], ?_, by simp [← hiff]⟩⟩
    · rw [hv, Bool.eq_false_iff.mpr fun hval => hacc (.inl hval)]
    · intro huse
      rw [hk]
      constructor
      · intro hmap
        exact hacc (.inr (accepts_iff.mpr ⟨huse, .inl (Except.ok.inj hmap)⟩))
      · intro hany
        exact hacc (.inr (accepts_iff.mpr ⟨huse, .inr (Except.ok.inj hany)⟩))

theorem fieldVerdict_judged (ht : Layered t) (hO : t.unfold owner = .ok O)
    (hF : t.unfold field = .ok F) :
    ∃ v, t.fieldVerdict r use owner field = .ok v ∧ Judged t r use owner field v := by
  have hk := kind_eq hF
  by_cases harr : F.kind = .array
  · rw [harr] at hk
    obtain ⟨b, hb, hB⟩ := elementType_eq hF
    obtain ⟨w, hw, hiff⟩ := fitsJson_decides (r := r) ht hF
    by_cases hwhole : use = .constraint ∧ t.GoesIntoJson r field
    · refine ⟨.fit, ?_, .fit (fieldSettled_of_whole hk hwhole)⟩
      obtain ⟨rfl, hjson⟩ := hwhole
      simp [fieldVerdict, hk, hb, hw, hiff.mpr hjson]
    · obtain ⟨v, hv, hj⟩ := baseVerdict_judged ht hO hB (.base hk hwhole hb)
      refine ⟨v, ?_, hj⟩
      cases use with
      | constraint =>
        have : w = false := by
          rw [Bool.eq_false_iff]
          exact fun hwt => hwhole ⟨rfl, hiff.mp hwt⟩
        simp [fieldVerdict, hk, hb, hw, this, hv]
      | conversion => simp [fieldVerdict, hk, hb, hv]
  · have hself : t.JudgedBy r use field field := .self hk harr
    obtain ⟨v, hv, hj⟩ := baseVerdict_judged ht hO hF hself
    exact ⟨v, by simp [fieldVerdict, hk, harr, hv], hj⟩

/-! Identical structs have the same fields, so they share what is reached from them. -/

theorem badField_congr (ha : t.unfold a = .ok O) (hb : t.unfold b = .ok O)
    (hF : t.unfold field = .ok F) (hbad : t.BadField r use a field) :
    t.BadField r use b field := by
  obtain ⟨part, hp, hbad⟩ := hbad
  have hP := judgedBy_unfold hF hp
  have hforeign := hbad.foreign
  rw [identical_eq ha hP] at hforeign
  exact ⟨part, hp, { hbad with foreign := (identical_eq hb hP).trans hforeign }⟩

theorem hasBadField_congr (ht : Layered t) (hc : Closed t) (ha : t.unfold a = .ok O)
    (hb : t.unfold b = .ok O) (hbad : t.HasBadField r use a) : t.HasBadField r use b := by
  obtain ⟨fields, hfields, f, hf, hbad⟩ := hbad
  obtain ⟨F, hF⟩ := field_unfold ht hc ha hfields hf
  exact ⟨fields, structFields_congr ha hb ▸ hfields, f, hf, badField_congr ha hb hF hbad⟩

theorem leadsTo_congr (ha : t.unfold a = .ok O) (hb : t.unfold b = .ok O)
    (hs : t.LeadsTo r use a h) : t.LeadsTo r use b h := by
  obtain ⟨hk, fields, hfields, hf⟩ := hs
  exact ⟨hk, fields, structFields_congr ha hb ▸ hfields, hf⟩

theorem leadsTo_has (ht : Layered t) (hc : Closed t) (ha : t.unfold a = .ok O)
    (hs : t.LeadsTo r use a h) : t.Has h := by
  obtain ⟨_, fields, hfields, f, hf, hj⟩ := hs
  obtain ⟨F, hF⟩ := field_unfold ht hc ha hfields hf
  exact has_of_unfold (judgedBy_unfold hF hj)

/-- A set of settled structs that leads only into itself, up to identity, holds everything
reached from it. -/
theorem settled_reaches (ht : Layered t) (hc : Closed t)
    (hset : ∀ s, seen s → t.Has s ∧ t.Settled r use seen s) (hh : seen h) {s : Handle}
    (hreach : Relation.ReflTransGen (t.LeadsTo r use) h s) :
    ∃ c C, seen c ∧ t.unfold c = .ok C ∧ t.unfold s = .ok C := by
  induction hreach with
  | refl =>
    obtain ⟨T, hT⟩ := layered_unfold ht (hset h hh).1
    exact ⟨h, T, hh, hT, hT⟩
  | @tail s s' _ hlead ih =>
    obtain ⟨c, C, hseen, hC, hS⟩ := ih
    obtain ⟨S', hS'⟩ := layered_unfold ht (leadsTo_has ht hc hS hlead)
    obtain ⟨hk, fields, hfields, f, hf, hj⟩ := leadsTo_congr hS hC hlead
    rcases ((hset c hseen).2 fields hfields f hf).2 s' hj hk with hsame | hseen'
    · exact ⟨c, C, hseen, hC, hsame ▸ hC⟩
    · exact ⟨s', S', hseen', hS', hS'⟩

theorem settled_not_bad (ht : Layered t) (hc : Closed t)
    (hset : ∀ s, seen s → t.Has s ∧ t.Settled r use seen s) (hh : seen h) :
    ¬t.BadBelow r use h := by
  rintro ⟨s, hreach, hbad⟩
  obtain ⟨c, C, hseen, hC, hS⟩ := settled_reaches ht hc hset hh hreach
  obtain ⟨fields, hfields, f, hf, hbad⟩ := hasBadField_congr ht hc hS hC hbad
  exact ((hset c hseen).2 fields hfields f hf).1 hbad

theorem fieldHolds_settled {good : Handle → Prop} (hO : t.unfold owner = .ok O)
    (hne : O.kind ≠ .array) (hF : t.unfold field = .ok F)
    (hf : t.FieldHolds r use good owner field) : t.FieldSettled r use good owner field := by
  induction hf generalizing F with
  | same hsame =>
    obtain rfl : O = F := by simpa [identical_eq hO hF] using hsame
    refine fieldSettled_of_part (.self (kind_eq hF) hne) (fun hbad => ?_) fun _ => .inl ?_
    · cases hsame.symm.trans hbad.foreign
    · exact hO.trans hF.symm
  | @value h hval =>
    have hval' : F.kind.isValue = true := Except.ok.inj ((isValue_eq hF).symm.trans hval)
    refine fieldSettled_of_part (.self (kind_eq hF) ?_) (fun hbad => ?_) fun hs => ?_
    · intro harr
      simp [harr, Kind.isValue] at hval'
    · cases hval.symm.trans hbad.reference
    · rw [Except.ok.inj ((kind_eq hF).symm.trans hs)] at hval'
      simp [Kind.isValue] at hval'
  | tested huse hk =>
    rcases hk with hk | hk
    · exact fieldSettled_of_part (.self hk (by simp)) (fun hbad => (hbad.closed huse).1 hk)
        (by simp [hk])
    · exact fieldSettled_of_part (.self hk (by simp)) (fun hbad => (hbad.closed huse).2 hk)
        (by simp [hk])
  | struct hk hgood =>
    exact fieldSettled_of_part (.self hk (by simp)) (fun hbad => hbad.notStruct hk)
      fun _ => .inr hgood
  | whole huse hk hjson => exact fieldSettled_of_whole hk ⟨huse, hjson⟩
  | @elements h b hk he _ ih =>
    obtain ⟨b', he', hB⟩ := elementType_eq hF
    cases he.symm.trans he'
    obtain ⟨hgood, hlead⟩ := ih hB
    have hself : t.JudgedBy r use b b := .self (kind_eq hB) F.base_kind_ne_array
    by_cases hwhole : use = .constraint ∧ t.GoesIntoJson r h
    · exact fieldSettled_of_whole hk hwhole
    · exact fieldSettled_of_part (.base hk hwhole he) (fun hbad => hgood ⟨b, hself, hbad⟩)
        (hlead b hself)
  | json hk hst harr hjson =>
    exact fieldSettled_of_part (.self hk harr) (fun hbad => hbad.notJson hjson)
      fun hs => absurd (Except.ok.inj (hk.symm.trans hs)) hst

theorem part_holds {good : Handle → Prop} (hO : t.unfold owner = .ok O)
    (hT : t.unfold part = .ok T) (harr : T.kind ≠ .array) (hgood : ¬t.BadPart r use owner part)
    (hstruct : t.kind part = .ok (.nominal .struct) → t.unfold owner = t.unfold part ∨ good part) :
    t.FieldHolds r use good owner part := by
  have hk := kind_eq hT
  have hsame := identical_eq hO hT
  by_cases hOT : O = T
  · exact .same (by simp [hsame, hOT])
  by_cases hst : T.kind = .nominal .struct
  · rw [hst] at hk
    rcases hstruct hk with heq | hgood
    · exact absurd (Except.ok.inj (hO.symm.trans (heq.trans hT))) hOT
    · exact .struct hk hgood
  by_contra hnot
  refine hgood ⟨by simp [hsame, hOT], ?_, by simp [hk, hst], ?_, ?_⟩
  · rw [isValue_eq hT, Except.ok.injEq, Bool.eq_false_iff]
    intro hval
    exact hnot (.value (by rw [isValue_eq hT, hval]))
  · intro huse
    constructor
    · intro hmap
      exact hnot (.tested huse (.inl hmap))
    · intro hany
      exact hnot (.tested huse (.inr hany))
  · intro hjson
    exact hnot (.json hk hst harr hjson)

theorem settled_fieldHolds {good : Handle → Prop} (hO : t.unfold owner = .ok O)
    (hF : t.unfold field = .ok F) (hf : t.FieldSettled r use good owner field) :
    t.FieldHolds r use good owner field := by
  have hk := kind_eq hF
  have holds {p : Handle} (hp : t.JudgedBy r use field p) : t.FieldHolds r use good owner p :=
    part_holds hO (judgedBy_unfold hF hp) F.base_kind_ne_array (fun hbad => hf.1 ⟨p, hp, hbad⟩)
      (hf.2 p hp)
  by_cases harr : F.kind = .array
  · rw [harr] at hk
    obtain ⟨b, hb, _⟩ := elementType_eq hF
    by_cases hwhole : use = .constraint ∧ t.GoesIntoJson r field
    · exact .whole hwhole.1 hk hwhole.2
    · exact .elements hk hb (holds (.base hk hwhole hb))
  · exact holds (.self hk harr)

theorem unguarded_iff (ht : Layered t) (hc : Closed t) (good : Handle → Prop) :
    t.unguarded r use good h ↔
      t.kind h = .ok (.nominal .struct) ∧ t.Has h ∧ t.Settled r use good h := by
  constructor
  · rintro ⟨hk, fields, hfields, hall⟩
    obtain ⟨T, hT⟩ := layered_unfold ht (has_of_kind hk)
    have hkind : T.kind = .nominal .struct := Except.ok.inj ((kind_eq hT).symm.trans hk)
    refine ⟨hk, has_of_kind hk, ?_⟩
    intro fields' hfields' f hf
    cases hfields.symm.trans hfields'
    obtain ⟨F, hF⟩ := field_unfold ht hc hT hfields hf
    exact fieldHolds_settled hT (by simp [hkind]) hF (hall f hf)
  · rintro ⟨hk, hh, hset⟩
    obtain ⟨T, hT⟩ := layered_unfold ht hh
    obtain ⟨fields, hfields, hhas⟩ := closed_structFields hc hT
    refine ⟨hk, fields, hfields, ?_⟩
    intro f hf
    obtain ⟨F, hF⟩ := layered_unfold ht (hhas f hf)
    exact settled_fieldHolds hT hF (hset fields hfields f hf)

theorem sane_settled (hs : t.Sane r use h) : t.Settled r use (t.Sane r use) h := by
  obtain ⟨hk, hgood⟩ := hs
  intro fields hfields f hf
  constructor
  · intro hbad
    exact hgood h .refl ⟨fields, hfields, f, hf, hbad⟩
  · intro s' hs' hk'
    refine .inr ⟨hk', ?_⟩
    intro u hu
    exact hgood u (.head ⟨hk', fields, hfields, f, hf, hs'⟩ hu)

theorem sane_iff_gfp (ht : Layered t) (hc : Closed t) :
    t.Sane r use h ↔ (t.unguarded r use).gfp h := by
  constructor
  · have hpost : t.Sane r use ≤ t.unguarded r use (t.Sane r use) := by
      intro s hs
      exact (unguarded_iff ht hc _).mpr ⟨hs.1, has_of_kind hs.1, sane_settled hs⟩
    intro hsane
    exact (t.unguarded r use).le_gfp hpost h hsane
  · intro hgfp
    have hset (s : Handle) (hs : (t.unguarded r use).gfp s) :
        t.kind s = .ok (.nominal .struct) ∧ t.Has s ∧ t.Settled r use (t.unguarded r use).gfp s := by
      rw [← (t.unguarded r use).map_gfp] at hs
      exact (unguarded_iff ht hc _).mp hs
    refine ⟨(hset h hgfp).1, ?_⟩
    intro s hreach hbad
    exact settled_not_bad ht hc (fun s hs => (hset s hs).2) hgfp ⟨s, hreach, hbad⟩

/-- A struct is as sane as the structs that its fields lead to. -/
theorem sane_iff_settled (ht : Layered t) (hc : Closed t) :
    t.Sane r use h ↔
      t.kind h = .ok (.nominal .struct) ∧ t.Settled r use (t.Sane r use) h := by
  constructor
  · intro hs
    exact ⟨hs.1, sane_settled hs⟩
  · rintro ⟨hk, hset⟩
    have hle : t.Sane r use ≤ (t.unguarded r use).gfp := fun s => (sane_iff_gfp ht hc).mp
    have hstep := (unguarded_iff ht hc _).mpr ⟨hk, has_of_kind hk, hset⟩
    exact (sane_iff_gfp ht hc).mpr ((t.unguarded r use).map_le_gfp hle h hstep)

end TypeTable

end TypeConformance
