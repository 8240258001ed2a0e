import TypeConformance.Operator
import TypeConformance.Proofs.Totality

/-! # Operators that are found

For each kind and pair of types the registry keeps what was registered last. The operator found
for a cast or a conversion was made for the two types asked about, or it is what the registry
keeps for their canonical handles. Either way it goes between types identical to them, also where
it was found through the elements of an array.

A type is never converted to itself. A conversion that is made for its types may fail, whatever
the types are. A registered conversion is taken as it was registered: it is safe exactly if it
was registered as safe. So the conversions of a table are all unsafe if and only if no conversion
in force was registered otherwise, as is the case for the built-in ones.
-/
namespace TypeConformance

namespace Registry

/-- What was registered, the oldest first, to get from the empty registry or from the built-in
one to the registry. The built-in operators count as registered. -/
inductive Logged : Registry → List Operator → Prop where
  | fresh : Logged empty []
  | builtins : Logged builtin (implicitCasts ++ casts ++ conversions)
  | register {r log} (o : Operator) : Logged r log → Logged (r.register o) (log ++ [o])

/-- The operator was registered for the kind and the pair, and was not replaced since. -/
def Latest (log : List Operator) (kind : OperatorKind) (source target : Handle)
    (o : Operator) : Prop :=
  o.fits kind source target = true ∧ ∃ before after, log = before ++ o :: after ∧
    ∀ later ∈ after, later.fits kind source target = false

def Unregistered (log : List Operator) (kind : OperatorKind) (source target : Handle) : Prop :=
  ∀ o ∈ log, o.fits kind source target = false

/-- The registered operator that serves a question of the kind. A cast is served by an implicit
cast only if no cast was ever registered for the pair. -/
def Serving (log : List Operator) (kind : OperatorKind) (source target : Handle)
    (o : Operator) : Prop :=
  Latest log kind source target o ∨
    kind = .cast ∧ Unregistered log .cast source target ∧ Latest log .implicitCast source target o

variable {r : Registry} {log : List Operator} {kind : OperatorKind} {source target : Handle}
  {o : Operator}

theorem find?_registerAll (r : Registry) (os : List Operator) (kind : OperatorKind)
    (source target : Handle) :
    (r.registerAll os).find? kind source target =
      (os.reverse.find? fun o => o.fits kind source target).or (r.find? kind source target) := by
  induction os generalizing r with
  | nil => rfl
  | cons o os ih =>
    have hrest := ih (r.register o)
    rw [find?_register] at hrest
    rw [registerAll, List.foldl_cons, ← registerAll, hrest, List.reverse_cons, List.find?_append,
      Option.or_assoc]
    cases hfits : o.fits kind source target with
    | true => simp [hfits]
    | false => simp [hfits]

theorem Logged.eq_registerAll (hr : Logged r log) : r = empty.registerAll log := by
  induction hr with
  | fresh => rfl
  | builtins => rfl
  | register o _ ih =>
    rw [ih]
    simp [registerAll]

theorem Logged.find?_eq (hr : Logged r log) :
    r.find? kind source target = log.reverse.find? fun o => o.fits kind source target := by
  rw [hr.eq_registerAll, find?_registerAll]
  exact Option.or_none

theorem Logged.find?_eq_some (hr : Logged r log) :
    r.find? kind source target = some o ↔ Latest log kind source target o := by
  rw [hr.find?_eq, List.find?_eq_some_iff_append]
  apply and_congr_right
  intro _
  constructor
  · rintro ⟨newer, older, hlog, hnone⟩
    refine ⟨older.reverse, newer.reverse, ?_, by simpa using hnone⟩
    rw [← List.reverse_reverse log, hlog]
    simp
  · rintro ⟨before, after, rfl, hnone⟩
    exact ⟨after.reverse, before.reverse, by simp, by simpa using hnone⟩

theorem Logged.find?_eq_none (hr : Logged r log) :
    r.find? kind source target = none ↔ Unregistered log kind source target := by
  rw [hr.find?_eq, List.find?_eq_none]
  simp [Unregistered]

theorem Logged.resolve_eq_some (hr : Logged r log) :
    r.resolve kind source target = some o ↔ Serving log kind source target o := by
  cases kind with
  | cast =>
    simp [resolve, Serving, Option.or_eq_some_iff, hr.find?_eq_some, hr.find?_eq_none]
  | implicitCast => simp [resolve, Serving, hr.find?_eq_some]
  | conversion => simp [resolve, Serving, hr.find?_eq_some]

theorem Latest.spec (ho : Latest log kind source target o) :
    o ∈ log ∧ o.kind = kind ∧ o.source = source ∧ o.target = target := by
  obtain ⟨hfits, before, after, rfl, -⟩ := ho
  exact ⟨by simp, Operator.fits_iff.mp hfits⟩

theorem Serving.spec (ho : Serving log kind source target o) :
    (o.kind = kind ∨ kind = .cast ∧ o.kind = .implicitCast) ∧
      o.source = source ∧ o.target = target := by
  rcases ho with ho | ⟨hcast, -, ho⟩
  · exact ⟨.inl ho.spec.2.1, ho.spec.2.2⟩
  · exact ⟨.inr ⟨hcast, ho.spec.2.1⟩, ho.spec.2.2⟩

end Registry

namespace TypeTable

structure Serves (t : TypeTable) (log : List Operator) (kind : OperatorKind)
    (source target : Handle) (o : Operator) : Prop where
  origin : (o.source = source ∧ o.target = target) ∨
    (t.canonical source = .ok o.source ∧ t.canonical target = .ok o.target ∧
      Registry.Serving log kind o.source o.target o)
  source : t.identical o.source source = .ok true
  target : t.identical o.target target = .ok true
  usable : o.isUsable = true
  kind : o.kind = kind ∨ kind = .cast ∧ o.kind = .implicitCast

variable {t : TypeTable} {r : Registry} {log : List Operator} {kind : OperatorKind}
  {names : Pool} {source target h : Handle} {o : Operator} {S T : Tree}

theorem usable_eq_resolve (ht : Layered t) (hS : t.unfold source = .ok S) (target : Handle) :
    r.usable kind (S.canonical source) target = r.resolve kind (S.canonical source) target := by
  have hvalid := not_invalid_of_has ht (has_of_unfold (unfold_canonical ht hS))
  cases ho : r.resolve kind (S.canonical source) target with
  | none => simp [Registry.usable, ho]
  | some o =>
    have hsource := (Registry.resolve_spec ho).2.1
    simp [Registry.usable, ho, Operator.isUsable, hsource, hvalid]

theorem serves_of_made (ht : Layered t) (hS : t.unfold source = .ok S)
    (ho : o.fits kind source target = true) : t.Serves log kind source target o := by
  obtain ⟨hkind, rfl, rfl⟩ := Operator.fits_iff.mp ho
  exact {
    origin := .inl ⟨rfl, rfl⟩
    source := identical_self _
    target := identical_self _
    usable := by simp [Operator.isUsable, not_invalid_of_has ht (has_of_unfold hS)]
    kind := .inl hkind }

theorem serves_of_lookup (ht : Layered t) (hr : r.Logged log) (hS : t.unfold source = .ok S)
    (hT : t.unfold target = .ok T) (ho : r.lookup t kind source target = .ok (some o)) :
    t.Serves log kind source target o := by
  have husable := lookup_usable ht hS hT ho
  rw [lookup_eq ht r kind hS hT, usable_eq_resolve ht hS, Except.ok.injEq,
    hr.resolve_eq_some] at ho
  obtain ⟨hkind, hsource, htarget⟩ := ho.spec
  refine ⟨.inr ⟨?_, ?_, ?_⟩, ?_, ?_, husable, hkind⟩
  · rw [canonical_eq ht hS, hsource]
  · rw [canonical_eq ht hT, htarget]
  · rwa [hsource, htarget]
  · rw [hsource, identical_eq (unfold_canonical ht hS) hS, decide_eq_true rfl]
  · rw [htarget, identical_eq (unfold_canonical ht hT) hT, decide_eq_true rfl]

theorem castOperator_serves (ht : Layered t) (hc : Closed t) (hr : r.Logged log)
    (hS : t.unfold source = .ok S) (hT : t.unfold target = .ok T)
    (ho : t.castOperator r names source target = .ok (some o)) :
    t.Serves log .cast source target o := by
  obtain ⟨fieldsMatch, hm⟩ := structsMatch_answers ht hc hS hT
  rw [castOperator_eq ht names hS hT hm] at ho
  split at ho
  · -- The walk through the elements of arrays ends in a grade; the pair is still the outer one.
    obtain ⟨grade, -, rfl⟩ := Option.map_eq_some_iff.mp (Except.ok.inj ho)
    apply serves_of_made ht hS
    cases grade <;> simp [CastGrade.operator, Operator.keep, Operator.checked, Operator.fits]
  · exact serves_of_lookup ht hr hS hT ho
  · obtain ⟨_, -, ho⟩ := bind_eq_ok.mp ho
    obtain ⟨_, -, ho⟩ := bind_eq_ok.mp ho
    cases ho

theorem conversionOperator_serves (ht : Layered t) (hc : Closed t) (hr : r.Logged log)
    (hS : t.unfold source = .ok S) (hT : t.unfold target = .ok T)
    (ho : t.conversionOperator r source target = .ok (some o)) :
    t.Serves log .conversion source target o := by
  obtain ⟨convertible, hconv, -⟩ := isJsonConvertible_decides ht hc r hS
  rw [conversionOperator_eq hS hT hconv] at ho
  split at ho
  · cases ho
  · cases ho
    apply serves_of_made ht hS
    simp [Operator.converting, Operator.fits]
  · exact serves_of_lookup ht hr hS hT ho

/-- Every operator that is found serves the pair it was asked for. A conversion is always
answered. No registered operator is passed over for being unusable, so where none is found there
is none. -/
theorem found_operators_serve_pair (ht : Reachable t) (hr : r.Logged log) (hs : t.Has source)
    (hd : t.Has target) :
    (∀ names result, t.castOperator r names source target = .ok result →
      ∀ o ∈ result, t.Serves log .cast source target o) ∧
    (∃ result, t.conversionOperator r source target = .ok result ∧
      ∀ o ∈ result, t.Serves log .conversion source target o) ∧
    (∀ kind a b o, t.canonical source = .ok a → t.canonical target = .ok b →
      Registry.Serving log kind a b o → r.lookup t kind source target = .ok (some o)) := by
  have hl := reachable_layered ht
  have hc := reachable_closed ht
  obtain ⟨S, hS⟩ := layered_unfold hl hs
  obtain ⟨T, hT⟩ := layered_unfold hl hd
  refine ⟨?_, ?_, ?_⟩
  · rintro names _ hresult o rfl
    exact castOperator_serves hl hc hr hS hT hresult
  · obtain ⟨result, hresult⟩ := conversionOperator_answered (r := r) hl hc hS hT
    refine ⟨result, hresult, ?_⟩
    rintro o rfl
    exact conversionOperator_serves hl hc hr hS hT hresult
  · intro kind a b o ha hb ho
    rw [canonical_eq hl hS, Except.ok.injEq] at ha
    rw [canonical_eq hl hT, Except.ok.injEq] at hb
    rw [lookup_eq hl r kind hS hT, usable_eq_resolve hl hS, ha, hb, hr.resolve_eq_some.mpr ho]

def copiedJson : TypeTable := initial.grow [.alloc (.json ⟨12⟩), .array Basic.any.handle]

def testedJsonCast : Operator := ⟨.cast, Basic.int.handle, Handle.json, false, .custom 7⟩

theorem copiedJson_operators_serve :
    ∃ r log, Registry.Logged r log ∧
      copiedJson.castOperator r .initial Basic.int.handle ⟨14⟩ = .ok (some testedJsonCast) ∧
      copiedJson.Serves log .cast Basic.int.handle ⟨14⟩ testedJsonCast ∧
      copiedJson.castOperator r .initial ⟨15⟩ ⟨14⟩ = .ok (some (.checked ⟨15⟩ ⟨14⟩)) ∧
      copiedJson.Serves log .cast ⟨15⟩ ⟨14⟩ (.checked ⟨15⟩ ⟨14⟩) := by
  have ht : Reachable copiedJson := reachable_grow .refl _
  have hr := Registry.Logged.register testedJsonCast .builtins
  have hhas : copiedJson.Has Basic.int.handle ∧ copiedJson.Has ⟨14⟩ ∧ copiedJson.Has ⟨15⟩ := by
    decide +kernel
  have hint : copiedJson.castOperator (Registry.builtin.register testedJsonCast) .initial
      Basic.int.handle ⟨14⟩ = .ok (some testedJsonCast) := by
    decide +kernel
  have harray : copiedJson.castOperator (Registry.builtin.register testedJsonCast) .initial
      ⟨15⟩ ⟨14⟩ = .ok (some (.checked ⟨15⟩ ⟨14⟩)) := by
    decide +kernel
  refine ⟨_, _, hr, hint, ?_, harray, ?_⟩
  · exact (found_operators_serve_pair ht hr hhas.1 hhas.2.1).1 _ _ hint _ rfl
  · exact (found_operators_serve_pair ht hr hhas.2.2 hhas.2.1).1 _ _ harray _ rfl

end TypeTable

def Kind.convertsByOperator (source target : Kind) : Bool :=
  match target with
  | .array | .nominal _ | .basic .any | .basic .error => false
  | .json | .basic .map => source ≠ .nominal .struct
  | _ => true

theorem Tree.conversionRule_eq_registered {S T : Tree} {convertible : Bool} :
    S.conversionRule convertible T = .registered ↔
      S ≠ T ∧ S.kind.convertsByOperator T.kind = true := by
  by_cases hST : S = T
  · simp [conversionRule, hST]
  cases T with
  | array X => simp [conversionRule, Kind.convertsByOperator, hST]
  | function ps rs => simp [conversionRule, Kind.convertsByOperator, hST]
  | json C =>
    by_cases hstruct : S.kind = .nominal .struct
    · cases convertible <;> simp [conversionRule, Kind.convertsByOperator, hST, hstruct]
    · simp [conversionRule, Kind.convertsByOperator, hST, hstruct]
  | nominal n d =>
    cases n with
    | struct =>
      cases S with
      | basic b => cases b <;> simp [conversionRule, Kind.convertsByOperator]
      | _ => simp [conversionRule, Kind.convertsByOperator, hST]
    | _ => simp [conversionRule, Kind.convertsByOperator, hST]
  | basic b =>
    cases b with
    | map =>
      by_cases hstruct : S.kind = .nominal .struct
      · simp [conversionRule, Kind.convertsByOperator, hST, hstruct]
      · simp [conversionRule, Kind.convertsByOperator, hST, hstruct]
    | _ => simp [conversionRule, Kind.convertsByOperator, hST]

theorem Registry.builtin_conversions_unsafe :
    ∀ o ∈ implicitCasts ++ casts ++ conversions, o.kind = .conversion → o.safe = false := by
  decide

namespace TypeTable

/-- The registry decides on the conversion, and what it keeps was registered as safe. -/
structure RegisteredSafe (t : TypeTable) (log : List Operator) (source target : Handle) :
    Prop where
  distinct : t.identical source target = .ok false
  kinds : ∃ k l, t.kind source = .ok k ∧ t.kind target = .ok l ∧ k.convertsByOperator l = true
  operator : ∃ a b o, t.canonical source = .ok a ∧ t.canonical target = .ok b ∧
    Registry.Latest log .conversion a b o ∧ o.safe = true

variable {t : TypeTable} {r : Registry} {log : List Operator} {source target : Handle}
  {o : Operator} {S T : Tree}

theorem lookup_conversion (ht : Layered t) (hr : r.Logged log) (hS : t.unfold source = .ok S)
    (hT : t.unfold target = .ok T) :
    r.lookup t .conversion source target = .ok (some o) ↔
      Registry.Latest log .conversion (S.canonical source) (T.canonical target) o := by
  rw [lookup_eq ht r .conversion hS hT, usable_eq_resolve ht hS, Except.ok.injEq]
  exact hr.find?_eq_some

theorem registeredSafe_iff (ht : Layered t) (hS : t.unfold source = .ok S)
    (hT : t.unfold target = .ok T) :
    t.RegisteredSafe log source target ↔
      (S ≠ T ∧ S.kind.convertsByOperator T.kind = true) ∧
        ∃ o, Registry.Latest log .conversion (S.canonical source) (T.canonical target) o ∧
          o.safe = true := by
  constructor
  · rintro ⟨hdistinct, ⟨k, l, hk, hl, hkinds⟩, a, b, o, ha, hb, ho, hsafe⟩
    rw [identical_eq hS hT, Except.ok.injEq, decide_eq_false_iff_not] at hdistinct
    rw [kind_eq hS, Except.ok.injEq] at hk
    rw [kind_eq hT, Except.ok.injEq] at hl
    rw [canonical_eq ht hS, Except.ok.injEq] at ha
    rw [canonical_eq ht hT, Except.ok.injEq] at hb
    subst hk hl ha hb
    exact ⟨⟨hdistinct, hkinds⟩, o, ho, hsafe⟩
  · rintro ⟨⟨hdistinct, hkinds⟩, o, ho, hsafe⟩
    exact {
      distinct := by rw [identical_eq hS hT, decide_eq_false hdistinct]
      kinds := ⟨_, _, kind_eq hS, kind_eq hT, hkinds⟩
      operator := ⟨_, _, o, canonical_eq ht hS, canonical_eq ht hT, ho, hsafe⟩ }

theorem safe_conversion_iff (ht : Layered t) (hc : Closed t) (hr : r.Logged log)
    (hS : t.unfold source = .ok S) (hT : t.unfold target = .ok T) :
    (∃ o, t.conversionOperator r source target = .ok (some o) ∧ o.safe = true) ↔
      t.RegisteredSafe log source target := by
  obtain ⟨convertible, hconv, -⟩ := isJsonConvertible_decides ht hc r hS
  have hrule : S.conversionRule convertible T = .registered ↔ _ :=
    Tree.conversionRule_eq_registered
  rw [registeredSafe_iff ht hS hT, conversionOperator_eq hS hT hconv, ← hrule]
  cases S.conversionRule convertible T with
  | none => simp
  | converting opcode => simp [Operator.converting]
  | registered => simp only [lookup_conversion ht hr hS hT, true_and]

/-- No type is converted to itself. A conversion that is found is safe exactly where the registry
decides and keeps one registered as safe; so none is, if no safe conversion was registered. -/
theorem conversion_safe_iff_registered_safe (ht : Reachable t) (hr : r.Logged log)
    (hs : t.Has source) (hd : t.Has target) :
    (t.identical source target = .ok true → t.conversionOperator r source target = .ok none) ∧
    ((∃ o, t.conversionOperator r source target = .ok (some o) ∧ o.safe = true) ↔
      t.RegisteredSafe log source target) ∧
    ((∀ o ∈ log, o.kind = .conversion → o.safe = false) →
      ∀ o, t.conversionOperator r source target = .ok (some o) → o.safe = false) := by
  have hl := reachable_layered ht
  have hc := reachable_closed ht
  obtain ⟨S, hS⟩ := layered_unfold hl hs
  obtain ⟨T, hT⟩ := layered_unfold hl hd
  have hsafe := safe_conversion_iff hl hc hr hS hT
  refine ⟨?_, hsafe, ?_⟩
  · intro hsame
    simp [conversionOperator, hsame]
  · intro hlog o ho
    apply Bool.eq_false_of_not_eq_true
    intro htrue
    obtain ⟨-, -, a, b, o', -, -, hlatest, hmarked⟩ := hsafe.mp ⟨o, ho, htrue⟩
    obtain ⟨hmem, hkind, -⟩ := hlatest.spec
    rw [hlog o' hmem hkind] at hmarked
    cases hmarked

def surePrinting : Operator :=
  ⟨.conversion, Basic.int.handle, Basic.string.handle, true, .intToString⟩

theorem builtin_printing_unsafe :
    initial.conversionOperator .builtin Basic.int.handle Basic.int.handle = .ok none ∧
    ∃ o, initial.conversionOperator .builtin Basic.int.handle Basic.string.handle = .ok (some o) ∧
      o.safe = false := by
  have hhas : initial.Has Basic.int.handle ∧ initial.Has Basic.string.handle := by decide
  obtain ⟨hself, -, -⟩ :=
    conversion_safe_iff_registered_safe .refl Registry.Logged.builtins hhas.1 hhas.1
  obtain ⟨-, -, hunsafe⟩ :=
    conversion_safe_iff_registered_safe .refl Registry.Logged.builtins hhas.1 hhas.2
  have hfound : initial.conversionOperator .builtin Basic.int.handle Basic.string.handle =
      .ok (some (.converting Basic.int.handle Basic.string.handle .intToString)) := by
    decide +kernel
  exact ⟨hself (by decide +kernel), _, hfound,
    hunsafe Registry.builtin_conversions_unsafe _ hfound⟩

/-- Registering the sure conversion is enough to get it back as a safe one. -/
theorem surePrinting_found_safe :
    (Registry.builtin.register surePrinting).Logged
      (Registry.implicitCasts ++ Registry.casts ++ Registry.conversions ++ [surePrinting]) ∧
    initial.conversionOperator (Registry.builtin.register surePrinting) Basic.int.handle
      Basic.string.handle = .ok (some surePrinting) ∧ surePrinting.safe = true :=
  ⟨.register surePrinting .builtins, by decide +kernel, rfl⟩

end TypeTable

end TypeConformance
