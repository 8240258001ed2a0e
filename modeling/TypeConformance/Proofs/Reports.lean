import TypeConformance.Proofs.Totality

/-! # What the checks report

The checks about one or two types are questions of one kind: each has a code for its errors and
types that its reports name. An error is made from nothing but the code and the texts of the types.

A check that fails says so in one report. One that does not says nothing, a warning about a risky
cast apart. The error type stands for a failure that was reported before, so wherever it or a copy
of it is involved, nothing is said again.
-/
namespace TypeConformance

namespace Checker

variable {c : Checker} {span : Span} {a b h : Handle} {A B : Tree}

inductive Question where
  | check (actual expected : Handle) (code : Code)
  | cast (source target : Handle)
  | conversion (source target : Handle)
  | constraint (type : Handle)
  deriving DecidableEq, Repr

namespace Question

def types : Question → List Handle
  | check actual expected _ => [expected, actual]
  | cast source target | conversion source target => [source, target]
  | constraint type => [type]

def code (c : Checker) : Question → Code
  | check _ _ code => code
  | cast .. => c.policy.castCode
  | conversion .. => c.policy.conversionCode
  | constraint _ => .e2005

def reports (c : Checker) (span : Span) : Question → Except Fault (List Diagnostic)
  | check actual expected code => do return (← c.checkType span actual expected code).reports
  | cast source target => do return (← c.resolveCast span source target).reports
  | conversion source target => do return (← c.resolveConversion span source target).reports
  | constraint h => do return (← c.checkConstraint span h).reports

end Question

def ReportsOne (c : Checker) (span : Span) (code : Code) (types : List Handle)
    (reports : List Diagnostic) : Prop :=
  ∃ texts, types.mapM c.render = .ok texts ∧ reports = [.ofTemplate code span texts]

/-- The error type is among the types, or a copy of it. -/
def InvolvesError (c : Checker) (types : List Handle) : Prop :=
  ∃ h ∈ types, c.types.kind h = .ok (.basic .error)

instance (c : Checker) (types : List Handle) : Decidable (c.InvolvesError types) :=
  inferInstanceAs (Decidable (∃ h ∈ types, _))

/-- Errors among the reports stand under the code, with the texts of the types. -/
def Names (c : Checker) (span : Span) (code : Code) (types : List Handle)
    (reports : List Diagnostic) : Prop :=
  ∀ d ∈ reports, d.isError = true →
    ∃ texts, types.mapM c.render = .ok texts ∧ d = .ofTemplate code span texts

variable {code : Code} {types : List Handle} {reports : List Diagnostic}

theorem names_nil (h : reports = []) : c.Names span code types reports := by
  intro d hd
  rw [h] at hd
  cases hd

theorem ReportsOne.names (h : c.ReportsOne span code types reports) :
    c.Names span code types reports := by
  obtain ⟨texts, htexts, rfl⟩ := h
  intro d hd _
  exact ⟨texts, htexts, List.mem_singleton.mp hd⟩

theorem involvesError_pair {kind kind' : Kind} (ha : c.types.kind a = .ok kind)
    (hb : c.types.kind b = .ok kind') :
    c.InvolvesError [a, b] ↔ kind = .basic .error ∨ kind' = .basic .error := by
  simp [InvolvesError, ha, hb]

theorem reportsOne_of_texts {α : Type} {value : α} {f : String → String → Finding} {r : Reported α}
    (hr : (do return { value, reports := [(f (← c.render a) (← c.render b)).toDiagnostic] }) =
      Except.ok r)
    (hf : ∀ x y, (f x y).toDiagnostic = .ofTemplate code span [x, y]) :
    r.value = value ∧ c.ReportsOne span code [a, b] r.reports := by
  obtain ⟨x, hx, hr⟩ := bind_eq_ok.mp hr
  obtain ⟨y, hy, hr⟩ := bind_eq_ok.mp hr
  cases hr
  exact ⟨rfl, [x, y], by simp [hx, hy], by rw [hf]⟩

/-! What each check can end in: silence about the error type, success, or a failure that is
reported. -/

theorem checkType_cases {r : Reported Handle} (ht : c.types.Layered)
    (ha : c.types.unfold a = .ok A) (hb : c.types.unfold b = .ok B)
    (hr : c.checkType span a b code = .ok r) :
    (c.InvolvesError [b, a] ∧ c.types.kind r.value = .ok (.basic .error) ∧ r.reports = []) ∨
    (¬c.InvolvesError [b, a] ∧ c.types.kind r.value ≠ .ok (.basic .error) ∧ r.reports = []) ∨
    (¬c.InvolvesError [b, a] ∧ c.types.kind r.value = .ok (.basic .error) ∧
      c.ReportsOne span code [b, a] r.reports) := by
  have hka := TypeTable.kind_eq ha
  have hkb := TypeTable.kind_eq hb
  rw [involvesError_pair hkb hka]
  rw [checkType_eq ht ha hb] at hr
  split at hr
  · rename_i herror
    cases hr
    exact .inl ⟨.inl (by simp [herror]), by simp [hkb, herror], rfl⟩
  rename_i hB
  split at hr
  · cases hr
    by_cases hA : A = .basic .error
    · exact .inl ⟨.inr (by simp [hA]), by simp [hka, hA], rfl⟩
    · exact .inr (.inl ⟨by simp [hA, hB], by simp [hka, hA], rfl⟩)
  · rename_i hrejected
    have hA : A ≠ .basic .error := fun hA => hrejected (by simp [Tree.accepted, hA])
    obtain ⟨hvalue, hone⟩ := reportsOne_of_texts hr (fun _ _ => rfl)
    exact .inr (.inr ⟨by simp [hA, hB], by rw [hvalue, error_kind ht], hone⟩)

theorem castReport_cases {operator : Option Operator} {r : Reported (Option Operator)}
    (hr : c.castReport span a b operator = .ok r) :
    r.value = operator ∧
      (operator = none ∧ c.ReportsOne span c.policy.castCode [a, b] r.reports ∨
        ∃ o, operator = some o ∧
          ((o.safe = false ∧ c.policy.warnOnRiskyCast = true) ∧
              c.ReportsOne span .w2001 [a, b] r.reports ∨
            ¬(o.safe = false ∧ c.policy.warnOnRiskyCast = true) ∧ r.reports = [])) := by
  cases operator with
  | none =>
    obtain ⟨hvalue, hone⟩ := reportsOne_of_texts hr (fun _ _ => rfl)
    exact ⟨hvalue, .inl ⟨rfl, hone⟩⟩
  | some o =>
    have hrisky : (!o.safe && c.policy.warnOnRiskyCast) = true ↔
        o.safe = false ∧ c.policy.warnOnRiskyCast = true := by simp
    rw [castReport] at hr
    split_ifs at hr with hwarn
    · obtain ⟨hvalue, hone⟩ := reportsOne_of_texts hr (fun _ _ => rfl)
      exact ⟨hvalue, .inr ⟨o, rfl, .inl ⟨hrisky.mp hwarn, hone⟩⟩⟩
    · cases hr
      exact ⟨rfl, .inr ⟨o, rfl, .inr ⟨hrisky.not.mp hwarn, rfl⟩⟩⟩

theorem resolveCast_cases {r : Reported (Option Operator)} (ha : c.types.unfold a = .ok A)
    (hb : c.types.unfold b = .ok B) (hr : c.resolveCast span a b = .ok r) :
    (c.InvolvesError [a, b] ∧ r.value = none ∧ r.reports = []) ∨
    (¬c.InvolvesError [a, b] ∧ ∃ operator, c.castReport span a b operator = .ok r ∧
      ∀ o, operator = some o →
        c.types.castOperator c.operators c.names a b = .ok (some o)) := by
  rw [involvesError_pair (TypeTable.kind_eq ha) (TypeTable.kind_eq hb)]
  rw [resolveCast_eq ha hb] at hr
  split_ifs at hr with herror
  · cases hr
    exact .inl ⟨herror, rfl, rfl⟩
  · -- Into an enum no operator is asked for.
    exact .inr ⟨herror, none, hr, by simp⟩
  · obtain ⟨operator, hoperator, hr⟩ := bind_eq_ok.mp hr
    refine .inr ⟨herror, operator, hr, ?_⟩
    rintro o rfl
    exact hoperator

theorem resolveConversion_cases {r : Reported (Option Operator)}
    (hr : c.resolveConversion span a b = .ok r) :
    (c.InvolvesError [a, b] ∧ r.value = none ∧ r.reports = []) ∨
    (¬c.InvolvesError [a, b] ∧ r.value = none ∧
      c.ReportsOne span c.policy.conversionCode [a, b] r.reports) ∨
    (¬c.InvolvesError [a, b] ∧ r.reports = [] ∧ ∃ o, r.value = some o ∧
      c.types.conversionOperator c.operators a b = .ok (some o)) := by
  obtain ⟨source, hsource, hr⟩ := bind_eq_ok.mp hr
  split at hr
  · rename_i herror
    cases hr
    exact .inl ⟨⟨a, List.mem_cons_self, herror ▸ hsource⟩, rfl, rfl⟩
  rename_i hsafe
  obtain ⟨target, htarget, hr⟩ := bind_eq_ok.mp hr
  rw [involvesError_pair hsource htarget]
  split at hr
  · rename_i herror
    cases hr
    exact .inl ⟨.inr herror, rfl, rfl⟩
  rename_i hsafe'
  have hnot : ¬(source = .basic .error ∨ target = .basic .error) := not_or.mpr ⟨hsafe, hsafe'⟩
  obtain ⟨operator, hoperator, hr⟩ := bind_eq_ok.mp hr
  cases operator with
  | none =>
    obtain ⟨hvalue, hone⟩ := reportsOne_of_texts hr (fun _ _ => rfl)
    exact .inr (.inl ⟨hnot, hvalue, hone⟩)
  | some o =>
    cases hr
    exact .inr (.inr ⟨hnot, rfl, o, rfl, hoperator⟩)

theorem checkConstraint_cases {r : Reported Bool} (hr : c.checkConstraint span h = .ok r) :
    (r.value = true ∧ r.reports = []) ∨
    (¬c.InvolvesError [h] ∧ r.value = false ∧ c.ReportsOne span .e2005 [h] r.reports) := by
  obtain ⟨kind, hkind, hr⟩ := bind_eq_ok.mp hr
  split at hr
  · cases hr
    exact .inl ⟨rfl, rfl⟩
  rename_i herror
  obtain ⟨compatible, -, hr⟩ := bind_eq_ok.mp hr
  split at hr
  · cases hr
    exact .inl ⟨rfl, rfl⟩
  · obtain ⟨text, htext, hr⟩ := bind_eq_ok.mp hr
    cases hr
    refine .inr ⟨?_, rfl, [text], by simp [htext], rfl⟩
    simpa [InvolvesError, hkind] using herror

theorem checkType_names {r : Reported Handle} (ht : c.types.Layered)
    (ha : c.types.unfold a = .ok A) (hb : c.types.unfold b = .ok B)
    (hr : c.checkType span a b code = .ok r) : c.Names span code [b, a] r.reports := by
  rcases checkType_cases ht ha hb hr with ⟨-, -, hnil⟩ | ⟨-, -, hnil⟩ | ⟨-, -, hone⟩
  · exact names_nil hnil
  · exact names_nil hnil
  · exact hone.names

theorem resolveCast_names {r : Reported (Option Operator)} (ha : c.types.unfold a = .ok A)
    (hb : c.types.unfold b = .ok B) (hr : c.resolveCast span a b = .ok r) :
    c.Names span c.policy.castCode [a, b] r.reports := by
  rcases resolveCast_cases ha hb hr with ⟨-, -, hnil⟩ | ⟨-, operator, hreport, -⟩
  · exact names_nil hnil
  obtain ⟨-, ⟨-, hone⟩ | ⟨o, -, ⟨-, texts, -, hwarning⟩ | ⟨-, hnil⟩⟩⟩ := castReport_cases hreport
  · exact hone.names
  · -- What is reported here is a warning.
    intro d hd herror
    rw [hwarning] at hd
    rw [List.mem_singleton.mp hd] at herror
    cases herror
  · exact names_nil hnil

theorem resolveConversion_names {r : Reported (Option Operator)}
    (hr : c.resolveConversion span a b = .ok r) :
    c.Names span c.policy.conversionCode [a, b] r.reports := by
  rcases resolveConversion_cases hr with ⟨-, -, hnil⟩ | ⟨-, -, hone⟩ | ⟨-, hnil, -⟩
  · exact names_nil hnil
  · exact hone.names
  · exact names_nil hnil

theorem checkConstraint_names {r : Reported Bool} (hr : c.checkConstraint span h = .ok r) :
    c.Names span .e2005 [h] r.reports := by
  rcases checkConstraint_cases hr with ⟨-, hnil⟩ | ⟨-, -, hone⟩
  · exact names_nil hnil
  · exact hone.names

namespace Question

variable {q : Question}

/-- The question is answered, and what is reported names its types. -/
theorem reports_spec (hc : c.Complete) (hq : ∀ h ∈ q.types, c.types.Has h) (span : Span) :
    ∃ ds, q.reports c span = .ok ds ∧ c.Names span (q.code c) q.types ds := by
  have hunfold := fun h hh => TypeTable.layered_unfold hc.layered (hq h hh)
  cases q with
  | check actual expected code =>
    obtain ⟨A, hA⟩ := hunfold actual (by simp [types])
    obtain ⟨E, hE⟩ := hunfold expected (by simp [types])
    obtain ⟨r, hr⟩ := checkType_answered hc hA hE span code
    exact ⟨r.reports, by simp [reports, hr], checkType_names hc.layered hA hE hr⟩
  | cast source target =>
    obtain ⟨S, hS⟩ := hunfold source (by simp [types])
    obtain ⟨T, hT⟩ := hunfold target (by simp [types])
    obtain ⟨r, hr⟩ := resolveCast_answered hc hS hT span
    exact ⟨r.reports, by simp [reports, hr], resolveCast_names hS hT hr⟩
  | conversion source target =>
    obtain ⟨S, hS⟩ := hunfold source (by simp [types])
    obtain ⟨T, hT⟩ := hunfold target (by simp [types])
    obtain ⟨r, hr⟩ := resolveConversion_answered hc hS hT span
    exact ⟨r.reports, by simp [reports, hr], resolveConversion_names hr⟩
  | constraint h =>
    obtain ⟨T, hT⟩ := hunfold h (by simp [types])
    obtain ⟨r, hr⟩ := checkConstraint_answered hc hT span
    exact ⟨r.reports, by simp [reports, hr], checkConstraint_names hr⟩

end Question

end Checker

end TypeConformance
