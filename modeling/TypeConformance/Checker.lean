import TypeConformance.Conformance
import TypeConformance.Report

/-! # Checks that report

Each check asks one of the questions about types and turns a negative answer into a diagnostic,
with types as they are written in source. The error type stands for an expression that was reported
already, so nothing is said about it. An expression has a type of its own and the implicit casts
put around it.
-/
namespace TypeConformance

structure CastLayer where
  span : Span
  target : Handle
  operator : Operator
  deriving DecidableEq, Repr

structure Expression where
  span : Span
  type : Handle
  /-- Implicit casts, outermost first. -/
  casts : List CastLayer := []
  deriving DecidableEq, Repr

namespace Expression

def effectiveType (e : Expression) : Handle :=
  match e.casts with
  | outermost :: _ => outermost.target
  | [] => e.type

def wrap (e : Expression) (target : Handle) (operator : Operator) : Expression :=
  { e with casts := ⟨e.span, target, operator⟩ :: e.casts }

end Expression

inductive Finding where
  | incompatible (span : Span) (code : Code) (expected found : String)
  | invalidCast (span : Span) (code : Code) (source target : String)
  | invalidConversion (span : Span) (code : Code) (source target : String)
  | riskyCast (span : Span) (source target : String)
  | invalidConstraint (span : Span) (constraint : String)
  deriving DecidableEq, Repr

namespace Finding

def span : Finding → Span
  | incompatible span .. | invalidCast span .. | invalidConversion span ..
  | riskyCast span .. | invalidConstraint span .. => span

def code : Finding → Code
  | incompatible _ code .. | invalidCast _ code .. | invalidConversion _ code .. => code
  | riskyCast .. => .w2001
  | invalidConstraint .. => .e2005

def args : Finding → List String
  | incompatible _ _ expected found => [expected, found]
  | invalidCast _ _ source target | invalidConversion _ _ source target
  | riskyCast _ source target => [source, target]
  | invalidConstraint _ constraint => [constraint]

def toDiagnostic (f : Finding) : Diagnostic := .ofTemplate f.code f.span f.args

end Finding

structure CheckPolicy where
  warnOnRiskyCast : Bool := false
  castCode : Code := .e2002
  conversionCode : Code := .e2003
  deriving DecidableEq, Repr

structure Checker where
  types : TypeTable
  operators : Registry
  names : Pool
  policy : CheckPolicy := {}

structure Reported (α : Type) where
  value : α
  reports : List Diagnostic := []
  deriving DecidableEq, Repr

namespace Checker

def render (c : Checker) (h : Handle) : Except Fault String := c.types.render c.names h

/-- The type of an expression after it was found to have type `actual` where `expected` is
wanted. Where `none` is expected, every type is taken over; a mismatch gives the error type. -/
def checkType (c : Checker) (span : Span) (actual expected : Handle) (code : Code) :
    Except Fault (Reported Handle) := do
  if actual = expected then return { value := actual }
  match ← c.types.kind expected with
  | .basic .error => return { value := expected }
  | .basic .none => return { value := actual }
  | _ =>
    if (← c.types.kind actual) = .basic .error then return { value := actual }
    else if ← c.types.isAssignable actual expected then return { value := actual }
    else if ← c.types.castsImplicitly c.operators actual expected then return { value := actual }
    else
      let expectedText ← c.render expected
      let actualText ← c.render actual
      let finding := Finding.incompatible span code expectedText actualText
      return { value := Basic.error.handle, reports := [finding.toDiagnostic] }

/-- Checks pairs in order. What was reported before a fault is kept. -/
def checkPairs (c : Checker) (span : Span) (code : Code) :
    List (Handle × Handle) → List Diagnostic × Except Fault (List Handle)
  | [] => ([], .ok [])
  | (actual, expected) :: rest =>
    match c.checkType span actual expected code with
    | .error fault => ([], .error fault)
    | .ok first =>
      let (reports, result) := c.checkPairs span code rest
      (first.reports ++ reports, result.map (first.value :: ·))

def checkTypes (c : Checker) (span : Span) (actuals expecteds : List Handle) (code : Code) :
    List Diagnostic × Except Fault (List Handle) :=
  if actuals.length = expecteds.length then c.checkPairs span code (actuals.zip expecteds)
  else ([], .error (.lengthMismatch actuals.length expecteds.length))

def attachCast (c : Checker) (e : Expression) (actual expected : Handle) :
    Except Fault Expression := do
  match ← c.operators.lookup c.types .implicitCast actual expected with
  | some operator => return e.wrap expected operator
  | none => return e

def checkExpression (c : Checker) (e : Expression) (expected : Handle) (code : Code) :
    Except Fault (Reported Expression) := do
  let checked ← c.checkType e.span e.type expected code
  let e' := { e with type := checked.value }
  if (← c.types.kind checked.value) = .basic .error then
    return { value := e', reports := checked.reports }
  else
    return { value := ← c.attachCast e' e.type expected, reports := checked.reports }

/-- The operator of a written cast. A cast into an enum is reported like other illegal casts. -/
def resolveCast (c : Checker) (span : Span) (source target : Handle) :
    Except Fault (Reported (Option Operator)) := do
  let sourceKind ← c.types.kind source
  let targetKind ← c.types.kind target
  if sourceKind = .basic .error || targetKind = .basic .error then return { value := none }
  let operator ←
    if targetKind = .nominal .enum then
      if ← c.types.identical source target then pure (some (.keep source target)) else pure none
    else c.types.castOperator c.operators c.names source target
  match operator with
  | none =>
    let finding := Finding.invalidCast span c.policy.castCode (← c.render source)
      (← c.render target)
    return { value := none, reports := [finding.toDiagnostic] }
  | some op =>
    if !op.safe && c.policy.warnOnRiskyCast then
      let finding := Finding.riskyCast span (← c.render source) (← c.render target)
      return { value := some op, reports := [finding.toDiagnostic] }
    else return { value := some op }

def resolveConversion (c : Checker) (span : Span) (source target : Handle) :
    Except Fault (Reported (Option Operator)) := do
  if (← c.types.kind source) = .basic .error then return { value := none }
  if (← c.types.kind target) = .basic .error then return { value := none }
  match ← c.types.conversionOperator c.operators source target with
  | none =>
    let finding := Finding.invalidConversion span c.policy.conversionCode (← c.render source)
      (← c.render target)
    return { value := none, reports := [finding.toDiagnostic] }
  | some op => return { value := some op }

def checkConstraint (c : Checker) (span : Span) (constraint : Handle) :
    Except Fault (Reported Bool) := do
  if (← c.types.kind constraint) = .basic .error then return { value := true }
  else if ← c.types.isJsonCompatible c.operators constraint then return { value := true }
  else
    let finding := Finding.invalidConstraint span (← c.render constraint)
    return { value := false, reports := [finding.toDiagnostic] }

end Checker

end TypeConformance
