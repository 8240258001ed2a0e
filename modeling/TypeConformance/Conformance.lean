import TypeConformance.Operator
import TypeConformance.Table

/-! # Conformance of types

A value is assignable where it can be stored as it is, without any operator. An implicit cast is
put in without being written: by a registered operator, into `any`, or from an array of references
into an array of `any`. A cast that is written keeps the value as it is, apart from boxing; the
kind of the target decides first, then the kind of the source. What changes the form of a value is
a conversion: structs from and to maps and `json`, everything else by registered operators.

A struct fits as a JSON document if none of its fields is unfit, through all structs that its
fields lead to. Structs may refer to each other in circles: a struct whose check is still in
progress counts as fitting, and its own check decides. Each struct is checked once.
-/
namespace TypeConformance

namespace TypeTable

def arraysMatchWithin (t : TypeTable) : Nat → Handle → Handle → Except Fault Bool
  | 0, _, _ => .error .endless
  | budget + 1, actual, expected => do
    match ← t.arrayElement? actual, ← t.arrayElement? expected with
    | some a, some e => t.arraysMatchWithin budget a e
    | _, _ => t.identical actual expected

def arraysMatch (t : TypeTable) (actual expected : Handle) : Except Fault Bool :=
  t.arraysMatchWithin t.pairBudget actual expected

def functionsMatch (t : TypeTable) (actual expected : Handle) : Except Fault Bool := do
  match ← t.signature? actual, ← t.signature? expected with
  | some (params, rets), some (params', rets') =>
    if params.length ≠ params'.length || rets.length ≠ rets'.length then return false
    else if ← allPairs t.identical params params' then allPairs t.identical rets rets'
    else return false
  | _, _ => return false

/-- A `json` document goes where `json` is expected without a constraint, or with the identical
one. Constraints that merely look alike do not count. -/
def jsonAssignable (t : TypeTable) (actual expected : Handle) : Except Fault Bool := do
  match ← t.jsonConstraint? actual, ← t.jsonConstraint? expected with
  | some actual, some expected =>
    if (← t.kind expected) = .basic .none then return true
    else t.identical expected actual
  | _, _ => return false

/-- The first rule that applies decides: identical types; anything where an error is expected;
`null` where no value is expected; then, for types of one kind, values, functions by their
signatures, kinds without components, arrays by their elements; last `json` by its constraint. -/
def isAssignable (t : TypeTable) (actual expected : Handle) : Except Fault Bool := do
  if ← t.identical actual expected then return true
  let expectedKind ← t.kind expected
  if expectedKind = .basic .error then return true
  let actualKind ← t.kind actual
  if actualKind = .basic .null && !expectedKind.isValue then return true
  if actualKind = expectedKind then
    if actualKind.isValue then return true
    else if actualKind = .function then t.functionsMatch actual expected
    else if !actualKind.isUserDefined && !actualKind.isConstrained then return true
    else if actualKind = .array then t.arraysMatch actual expected
    else t.jsonAssignable actual expected
  else t.jsonAssignable actual expected

/-- Fields of `actual` may stand for the fields of `expected`: the first ones agree in name and
are assignable, in order. Further fields of `actual` do no harm. -/
def structsMatch (t : TypeTable) (actual expected : Handle) : Except Fault Bool := do
  if (← t.kind actual) ≠ .nominal .struct then return false
  if (← t.kind expected) ≠ .nominal .struct then return false
  let actualFields ← t.structFields actual
  let expectedFields ← t.structFields expected
  if actualFields.length < expectedFields.length then return false
  allPairs (fun e a => if e.name = a.name then t.isAssignable a.type e.type else return false)
    expectedFields actualFields

end TypeTable

def Registry.lookup (r : Registry) (t : TypeTable) (kind : OperatorKind)
    (source target : Handle) : Except Fault (Option Operator) := do
  let source ← t.canonical source
  let target ← t.canonical target
  return (r.resolve kind source target).filter Operator.isUsable

namespace TypeTable

def arrayCastsImplicitlyWithin (t : TypeTable) : Nat → Handle → Handle → Except Fault Bool
  | 0, _, _ => .error .endless
  | budget + 1, actual, expected => do
    match ← t.arrayElement? actual, ← t.arrayElement? expected with
    | some a, some e => t.arrayCastsImplicitlyWithin budget a e
    | some _, none => return (← t.kind expected) == .basic .any
    | none, some _ => return false
    | none, none =>
      if ← t.identical actual expected then return true
      else if (← t.kind expected) = .basic .any then return !(← t.isValue actual)
      else return false

def arrayCastsImplicitly (t : TypeTable) (actual expected : Handle) : Except Fault Bool :=
  t.arrayCastsImplicitlyWithin t.pairBudget actual expected

def castsImplicitly (t : TypeTable) (r : Registry) (actual expected : Handle) :
    Except Fault Bool := do
  if (← t.properConstraint? expected).isSome then return false
  if (← r.lookup t .implicitCast actual expected).isSome then return true
  match ← t.kind actual, ← t.kind expected with
  | _, .basic .any => return true
  | .array, .array => t.arrayCastsImplicitly actual expected
  | _, _ => return false

/-- Walks two types side by side of which at least one is an array. An array goes into `json` if
its element goes into plain `json`. The operator is made for the types that the walk began with. -/
def arrayCastWithin (t : TypeTable) (outerTarget outerSource : Handle) :
    Nat → Handle → Handle → Except Fault (Option Operator)
  | 0, _, _ => .error .endless
  | budget + 1, target, source => do
    match ← t.arrayElement? target, ← t.arrayElement? source with
    | some target, some source => t.arrayCastWithin outerTarget outerSource budget target source
    | some _, none =>
      match ← t.kind source with
      | .json =>
        if (← t.kind (← t.elementType target)) = .json then
          return some (.checked outerSource outerTarget)
        else return none
      | .basic .any => return some (.checked outerSource outerTarget)
      | _ => return none
    | none, some source =>
      match ← t.kind target with
      | .json => t.arrayCastWithin outerTarget outerSource budget Handle.json source
      | .basic .any => return some (.keep outerSource outerTarget)
      | _ => return none
    | none, none =>
      if ← t.identical source target then return some (.keep outerSource outerTarget)
      let targetKind ← t.kind target
      let sourceKind ← t.kind source
      if targetKind = .basic .any && !sourceKind.isValue then
        return some (.keep outerSource outerTarget)
      else if !targetKind.isValue && sourceKind = .basic .any then
        return some (.checked outerSource outerTarget)
      else return none

def arrayCast (t : TypeTable) (source target : Handle) : Except Fault (Option Operator) :=
  t.arrayCastWithin target source t.pairBudget target source

/-- The operator of a cast, if the cast is legal. No cast goes into an enum or the error type
from another type; asking for one is a fault. -/
def castOperator (t : TypeTable) (r : Registry) (names : Pool) (source target : Handle) :
    Except Fault (Option Operator) := do
  if ← t.identical source target then return some (.keep source target)
  let sourceKind ← t.kind source
  let targetKind ← t.kind target
  match targetKind with
  | .basic .any =>
    if sourceKind.isValue then r.lookup t .cast source target
    else return some (.keep source target)
  | .json =>
    if ← t.jsonAssignable source target then return some (.keep source target)
    else if sourceKind = .array then t.arrayCast source target
    else if (← t.properConstraint? target).isSome then return none
    else r.lookup t .cast source target
  | .array => t.arrayCast source target
  | .nominal .struct =>
    match sourceKind with
    | .basic .any => return some (.checked source target)
    | .nominal .struct =>
      if ← t.structsMatch source target then return some (.keep source target)
      else return some (.checked source target)
    | _ => return none
  | .nominal .connector =>
    if sourceKind = .basic .any then return some (.checked source target) else return none
  | .nominal .enum | .basic .error =>
    throw (.noCastInto (← t.render names source) (← t.render names target) targetKind)
  | _ => if sourceKind = .array then return none else r.lookup t .cast source target

end TypeTable

inductive JsonUse where
  | constraint | conversion
  deriving DecidableEq, Repr

def JsonUse.accepts : JsonUse → Kind → Bool
  | .conversion, .basic .map | .conversion, .basic .any => true
  | _, _ => false

inductive FieldVerdict where
  | fit | unfit
  | fitIf (struct : Handle)
  deriving DecidableEq, Repr

def FieldVerdict.ofBool : Bool → FieldVerdict
  | true => fit
  | false => unfit

/-- Structs being checked, innermost first, and structs with a result. -/
structure CheckGuard where
  inProgress : List Handle := []
  finished : List (Handle × Bool) := []
  deriving DecidableEq, Repr

namespace CheckGuard

def enter (g : CheckGuard) (h : Handle) : CheckGuard :=
  { g with inProgress := h :: g.inProgress }

def leave (g : CheckGuard) (h : Handle) (result : Bool) : CheckGuard :=
  ⟨g.inProgress.tail, (h, result) :: g.finished⟩

def scan (visit : CheckGuard → Handle → Except Fault (Bool × CheckGuard))
    (verdict : Handle → Except Fault FieldVerdict) :
    CheckGuard → List Handle → Except Fault (Bool × CheckGuard)
  | g, [] => return (true, g)
  | g, field :: rest => do
    match ← verdict field with
    | .fit => scan visit verdict g rest
    | .unfit => return (false, g)
    | .fitIf struct =>
      let (ok, g) ← visit g struct
      if ok then scan visit verdict g rest else return (false, g)

end CheckGuard

namespace TypeTable

def fitsJson (t : TypeTable) (r : Registry) (h : Handle) : Except Fault Bool := do
  if ← t.isAssignable h Handle.json then return true else t.castsImplicitly r h Handle.json

def baseVerdict (t : TypeTable) (r : Registry) (use : JsonUse) (owner base : Handle) :
    Except Fault FieldVerdict := do
  if ← t.identical owner base then return .fit
  let kind ← t.kind base
  if kind.isValue || use.accepts kind then return .fit
  else if kind = .nominal .struct then return .fitIf base
  else return .ofBool (← t.fitsJson r base)

/-- Verdict on a field. An array is judged by its base; in a constraint it may also go into
`json` as a whole. -/
def fieldVerdict (t : TypeTable) (r : Registry) (use : JsonUse) (owner field : Handle) :
    Except Fault FieldVerdict := do
  if (← t.kind field) ≠ .array then t.baseVerdict r use owner field
  else
    let base ← t.elementType field
    match use with
    | .constraint =>
      if ← t.fitsJson r field then return .fit else t.baseVerdict r use owner base
    | .conversion => t.baseVerdict r use owner base

def structFitsWithin (t : TypeTable) (r : Registry) (use : JsonUse) :
    Nat → CheckGuard → Handle → Except Fault (Bool × CheckGuard)
  | 0, _, _ => .error .endless
  | budget + 1, g, h =>
    match g.finished.lookup h with
    | some result => return (result, g)
    | none =>
      if h ∈ g.inProgress then return (true, g)
      else do
        let fields ← t.structFields h
        let (result, g) ← (g.enter h).scan (t.structFitsWithin r use budget)
          (t.fieldVerdict r use h) (fields.map Field.type)
        return (result, g.leave h result)

def fitsUse (t : TypeTable) (r : Registry) (use : JsonUse) (h : Handle) : Except Fault Bool := do
  if (← t.kind h) = .nominal .struct then
    return (← t.structFitsWithin r use t.walkBudget {} h).1
  else return false

def isJsonCompatible (t : TypeTable) (r : Registry) (h : Handle) : Except Fault Bool :=
  t.fitsUse r .constraint h

def isJsonConvertible (t : TypeTable) (r : Registry) (h : Handle) : Except Fault Bool :=
  t.fitsUse r .conversion h

def isAnnotationType (t : TypeTable) (h : Handle) : Except Fault Bool := do
  if ← t.isValue h then return true
  match ← t.arrayElement? h with
  | some element => t.isValue element
  | none => return false

def conversionOperator (t : TypeTable) (r : Registry) (source target : Handle) :
    Except Fault (Option Operator) := do
  if ← t.identical source target then return none
  let sourceKind ← t.kind source
  match ← t.kind target with
  | .basic .map =>
    if sourceKind = .nominal .struct then return some (.converting source target .structToMap)
    else r.lookup t .conversion source target
  | .json =>
    if sourceKind = .nominal .struct then
      if ← t.isJsonConvertible r source then
        return some (.converting source target .structToJson)
      else return none
    else r.lookup t .conversion source target
  | .nominal .struct =>
    match sourceKind with
    | .basic .map => return some (.converting source target .mapToStruct)
    | .json => return some (.converting source target .jsonToStruct)
    | _ => return none
  | .array | .basic .any | .nominal _ | .basic .error => return none
  | _ => r.lookup t .conversion source target

end TypeTable

end TypeConformance
