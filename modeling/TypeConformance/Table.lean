import Std.Data.TreeMap
import TypeConformance.Naming

/-! # The type table

Slots are only ever added, so a handle keeps its meaning. A shape that is interned gets one slot
for all its uses; a shape that is allocated gets a slot of its own, which interning never gives
out. Components are not looked at when a shape is added: they may be defined later. A struct is
declared by name first and its fields may follow, so that a field can refer to the struct itself.
An operation that fails leaves a table too, with what it had done by then.

A question about types fails only if it has to read a slot that the table does not have. Walks
carry a budget: a walk that ends reads no slot, or pair of slots, twice, so one that takes more
steps never ends. Two types are identical if they unfold to the same tree: arrays, constraints and
signatures are compared part by part, nominal types by their declaration. Equal handles are
identical without being read; otherwise the left slot is read before the right one. In source,
arrays are written after their element, constraints in angle brackets, signatures in parentheses:
`int[][]`, `json<Person>`, `function (int, string) returns (boolean)`.
-/
namespace TypeConformance

structure FieldFlags where
  isPublic : Bool := false
  isReadOnly : Bool := false
  isDefaulted : Bool := false
  deriving DecidableEq, Repr

namespace FieldFlags

def ofBits (bits : Nat) : FieldFlags := ⟨bits.testBit 0, bits.testBit 1, bits.testBit 2⟩

def bits (f : FieldFlags) : Nat :=
  f.isPublic.toNat + 2 * f.isReadOnly.toNat + 4 * f.isDefaulted.toNat

theorem ofBits_bits (f : FieldFlags) : ofBits f.bits = f := by
  obtain ⟨a, b, c⟩ := f
  cases a <;> cases b <;> cases c <;> rfl

end FieldFlags

structure Field where
  name : Name
  type : Handle
  flags : FieldFlags := {}
  deriving DecidableEq, Repr

inductive DeclBody where
  /-- The fields are absent until they are defined. -/
  | struct (fields : Option (List Field))
  | connector
  | enum (members : List Name)
  deriving DecidableEq, Repr

structure Declaration where
  name : Name
  body : DeclBody
  deriving DecidableEq, Repr

def Declaration.fields (d : Declaration) : List Field :=
  match d.body with
  | .struct (some fields) => fields
  | _ => []

structure TypeTable where
  slots : Array Shape
  /-- Slots of interned shapes by the code of the shape. -/
  shared : Std.TreeMap (List Nat) Handle
  declarations : Array Declaration

inductive TableError where
  | overflow (max : Nat)
  | notAStruct (type : Handle) (found : Kind)
  | fieldsAlreadyDefined (type : Handle)
  | unreadable (fault : Fault)
  deriving DecidableEq, Repr

/-- A failed operation: why it failed, and the table with what it had done by then. -/
structure TableFailure where
  error : TableError
  table : TypeTable

def TableError.message : TableError → String
  | overflow max => s!"type table exceeded capacity of {max} types"
  | notAStruct type found => type.inspect ++ " is a " ++ found.name ++ ", expected a struct"
  | fieldsAlreadyDefined type => "fields of struct " ++ type.inspect ++ " are already defined"
  | unreadable fault => fault.message

namespace TypeTable

/-- Slots that a table can have; the invalid handle never becomes one. -/
def capacity : Nat := Handle.invalid.index

def initial : TypeTable where
  slots := Shape.builtins.toArray
  shared := Shape.builtins.zipIdx.foldl (fun m (s, i) => m.insert s.code ⟨i⟩) ∅
  declarations := #[]

def size (t : TypeTable) : Nat := t.slots.size

def isEmpty (t : TypeTable) : Bool := t.slots.isEmpty

def alloc (t : TypeTable) (s : Shape) : Except TableFailure (Handle × TypeTable) :=
  if t.slots.size < capacity then
    .ok (⟨t.slots.size⟩, { t with slots := t.slots.push s })
  else .error ⟨.overflow (capacity - 1), t⟩

def intern (t : TypeTable) (s : Shape) : Except TableFailure (Handle × TypeTable) :=
  match t.shared[s.code]? with
  | some h => .ok (h, t)
  | none => do
    let (h, t) ← t.alloc s
    return (h, { t with shared := t.shared.insert s.code h })

def array (t : TypeTable) (element : Handle) : Except TableFailure (Handle × TypeTable) :=
  t.intern (.array element)

/-- Array with the given number of dimensions; without any, the element itself. If there is no
room for all of them, the inner ones stay. -/
def arrayOf (t : TypeTable) (element : Handle) : Nat → Except TableFailure (Handle × TypeTable)
  | 0 => .ok (element, t)
  | dims + 1 => do
    let (inner, t) ← t.array element
    t.arrayOf inner dims

def json (t : TypeTable) (constraint : Handle) : Except TableFailure (Handle × TypeTable) :=
  t.intern (.json constraint)

def function (t : TypeTable) (params rets : List Handle) :
    Except TableFailure (Handle × TypeTable) :=
  t.intern (.function params rets)

/-- A new declaration and its type. The declaration stays even if there is no room for the type. -/
def declare (t : TypeTable) (n : Nominal) (d : Declaration) :
    Except TableFailure (Handle × TypeTable) :=
  let ref : DeclRef := ⟨t.declarations.size⟩
  { t with declarations := t.declarations.push d }.intern (.nominal n ref)

def declareStruct (t : TypeTable) (name : Name) : Except TableFailure (Handle × TypeTable) :=
  t.declare .struct ⟨name, .struct none⟩

def connector (t : TypeTable) (name : Name) : Except TableFailure (Handle × TypeTable) :=
  t.declare .connector ⟨name, .connector⟩

def enum (t : TypeTable) (name : Name) (members : List Name) :
    Except TableFailure (Handle × TypeTable) :=
  t.declare .enum ⟨name, .enum members⟩

def shape (t : TypeTable) (h : Handle) : Except Fault Shape :=
  match t.slots[h.index]? with
  | some s => .ok s
  | none => .error (.outOfRange t.slots.size h.index)

def declarationAt (t : TypeTable) (d : DeclRef) : Except Fault Declaration :=
  match t.declarations[d.index]? with
  | some decl => .ok decl
  | none => .error (.outOfRange t.declarations.size d.index)

/-- Defines the fields of a declared struct, once for all types that share the declaration. -/
def defineFields (t : TypeTable) (h : Handle) (fields : List Field) :
    Except TableFailure TypeTable :=
  match t.shape h with
  | .error fault => .error ⟨.unreadable fault, t⟩
  | .ok (.nominal .struct d) =>
    match t.declarationAt d with
    | .error fault => .error ⟨.unreadable fault, t⟩
    | .ok ⟨name, .struct none⟩ =>
      .ok { t with declarations :=
              t.declarations.setIfInBounds d.index ⟨name, .struct (some fields)⟩ }
    | .ok _ => .error ⟨.fieldsAlreadyDefined h, t⟩
  | .ok other => .error ⟨.notAStruct h other.kind, t⟩

def struct (t : TypeTable) (name : Name) (fields : List Field) :
    Except TableFailure (Handle × TypeTable) := do
  let (h, t) ← t.declareStruct name
  let t ← t.defineFields h fields
  return (h, t)

def kind (t : TypeTable) (h : Handle) : Except Fault Kind := do return (← t.shape h).kind

def isValue (t : TypeTable) (h : Handle) : Except Fault Bool := do return (← t.kind h).isValue

def arrayElement? (t : TypeTable) (h : Handle) : Except Fault (Option Handle) := do
  match ← t.shape h with
  | .array element => return some element
  | _ => return none

def walkBudget (t : TypeTable) : Nat := t.slots.size + 1

def stripWithin (t : TypeTable) : Nat → Handle → Except Fault (Handle × Nat)
  | 0, _ => .error .endless
  | budget + 1, h => do
    match ← t.arrayElement? h with
    | some element => do
      let (base, dims) ← t.stripWithin budget element
      return (base, dims + 1)
    | none => return (h, 0)

def elementType (t : TypeTable) (h : Handle) : Except Fault Handle := do
  return (← t.stripWithin t.walkBudget h).1

def dimensions (t : TypeTable) (h : Handle) : Except Fault Nat := do
  return (← t.stripWithin t.walkBudget h).2

/-- The constraint of a `json` type, which is `none` for plain `json`. -/
def jsonConstraint? (t : TypeTable) (h : Handle) : Except Fault (Option Handle) := do
  match ← t.shape h with
  | .json constraint => return some constraint
  | _ => return none

def properConstraint? (t : TypeTable) (h : Handle) : Except Fault (Option Handle) := do
  match ← t.jsonConstraint? h with
  | some constraint =>
    if (← t.kind constraint) = .basic .none then return none else return some constraint
  | none => return none

def signature? (t : TypeTable) (h : Handle) :
    Except Fault (Option (List Handle × List Handle)) := do
  match ← t.shape h with
  | .function params rets => return some (params, rets)
  | _ => return none

def declaration? (t : TypeTable) (h : Handle) : Except Fault (Option Declaration) := do
  match ← t.shape h with
  | .nominal _ d => return some (← t.declarationAt d)
  | _ => return none

def structFields (t : TypeTable) (h : Handle) : Except Fault (List Field) := do
  match ← t.declaration? h with
  | some d => return d.fields
  | none => return []

/-- One handle for all copies of a type without components. Built-in handles are canonical as
they are and are not read. -/
def canonical (t : TypeTable) (h : Handle) : Except Fault Handle := do
  if h.isBuiltin || h.isInvalid then return h
  match ← t.shape h with
  | .basic b => return b.handle
  | .json constraint =>
    if (← t.kind constraint) = .basic .none then return Handle.json else return h
  | _ => return h

end TypeTable

/-- Compares two lists side by side up to the end of the shorter one, stopping at the first
pair that fails. -/
def allPairs {α : Type} (p : α → α → Except Fault Bool) : List α → List α → Except Fault Bool
  | a :: as, b :: bs => do if ← p a b then allPairs p as bs else return false
  | _, _ => return true

def allMatch {α : Type} (p : α → α → Except Fault Bool) (as bs : List α) : Except Fault Bool :=
  if as.length = bs.length then allPairs p as bs else return false

namespace TypeTable

def pairBudget (t : TypeTable) : Nat := t.slots.size * t.slots.size + 1

def identicalWithin (t : TypeTable) : Nat → Handle → Handle → Except Fault Bool
  | 0, _, _ => .error .endless
  | budget + 1, a, b => do
    if a = b then return true
    match ← t.shape a, ← t.shape b with
    | .json a, .json b => t.identicalWithin budget a b
    | .array a, .array b => t.identicalWithin budget a b
    | .function as ars, .function bs brs =>
      if ← allMatch (t.identicalWithin budget) as bs then
        allMatch (t.identicalWithin budget) ars brs
      else return false
    | sa, sb => return sa == sb

def identical (t : TypeTable) (a b : Handle) : Except Fault Bool :=
  t.identicalWithin t.pairBudget a b

def commaSeparated (texts : List String) : String := ", ".intercalate texts

def renderWithin (t : TypeTable) (names : Pool) : Nat → Handle → Except Fault String
  | 0, _ => .error .endless
  | budget + 1, h => do
    if h.isInvalid then return "<invalid>"
    match ← t.shape h with
    | .json constraint =>
      if ← t.identical constraint Basic.none.handle then return "json"
      else return "json<" ++ (← t.renderWithin names budget constraint) ++ ">"
    | .array element => return (← t.renderWithin names budget element) ++ "[]"
    | .nominal _ d => names.lookup (← t.declarationAt d).name
    | .function params rets =>
      let params ← params.mapM (t.renderWithin names budget)
      let rets ← rets.mapM (t.renderWithin names budget)
      let head := "function (" ++ commaSeparated params ++ ")"
      return if rets.isEmpty then head else head ++ " returns (" ++ commaSeparated rets ++ ")"
    | .basic b => return b.name

def render (t : TypeTable) (names : Pool) (h : Handle) : Except Fault String :=
  t.renderWithin names t.walkBudget h

def renderList (t : TypeTable) (names : Pool) (hs : List Handle) : Except Fault String := do
  return commaSeparated (← hs.mapM (t.render names))

end TypeTable

end TypeConformance
