/-! # Kinds, handles and shapes of types

A type is basic, a `json` document, an array, nominal, or a function. Basic types have no
components; the first six of them are values, copied rather than referred to. A handle refers to
a slot of the type table, and a shape is what a slot holds: the kind of a type, with handles of its
components or a reference to its declaration. The first fourteen slots hold the built-in types,
which are the basic ones and unconstrained `json`; one handle is invalid and has no slot.

A fault means that a question was put wrongly: it named something that does not exist or that
cannot be asked about. It is not an answer about the program under check.
-/
namespace TypeConformance

inductive Basic where
  | int | float | string | boolean | blob | typedesc
  | xml | datatable | any | map | null | none | error
  deriving DecidableEq, Repr

inductive Nominal where
  | struct | connector | enum
  deriving DecidableEq, Repr

inductive Kind where
  | basic (b : Basic)
  | json
  | array
  | nominal (n : Nominal)
  | function
  deriving DecidableEq, Repr

namespace Basic

def rank : Basic → Nat
  | int => 0 | float => 1 | string => 2 | boolean => 3 | blob => 4 | typedesc => 5
  | xml => 17 | datatable => 18 | any => 19 | map => 20 | null => 48 | none => 49 | error => 50

/-- Spelling in source text. The error type has none and shows a marker instead. -/
def name : Basic → String
  | int => "int" | float => "float" | string => "string" | boolean => "boolean"
  | blob => "blob" | typedesc => "type" | xml => "xml" | datatable => "datatable"
  | any => "any" | map => "map" | null => "null" | none => "none" | error => "<error>"

def title : Basic → String
  | int => "Int" | float => "Float" | string => "String" | boolean => "Boolean"
  | blob => "Blob" | typedesc => "TypeDesc" | xml => "Xml" | datatable => "Datatable"
  | any => "Any" | map => "Map" | null => "Null" | none => "None" | error => "Error"

def isValue : Basic → Bool
  | int | float | string | boolean | blob | typedesc => true
  | _ => false

def all : List Basic :=
  [int, float, string, boolean, blob, typedesc, xml, datatable, any, map, null, none, error]

end Basic

namespace Nominal

def rank : Nominal → Nat
  | struct => 33 | connector => 34 | enum => 35

def name : Nominal → String
  | struct => "struct" | connector => "connector" | enum => "enum"

def title : Nominal → String
  | struct => "Struct" | connector => "Connector" | enum => "Enum"

def all : List Nominal := [struct, connector, enum]

end Nominal

namespace Kind

def rank : Kind → Nat
  | basic b => b.rank
  | json => 16
  | array => 32
  | nominal n => n.rank
  | function => 36

def name : Kind → String
  | basic b => b.name
  | json => "json"
  | array => "array"
  | nominal n => n.name
  | function => "function"

def title : Kind → String
  | basic b => b.title
  | json => "Json"
  | array => "Array"
  | nominal n => n.title
  | function => "Invokable"

def inspect (k : Kind) : String := "Tag::" ++ k.name

def lastValue : Kind := basic .typedesc

def isValue : Kind → Bool
  | basic b => b.isValue
  | _ => false

def isNominal : Kind → Bool
  | nominal _ => true
  | _ => false

/-- Kinds built by the program's author: nominal types and arrays. -/
def isUserDefined : Kind → Bool
  | nominal _ | array => true
  | _ => false

def isConstrained : Kind → Bool
  | json => true
  | _ => false

def all : List Kind :=
  Basic.all.map basic ++ [json, array] ++ Nominal.all.map nominal ++ [function]

def compare (a b : Kind) : Ordering := Ord.compare a.rank b.rank

end Kind

structure Handle where
  index : Nat
  deriving DecidableEq, Repr

def Basic.handle : Basic → Handle
  | int => ⟨0⟩ | float => ⟨1⟩ | string => ⟨2⟩ | boolean => ⟨3⟩ | blob => ⟨4⟩ | typedesc => ⟨5⟩
  | xml => ⟨6⟩ | datatable => ⟨7⟩ | any => ⟨9⟩ | map => ⟨10⟩ | null => ⟨11⟩ | none => ⟨12⟩
  | error => ⟨13⟩

namespace Handle

def json : Handle := ⟨8⟩

def builtinCount : Nat := 14

def invalid : Handle := ⟨4294967295⟩

def isBuiltin (h : Handle) : Bool := decide (h.index < builtinCount)

def isInvalid (h : Handle) : Bool := h == invalid

def builtinNames : List String :=
  ["int", "float", "string", "boolean", "blob", "type", "xml", "datatable", "json", "any", "map",
   "null", "none", "<error>"]

def builtinName? (h : Handle) : Option String := builtinNames[h.index]?

def inspect (h : Handle) : String :=
  if h.isInvalid then "TypeId::INVALID"
  else match h.builtinName? with
    | none => s!"TypeId({h.index})"
    | some name => "TypeId::" ++ name

end Handle

structure DeclRef where
  index : Nat
  deriving DecidableEq, Repr

inductive Shape where
  | basic (b : Basic)
  | json (constraint : Handle)
  | array (element : Handle)
  | nominal (n : Nominal) (declaration : DeclRef)
  | function (params rets : List Handle)
  deriving DecidableEq, Repr

namespace Shape

def kind : Shape → Kind
  | basic b => .basic b
  | json _ => .json
  | array _ => .array
  | nominal n _ => .nominal n
  | function _ _ => .function

/-- The shape as a list of numbers; different shapes have different codes. -/
def code : Shape → List Nat
  | basic b => [b.rank]
  | json constraint => [Kind.json.rank, constraint.index]
  | array element => [Kind.array.rank, element.index]
  | nominal n d => [n.rank, d.index]
  | function params rets =>
    Kind.function.rank :: params.length :: (params ++ rets).map Handle.index

theorem code_injective {a b : Shape} (h : a.code = b.code) : a = b := by
  cases a with
  | basic a =>
    cases b with
    | basic b => cases a <;> cases b <;> simp_all [code, Basic.rank]
    | _ => simp [code] at h
  | json a =>
    cases b with
    | json b =>
      obtain ⟨i⟩ := a
      obtain ⟨j⟩ := b
      simpa [code] using h
    | nominal n d => cases n <;> simp [code, Kind.rank, Nominal.rank] at h
    | _ => simp [code, Kind.rank] at h
  | array a =>
    cases b with
    | array b =>
      obtain ⟨i⟩ := a
      obtain ⟨j⟩ := b
      simpa [code] using h
    | nominal n d => cases n <;> simp [code, Kind.rank, Nominal.rank] at h
    | _ => simp [code, Kind.rank] at h
  | nominal n d =>
    cases b with
    | nominal m e =>
      obtain ⟨i⟩ := d
      obtain ⟨j⟩ := e
      cases n <;> cases m <;> simp_all [code, Nominal.rank]
    | basic b => simp [code] at h
    | _ => cases n <;> simp [code, Kind.rank, Nominal.rank] at h
  | function ps rs =>
    cases b with
    | function ps' rs' =>
      simp only [code, List.cons.injEq, true_and] at h
      have inj : ∀ x y : Handle, x.index = y.index → x = y := by
        rintro ⟨i⟩ ⟨j⟩ hij
        exact congrArg Handle.mk hij
      have hs := List.append_inj (List.map_inj_right inj |>.mp h.2) h.1
      rw [hs.1, hs.2]
    | nominal n d => cases n <;> simp [code, Kind.rank, Nominal.rank] at h
    | _ => simp [code, Kind.rank] at h

def inspectList (hs : List Handle) : String :=
  "[" ++ ", ".intercalate (hs.map Handle.inspect) ++ "]"

def inspect (s : Shape) : String :=
  match s with
  | basic b => b.title
  | json constraint => "Json \x7b constraint: " ++ constraint.inspect ++ " \x7d"
  | array element => "Array \x7b element: " ++ element.inspect ++ " \x7d"
  | nominal n d => n.title ++ s!"(DeclId({d.index}))"
  | function params rets =>
    "Invokable \x7b params: " ++ inspectList params ++ ", rets: " ++ inspectList rets ++ " \x7d"

def builtins : List Shape :=
  [basic .int, basic .float, basic .string, basic .boolean, basic .blob, basic .typedesc,
   basic .xml, basic .datatable, json Basic.none.handle, basic .any, basic .map, basic .null,
   basic .none, basic .error]

end Shape

inductive Fault where
  /-- A slot outside its table, or a name outside its shard. -/
  | outOfRange (size index : Nat)
  /-- A type that contains itself through its components has no finite form. -/
  | endless
  /-- A cast into a type that no cast can produce, with both types as written in source. -/
  | noCastInto (source target : String) (kind : Kind)
  | lengthMismatch (left right : Nat)
  | shardTooLarge
  | positionTooLarge
  | negativeLength
  deriving DecidableEq, Repr

def Fault.message : Fault → String
  | outOfRange size index =>
    s!"index out of bounds: the len is {size} but the index is {index}"
  | endless => "the type contains itself and has no finite form"
  | noCastInto source target kind =>
    s!"internal error: cast from '{source}' to '{target}' requested; " ++
      kind.name ++ " types have no cast operators"
  | lengthMismatch left right =>
    "assertion `left == right` failed: check_types called with lists of different lengths" ++
      s!"\n  left: {left}\n right: {right}"
  | shardTooLarge => "assertion failed: shard < 16"
  | positionTooLarge => "assertion failed: local <= Self::MAX_LOCAL"
  | negativeLength => "attempt to subtract with overflow"

end TypeConformance
