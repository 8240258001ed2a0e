import TypeConformance.Basic

/-! # Operators

An operator takes values of one type to another. It is safe if it cannot fail at run time. For each
kind, source and target there is at most one in the registry; a later one replaces it. A cast that
has no operator of its own uses the implicit cast between its types.

Of the built-in operators, implicit casts widen a value and are safe. Casts take a value out of
`any` or `json` again and may fail, except from `float` to `int`. Conversions build a new value and
may fail.
-/
namespace TypeConformance

inductive OperatorKind where
  | cast | implicitCast | conversion
  deriving DecidableEq, Repr

namespace OperatorKind

def title : OperatorKind → String
  | cast => "Cast" | implicitCast => "ImplicitCast" | conversion => "Conversion"

def all : List OperatorKind := [cast, implicitCast, conversion]

end OperatorKind

inductive Opcode where
  | nop | checkCast
  | structToMap | structToJson | mapToStruct | jsonToStruct
  | intToFloat | intToJson | floatToJson | stringToJson | booleanToJson
  | intToAny | floatToAny | stringToAny | booleanToAny | blobToAny
  | floatToInt
  | anyToInt | anyToFloat | anyToString | anyToBoolean | anyToBlob | anyToTypeDesc | anyToJson
  | anyToXml | anyToMap | anyToDatatable
  | jsonToInt | jsonToFloat | jsonToString | jsonToBoolean
  | intToString | floatToString | booleanToString | stringToInt | stringToFloat | stringToBoolean
  | intToBoolean | floatToBoolean
  | xmlToString | stringToXml | jsonSerialize | jsonParse | mapToJson | jsonToMap
  | custom (number : Nat)
  deriving DecidableEq, Repr

namespace Opcode

def title : Opcode → String
  | nop => "Nop" | checkCast => "CheckCast"
  | structToMap => "StructToMap" | structToJson => "StructToJson"
  | mapToStruct => "MapToStruct" | jsonToStruct => "JsonToStruct"
  | intToFloat => "IntToFloat" | intToJson => "IntToJson" | floatToJson => "FloatToJson"
  | stringToJson => "StringToJson" | booleanToJson => "BooleanToJson"
  | intToAny => "IntToAny" | floatToAny => "FloatToAny" | stringToAny => "StringToAny"
  | booleanToAny => "BooleanToAny" | blobToAny => "BlobToAny" | floatToInt => "FloatToInt"
  | anyToInt => "AnyToInt" | anyToFloat => "AnyToFloat" | anyToString => "AnyToString"
  | anyToBoolean => "AnyToBoolean" | anyToBlob => "AnyToBlob"
  | anyToTypeDesc => "AnyToTypeDesc" | anyToJson => "AnyToJson" | anyToXml => "AnyToXml"
  | anyToMap => "AnyToMap" | anyToDatatable => "AnyToDatatable"
  | jsonToInt => "JsonToInt" | jsonToFloat => "JsonToFloat" | jsonToString => "JsonToString"
  | jsonToBoolean => "JsonToBoolean" | intToString => "IntToString"
  | floatToString => "FloatToString" | booleanToString => "BooleanToString"
  | stringToInt => "StringToInt" | stringToFloat => "StringToFloat"
  | stringToBoolean => "StringToBoolean" | intToBoolean => "IntToBoolean"
  | floatToBoolean => "FloatToBoolean" | xmlToString => "XmlToString"
  | stringToXml => "StringToXml" | jsonSerialize => "JsonSerialize" | jsonParse => "JsonParse"
  | mapToJson => "MapToJson" | jsonToMap => "JsonToMap"
  | custom number => s!"Custom({number})"

def fixed : List Opcode :=
  [nop, checkCast, structToMap, structToJson, mapToStruct, jsonToStruct, intToFloat, intToJson,
   floatToJson, stringToJson, booleanToJson, intToAny, floatToAny, stringToAny, booleanToAny,
   blobToAny, floatToInt, anyToInt, anyToFloat, anyToString, anyToBoolean, anyToBlob,
   anyToTypeDesc, anyToJson, anyToXml, anyToMap, anyToDatatable, jsonToInt, jsonToFloat,
   jsonToString, jsonToBoolean, intToString, floatToString, booleanToString, stringToInt,
   stringToFloat, stringToBoolean, intToBoolean, floatToBoolean, xmlToString, stringToXml,
   jsonSerialize, jsonParse, mapToJson, jsonToMap]

end Opcode

structure Operator where
  kind : OperatorKind
  source : Handle
  target : Handle
  safe : Bool
  opcode : Opcode
  deriving DecidableEq, Repr

namespace Operator

/-- An operator out of the invalid type can be stored but is never used. -/
def isUsable (o : Operator) : Bool := !o.source.isInvalid

def fits (o : Operator) (kind : OperatorKind) (source target : Handle) : Bool :=
  o.kind == kind && o.source == source && o.target == target

theorem fits_iff {o : Operator} {kind : OperatorKind} {source target : Handle} :
    o.fits kind source target = true ↔ o.kind = kind ∧ o.source = source ∧ o.target = target := by
  simp [fits, and_assoc]

/-- The cast that leaves a value as it is. -/
def keep (source target : Handle) : Operator := ⟨.cast, source, target, true, .nop⟩

/-- The cast that tests the value at run time. -/
def checked (source target : Handle) : Operator := ⟨.cast, source, target, false, .checkCast⟩

def converting (source target : Handle) (opcode : Opcode) : Operator :=
  ⟨.conversion, source, target, false, opcode⟩

end Operator

structure Registry where
  /-- Operators, the latest first. -/
  operators : List Operator := []
  deriving DecidableEq, Repr

namespace Registry

def empty : Registry := {}

def size (r : Registry) : Nat := r.operators.length

def isEmpty (r : Registry) : Bool := r.operators.isEmpty

def find? (r : Registry) (kind : OperatorKind) (source target : Handle) : Option Operator :=
  r.operators.find? fun o => o.fits kind source target

def register (r : Registry) (o : Operator) : Registry :=
  ⟨o :: r.operators.filter fun other => !other.fits o.kind o.source o.target⟩

theorem find?_register (r : Registry) (o : Operator) (kind : OperatorKind)
    (source target : Handle) :
    (r.register o).find? kind source target =
      if o.fits kind source target then some o else r.find? kind source target := by
  simp only [find?, register, List.find?_cons]
  split
  · rename_i h
    rw [if_pos h]
  · rename_i h
    rw [if_neg (by simp [h]), List.find?_filter]
    congr 1
    funext other
    cases hf : other.fits kind source target with
    | false => simp
    | true =>
      obtain ⟨rfl, rfl, rfl⟩ := Operator.fits_iff.mp hf
      cases ho : other.fits o.kind o.source o.target with
      | false => rfl
      | true =>
        obtain ⟨hk, hs, ht⟩ := Operator.fits_iff.mp ho
        rw [Operator.fits_iff.mpr ⟨hk.symm, hs.symm, ht.symm⟩] at h
        cases h

def registerAll (r : Registry) (os : List Operator) : Registry := os.foldl register r

def resolve (r : Registry) (kind : OperatorKind) (source target : Handle) : Option Operator :=
  match kind with
  | .cast => (r.find? .cast source target).or (r.find? .implicitCast source target)
  | _ => r.find? kind source target

private def op (kind : OperatorKind) (safe : Bool) (source target : Handle) (opcode : Opcode) :
    Operator :=
  ⟨kind, source, target, safe, opcode⟩

def implicitCasts : List Operator :=
  let implicit (b : Basic) := op .implicitCast true b.handle
  [implicit .int Basic.float.handle .intToFloat,
   implicit .int Handle.json .intToJson,
   implicit .float Handle.json .floatToJson,
   implicit .string Handle.json .stringToJson,
   implicit .boolean Handle.json .booleanToJson,
   implicit .int Basic.any.handle .intToAny,
   implicit .float Basic.any.handle .floatToAny,
   implicit .string Basic.any.handle .stringToAny,
   implicit .boolean Basic.any.handle .booleanToAny,
   implicit .blob Basic.any.handle .blobToAny,
   implicit .typedesc Basic.any.handle .nop]

def casts : List Operator :=
  let fromAny := op .cast false Basic.any.handle
  let fromJson := op .cast false Handle.json
  [op .cast true Basic.float.handle Basic.int.handle .floatToInt,
   fromAny Basic.int.handle .anyToInt,
   fromAny Basic.float.handle .anyToFloat,
   fromAny Basic.string.handle .anyToString,
   fromAny Basic.boolean.handle .anyToBoolean,
   fromAny Basic.blob.handle .anyToBlob,
   fromAny Basic.typedesc.handle .anyToTypeDesc,
   fromAny Handle.json .anyToJson,
   fromAny Basic.xml.handle .anyToXml,
   fromAny Basic.map.handle .anyToMap,
   fromAny Basic.datatable.handle .anyToDatatable,
   fromJson Basic.int.handle .jsonToInt,
   fromJson Basic.float.handle .jsonToFloat,
   fromJson Basic.string.handle .jsonToString,
   fromJson Basic.boolean.handle .jsonToBoolean]

def conversions : List Operator :=
  let convert (a b : Handle) := Operator.converting a b
  let basic (a b : Basic) := convert a.handle b.handle
  [basic .int .string .intToString,
   basic .float .string .floatToString,
   basic .boolean .string .booleanToString,
   basic .string .int .stringToInt,
   basic .string .float .stringToFloat,
   basic .string .boolean .stringToBoolean,
   basic .int .boolean .intToBoolean,
   basic .float .boolean .floatToBoolean,
   basic .xml .string .xmlToString,
   basic .string .xml .stringToXml,
   convert Handle.json Basic.string.handle .jsonSerialize,
   convert Basic.string.handle Handle.json .jsonParse,
   convert Basic.map.handle Handle.json .mapToJson,
   convert Handle.json Basic.map.handle .jsonToMap]

def builtin : Registry := empty.registerAll (implicitCasts ++ casts ++ conversions)

end Registry

end TypeConformance
