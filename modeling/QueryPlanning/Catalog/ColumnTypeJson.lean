import QueryPlanning.Catalog.ColumnType
import QueryPlanning.Json.Reader

/-!
# Column types in JSON

A type without parameters is its name; a type with parameters is an object with its name as the only
member. The fields of a structure are pairs of a name and a type.
-/

namespace QueryPlanning.ColumnType

open Json

mutual

def toJson : ColumnType → Json
  | .boolean => .text "Boolean"
  | .tinyInt => .text "TinyInt"
  | .smallInt => .text "SmallInt"
  | .int => .text "Int"
  | .bigInt => .text "BigInt"
  | .float => .text "Float"
  | .double => .text "Double"
  | .decimal precision scale =>
    .object [("Decimal",
      .object [("precision", .nat precision.toNat), ("scale", .nat scale.toNat)])]
  | .timestamp => .text "Timestamp"
  | .string => .text "String"
  | .varchar length => .object [("Varchar", .object [("len", .nat length.toNat)])]
  | .char length => .object [("Char", .object [("len", .nat length.toNat)])]
  | .binary => .text "Binary"
  | .array item => .object [("Array", item.toJson)]
  | .map key value => .object [("Map", .object [("key", key.toJson), ("value", value.toJson)])]
  | .struct fields => .object [("Struct", .object [("fields", .array (fieldsToJson fields))])]

def fieldsToJson : List (String × ColumnType) → List Json
  | [] => []
  | (name, type) :: rest => .array [.text name, type.toJson] :: fieldsToJson rest

end

/-- The types without parameters, by name. -/
def ofName? : String → Option ColumnType
  | "Boolean" => some .boolean
  | "TinyInt" => some .tinyInt
  | "SmallInt" => some .smallInt
  | "Int" => some .int
  | "BigInt" => some .bigInt
  | "Float" => some .float
  | "Double" => some .double
  | "Timestamp" => some .timestamp
  | "String" => some .string
  | "Binary" => some .binary
  | _ => none

/-- A name and a type. -/
def readField (read : Json → Read ColumnType) : Json → Read (String × ColumnType)
  | .array [name, type] => return (← readText name, ← read type)
  | _ => refuse

/-- Reads a type whose JSON has at most `fuel` levels. -/
def readWithin : Nat → Json → Read ColumnType
  | 0, _ => refuse
  | fuel + 1, j => do
    let (name, content) ← readAlternative j
    match ofName? name with
    | some type =>
      readNothing .text content
      return type
    | none =>
      match name with
      | "Array" => return .array (← readWithin fuel content)
      | "Decimal" =>
        let members ← readMembers content
        return .decimal (← members.required "precision" readUInt8)
          (← members.required "scale" readUInt8)
      | "Varchar" => return .varchar (← (← readMembers content).required "len" readUInt32)
      | "Char" => return .char (← (← readMembers content).required "len" readUInt32)
      | "Map" =>
        let members ← readMembers content
        return .map (← members.required "key" (readWithin fuel))
          (← members.required "value" (readWithin fuel))
      | "Struct" =>
        let members ← readMembers content
        return .struct (← members.required "fields" (readList (readField (readWithin fuel))))
      | _ => refuse

def read (j : Json) : Read ColumnType := readWithin (j.depth + 1) j

end QueryPlanning.ColumnType
