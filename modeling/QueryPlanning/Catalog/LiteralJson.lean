import QueryPlanning.Catalog.Literal
import QueryPlanning.Json.Printer
import QueryPlanning.Json.Reader

/-!
# Literals in JSON

A literal is `"Null"` or an object with the name of its kind as the only member. The content of a
tagged object has no room for integers of 128 bits, so in there a decimal is refused.
-/

namespace QueryPlanning.Literal

open Json Number

def toJson : Literal → Json
  | .null => .text "Null"
  | .boolean b => .object [("Boolean", .bool b)]
  | .integer n => .object [("Integer", .int n.toInt)]
  | .double x => .object [("Float", .ofDouble x)]
  | .decimal d =>
    .object [("Decimal", .object [("unscaled", .int d.unscaled), ("scale", .nat d.scale.toNat)])]
  | .string s => .object [("String", .text s)]

def readUnscaled : Json → Read Int
  | .number n => ofOption n.wideInt?
  | _ => refuse

def readDecimal (j : Json) : Read Decimal := do
  let members ← readMembers j
  let unscaled ← members.required "unscaled" readUnscaled
  let scale ← members.required "scale" readUInt8
  ofOption (Decimal.ofInt? unscaled scale)

/-- Reads a literal of a kind other than null and decimal. -/
def readScalar (kind : String) (content : Json) : Read Literal :=
  match kind with
  | "Boolean" => .boolean <$> readBool content
  | "Integer" => (fun n ↦ .integer (.ofInt n)) <$> readInt64 content
  | "Float" => .double <$> readDouble content
  | "String" => .string <$> readText content
  | _ => refuse

def readFrom (source : Source) (j : Json) : Read Literal := do
  let (kind, content) ← readAlternative j
  match kind, source with
  | "Null", _ =>
    readNothing source content
    return .null
  | "Decimal", .text => .decimal <$> readDecimal content
  | "Decimal", .held => refuse
  | _, _ => readScalar kind content

def read : Json → Read Literal := readFrom .text

end QueryPlanning.Literal
