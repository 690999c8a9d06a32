import QueryPlanning.Catalog.LiteralJson
import QueryPlanning.Scan.Predicate

/-!
# Predicates in JSON

The test of a predicate is a tagged object, so its literals are read from held content and none is
a decimal. `KeyPredicate.readWith` reads predicates that can hold literals of another form; they are
read member by member, so nothing is held, and `null` stands for a missing member.
-/

namespace QueryPlanning

open Json

namespace RangeBound

def toJson (b : RangeBound) : Json :=
  .object [("value", b.value.toJson), ("inclusive", .bool b.inclusive)]

/-- Makes a bound of its members. -/
def ofMembers (readLiteral : Json → Read Literal) (members : Members) : Read RangeBound :=
  return {
    value := ← members.required "value" readLiteral
    inclusive := ← members.withDefault "inclusive" false readBool }

def readHeld (j : Json) : Read RangeBound := do
  ofMembers (Literal.readFrom .held) (← readMembers j)

/-- Reads a bound with a literal of a given form. -/
def readWith (readLiteral : Json → Read Literal) (j : Json) : Read RangeBound := do
  ofMembers readLiteral (← readPresent j)

end RangeBound

namespace KeyTest

def boundToJson : Option RangeBound → Json
  | some b => b.toJson
  | none => .null

def toJson : KeyTest → Json
  | .eq value => .object [("type", .text "eq"), ("value", value.toJson)]
  | .oneOf values =>
    .object [("type", .text "in"), ("values", .array (values.map Literal.toJson))]
  | .range lower upper =>
    .object [("type", .text "range"), ("lower", boundToJson lower), ("upper", boundToJson upper)]
  | .isNull => .object [("type", .text "is_null")]
  | .isNotNull => .object [("type", .text "is_not_null")]

/-- The tags of tests in their order. -/
def tags : List String := ["eq", "in", "range", "is_null", "is_not_null"]

/-- Makes a test of its tag and members, with parts that are read by the given readers. -/
def ofMembers (readLiteral : Json → Read Literal) (readBound : Json → Read RangeBound)
    (tag : String) (members : Members) : Read KeyTest := do
  match tag with
  | "eq" => return .eq (← members.required "value" readLiteral)
  | "in" => return .oneOf (← members.required "values" (readList readLiteral))
  | "range" =>
    return .range (← members.optional "lower" readBound) (← members.optional "upper" readBound)
  | "is_null" => return .isNull
  | "is_not_null" => return .isNotNull
  | _ => refuse

def readFrom (source : Source) (j : Json) : Read KeyTest := do
  let (tag, members) ← readTagged source tags j
  ofMembers (Literal.readFrom .held) RangeBound.readHeld tag members

/-- Reads a test with literals of a given form. -/
def readWith (readLiteral : Json → Read Literal) (j : Json) : Read KeyTest := do
  let members ← readPresent j
  ofMembers readLiteral (RangeBound.readWith readLiteral) (← members.required "type" readText)
    members

end KeyTest

namespace KeyPredicate

def toJson (p : KeyPredicate) : Json :=
  .object [("column", .text p.column), ("op", p.test.toJson)]

/-- Makes a predicate of its members; its test is read by `readTest`. -/
def ofMembers (readTest : Json → Read KeyTest) (members : Members) : Read KeyPredicate :=
  return {
    column := ← members.required "column" readText
    test := ← members.required "op" readTest }

def readFrom (source : Source) (j : Json) : Read KeyPredicate := do
  ofMembers (KeyTest.readFrom source) (← readMembers j)

def read : Json → Read KeyPredicate := readFrom .text

/-- Reads a predicate with literals of a given form. -/
def readWith (readLiteral : Json → Read Literal) (j : Json) : Read KeyPredicate := do
  ofMembers (KeyTest.readWith readLiteral) (← readPresent j)

end KeyPredicate

end QueryPlanning
