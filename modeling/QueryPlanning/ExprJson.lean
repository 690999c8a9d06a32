import QueryPlanning.Catalog.LiteralJson
import QueryPlanning.Expr

/-!
# Expressions in JSON

An expression is a tagged object, so literals and operands are read from held content and no
literal is a decimal. `Expr.readWith` reads expressions that can hold literals of another form; they
are read member by member, so nothing is held, and `null` stands for a missing member.
-/

namespace QueryPlanning

open Json

namespace Comparison

def jsonName : Comparison → String
  | .eq => "eq"
  | .notDistinct => "not_distinct"
  | .ne => "ne"
  | .lt => "lt"
  | .le => "le"
  | .gt => "gt"
  | .ge => "ge"

def ofJsonName? : String → Option Comparison
  | "eq" => some .eq
  | "not_distinct" => some .notDistinct
  | "ne" => some .ne
  | "lt" => some .lt
  | "le" => some .le
  | "gt" => some .gt
  | "ge" => some .ge
  | _ => none

@[simp]
theorem ofJsonName?_jsonName (c : Comparison) : ofJsonName? c.jsonName = some c := by
  cases c <;> rfl

def readFrom (source : Source) : Json → Read Comparison := readNameFrom source ofJsonName?

end Comparison

namespace Expr

mutual

def toJson : Expr → Json
  | .slot table column =>
    .object [("type", .text "slot_ref"),
      ("table", match table with
        | some t => .text t
        | none => .null),
      ("column", .text column)]
  | .literal value => .object [("type", .text "literal"), ("value", value.toJson)]
  | .compare op left right =>
    .object [("type", .text "binary_predicate"), ("op", .text op.jsonName),
      ("left", left.toJson), ("right", right.toJson)]
  | .call function args =>
    .object [("type", .text "function_call"), ("name", .text function),
      ("args", .array (listToJson args))]

def listToJson : List Expr → List Json
  | [] => []
  | e :: rest => e.toJson :: listToJson rest

end

/-- The tags of expressions in their order. -/
def tags : List String := ["slot_ref", "literal", "binary_predicate", "function_call"]

/-- Makes an expression of its tag and members, with parts that are read by the given readers. -/
def ofMembers (readLiteral : Json → Read Literal) (readOp : Json → Read Comparison)
    (operand : Json → Read Expr) (tag : String) (members : Members) : Read Expr := do
  match tag with
  | "slot_ref" =>
    return .slot (← members.optional "table" readText) (← members.required "column" readText)
  | "literal" => return .literal (← members.required "value" readLiteral)
  | "binary_predicate" =>
    return .compare (← members.required "op" readOp) (← members.required "left" operand)
      (← members.required "right" operand)
  | "function_call" =>
    return .call (← members.required "name" readText)
      (← members.required "args" (readList operand))
  | _ => refuse

/-- Reads an expression whose JSON has at most `fuel` levels. -/
def readWithin : Nat → Source → Json → Read Expr
  | 0, _, _ => refuse
  | fuel + 1, source, j => do
    let (tag, members) ← readTagged source tags j
    ofMembers (Literal.readFrom .held) (Comparison.readFrom .held) (readWithin fuel .held) tag
      members

def readFrom (source : Source) (j : Json) : Read Expr := readWithin (j.depth + 1) source j

def read : Json → Read Expr := readFrom .text

/-- As `readWithin`, member by member. -/
def readPlainly (readLiteral : Json → Read Literal) : Nat → Json → Read Expr
  | 0, _ => refuse
  | fuel + 1, j => do
    let members ← readPresent j
    ofMembers readLiteral (Comparison.readFrom .text) (readPlainly readLiteral fuel)
      (← members.required "type" readText) members

/-- Reads an expression with literals of a given form. -/
def readWith (readLiteral : Json → Read Literal) (j : Json) : Read Expr :=
  readPlainly readLiteral (j.depth + 1) j

end Expr

end QueryPlanning
