import QueryPlanning.ExprJson

/-!
# Partitioning of rows

How the rows of a fragment's input or output are spread over the nodes that execute it. In JSON a
partitioning is an object with a tag and, apart from it, the expressions. Expressions that stand
before the tag are held until it is known.
-/

namespace QueryPlanning

inductive Partitioning
  /-- All rows on one node. -/
  | unpartitioned
  | random
  | hash (keys : List Expr)
  | range (keys : List Expr)
  deriving Inhabited

namespace Partitioning

def isPartitioned : Partitioning → Bool
  | .unpartitioned => false
  | _ => true

def text : Partitioning → String
  | .unpartitioned => "UNPARTITIONED"
  | .random => "RANDOM"
  | .hash keys => "HASH(" ++ Expr.sqlList keys ++ ")"
  | .range keys => "RANGE(" ++ Expr.sqlList keys ++ ")"

/-! ## JSON -/

open Json

def toJson : Partitioning → Json
  | .unpartitioned => .object [("type", .text "unpartitioned")]
  | .random => .object [("type", .text "random")]
  | .hash keys => .object [("type", .text "hash"), ("exprs", .array (keys.map Expr.toJson))]
  | .range keys => .object [("type", .text "range"), ("exprs", .array (keys.map Expr.toJson))]

/-- Where the keys are read from, which have to be readable if they are held. -/
def keySource (source : Source) (members : Members) : Read Source :=
  match members.find? fun (name, _) ↦ name == "type" || name == "exprs" with
  | some ("exprs", keys) => if keys.isReadable then .ok .held else refuse
  | _ => .ok source

/-- Without keys there is no member for them, or it is `null`. -/
def readFrom (source : Source) (j : Json) : Read Partitioning := do
  let members ← readMembers j
  let readKeys := readList (Expr.readFrom (← keySource source members))
  match ← members.required "type" (readNameFrom source some) with
  | "unpartitioned" =>
    members.withDefault "exprs" () (readNothing .text)
    return .unpartitioned
  | "random" =>
    members.withDefault "exprs" () (readNothing .text)
    return .random
  | "hash" => return .hash (← members.required "exprs" readKeys)
  | "range" => return .range (← members.required "exprs" readKeys)
  | _ => refuse

def read : Json → Read Partitioning := readFrom .text

end Partitioning

end QueryPlanning
