import QueryPlanning.Catalog.Literal

/-!
# Expressions

Analyzed expressions, as plan nodes and sinks carry them. The planner does not evaluate them: it
prints them and takes operands out of comparisons.
-/

namespace QueryPlanning

inductive Comparison
  | eq
  | notDistinct
  | ne
  | lt
  | le
  | gt
  | ge
  deriving DecidableEq, Repr, Inhabited

namespace Comparison

/-- Equality, with or without null as a value. -/
def isEquivalence : Comparison → Bool
  | .eq | .notDistinct => true
  | _ => false

def sql : Comparison → String
  | .eq => "="
  | .notDistinct => "IS NOT DISTINCT FROM"
  | .ne => "!="
  | .lt => "<"
  | .le => "<="
  | .gt => ">"
  | .ge => ">="

end Comparison

inductive Expr
  | slot (table : Option String) (column : String)
  | literal (value : Literal)
  | compare (op : Comparison) (left right : Expr)
  | call (function : String) (args : List Expr)
  deriving Inhabited

namespace Expr

/-- The operand of a comparison or the argument of a call at a position. -/
def operand? : Expr → Nat → Option Expr
  | .compare _ left _, 0 => some left
  | .compare _ _ right, 1 => some right
  | .call _ args, i => args[i]?
  | _, _ => none

mutual

def sql : Expr → String
  | .slot (some table) column => table ++ "." ++ column
  | .slot none column => column
  | .literal value => value.sql
  | .compare op left right => left.sql ++ " " ++ op.sql ++ " " ++ right.sql
  | .call function args => function ++ "(" ++ ", ".intercalate (sqls args) ++ ")"

def sqls : List Expr → List String
  | [] => []
  | e :: rest => e.sql :: sqls rest

end

/-- The expressions with commas between them. -/
def sqlList (es : List Expr) : String := ", ".intercalate (sqls es)

mutual

/-- Equality up to the equality of literals. -/
def same : Expr → Expr → Bool
  | .slot t c, .slot t' c' => t == t' && c == c'
  | .literal v, .literal v' => v.same v'
  | .compare op l r, .compare op' l' r' => op == op' && l.same l' && r.same r'
  | .call f args, .call f' args' => f == f' && sameList args args'
  | _, _ => false

def sameList : List Expr → List Expr → Bool
  | [], [] => true
  | a :: as, b :: bs => a.same b && sameList as bs
  | _, _ => false

end

end Expr

end QueryPlanning
