import QueryPlanning.Catalog.Decimal
import QueryPlanning.Error
import QueryPlanning.Number.Shortest

/-!
# Literals

The values of partition keys, which are also the constants of expressions. Literals are ordered:
null first, then by kind, and within a kind by value. `Literal.same` is equality in this order, so
decimals of one value at two scales are the same literal though their texts differ.

`Literal.parse` reads the value part of a partition's directory name as a literal of the column's
type, and `Literal.keyText` writes one.
-/

namespace QueryPlanning

inductive Literal
  | null
  | boolean (b : Bool)
  | integer (n : Int64)
  | double (x : Double)
  | decimal (d : Decimal)
  | string (s : String)
  deriving DecidableEq

namespace Literal

instance : Inhabited Literal := ⟨.null⟩

def isNull : Literal → Bool
  | .null => true
  | _ => false

/-! ## Order -/

/-- The place of the kind in the order of literals of different kinds. -/
def rank : Literal → Nat
  | .null => 0
  | .boolean _ => 1
  | .integer _ => 2
  | .double _ => 3
  | .decimal _ => 4
  | .string _ => 5

def compare : Literal → Literal → Ordering
  | .boolean a, .boolean b => Ord.compare a b
  | .integer a, .integer b => Ord.compare a.toInt b.toInt
  | .double a, .double b => Ord.compare a.order b.order
  | .decimal a, .decimal b => a.compare b
  | .string a, .string b => Ord.compare a b
  | a, b => Ord.compare a.rank b.rank

instance : Ord Literal := ⟨compare⟩

/-- Equality in the order of literals. -/
def same (a b : Literal) : Bool := a.compare b == .eq

/-- Lists of literals compare at their first difference; a list comes after its beginnings. -/
def compareLists : List Literal → List Literal → Ordering
  | [], [] => .eq
  | [], _ :: _ => .lt
  | _ :: _, [] => .gt
  | a :: as, b :: bs => (a.compare b).then (compareLists as bs)

/-- The same literal at another scale, if it is a decimal and its value has one there; all other
literals have no scale and stay. -/
def rescale? (v : Literal) (scale : UInt8) : Option Literal :=
  match v with
  | .decimal d => (d.rescale? scale).map .decimal
  | v => some v

/-! ## Text -/

/-- The plain text of a literal. -/
def text : Literal → String
  | .null => "NULL"
  | .boolean b => toString b
  | .integer n => toString n.toInt
  | .double x => x.text .plain
  | .decimal d => d.text
  | .string s => s

/-- The text in a directory name, where `nullKey` stands for null. -/
def keyText (nullKey : String) : Literal → String
  | .null => nullKey
  | v => v.text

/-- The text in an expression, with quotes around strings. -/
def sql : Literal → String
  | .string s => "'" ++ s ++ "'"
  | v => v.text

/-! ## Reading -/

/-- Reads a sign and digits, at least one. -/
def integer? (cs : List Char) : Option Int :=
  let (negative, digits) := Double.splitSign cs
  if digits.isEmpty || !digits.all Char.isDigit then none
  else
    let n : Int := Double.digitsValue digits
    some (if negative then -n else n)

/-- Reads a value of a directory name. Blanks around numbers are dropped, and `true` and `false` may
be written in any case. -/
def parse (text : String) (type : ColumnType) (nullKey : String) : Except Error Literal :=
  let invalid : Except Error Literal := .error (.invalidKey text type)
  let trimmed := Text.trimBlanks text.toList
  if text = nullKey then .ok .null
  else match type with
    | .boolean =>
      match Text.lowerAscii text with
      | "true" => .ok (.boolean true)
      | "false" => .ok (.boolean false)
      | _ => invalid
    | .tinyInt | .smallInt | .int | .bigInt =>
      match integer? trimmed with
      | some n =>
        if Number.fitsSigned (type.integerBits?.getD 64) n then .ok (.integer (.ofInt n))
        else invalid
      | none => invalid
    | .float | .double =>
      match Double.parse trimmed with
      | .ok x => .ok (.double x)
      | .error _ => invalid
    | .decimal _ scale =>
      match Decimal.parse? scale trimmed with
      | some d => .ok (.decimal d)
      | none => invalid
    | .string | .varchar _ | .char _ => .ok (.string text)
    | _ => .error (.keyType type)

end Literal

end QueryPlanning
