import QueryPlanning.Json.Basic
import QueryPlanning.Number.Shortest

/-!
# Writing JSON

`Json.compact` writes a value without any blank; `Json.pretty` puts every item and member on a line
of its own, two blanks further in than its container. Text is written as it is, but for the quote,
the backslash and the control characters. An exponent always has a sign.
-/

namespace QueryPlanning

-- The powers of the core library, whatever else is imported.
attribute [local instance (high)] instPowNat

namespace Json

/-- A double as a JSON number; `null` stands for infinities and not-a-numbers. The number is taken
from its shortest text, so that writing it gives that text back. -/
def ofDouble (x : Double) : Json :=
  if x.isFinite then
    let (m, q) := x.parts
    let (d, e) := if m = 0 then (0, -1) else Shortest.digits Layout.json.tie m q
    let place : Int := (toString d).length + e
    let negative := x.isNegative
    if place < Layout.json.minPlace || Layout.json.maxPlace < place then
      let ds := (toString d).toList
      .number ⟨negative, Double.digitsValue (ds.take 1), ds.drop 1, some (place - 1)⟩
    else match e with
      | .ofNat k => .number ⟨negative, d * 10 ^ k, ['0'], none⟩
      | .negSucc k =>
        let fraction := d % 10 ^ (k + 1)
        .number ⟨negative, d / 10 ^ (k + 1), (Number.padded (k + 1) fraction).toList, none⟩
  else .null

def hexDigit (n : Nat) : Char :=
  if n < 10 then Char.ofNat ('0'.toNat + n) else Char.ofNat ('a'.toNat + (n - 10))

/-- One character inside a quoted text. -/
def escape (c : Char) : List Char :=
  if c = '"' then ['\\', '"']
  else if c = '\\' then ['\\', '\\']
  else if c = '\n' then ['\\', 'n']
  else if c = '\r' then ['\\', 'r']
  else if c = '\t' then ['\\', 't']
  else if c.toNat = 8 then ['\\', 'b']
  else if c.toNat = 12 then ['\\', 'f']
  else if c.toNat < 32 then ['\\', 'u', '0', '0', hexDigit (c.toNat / 16), hexDigit (c.toNat % 16)]
  else [c]

def quote (s : String) : String :=
  String.ofList ('"' :: s.toList.flatMap escape ++ ['"'])

end Json

def Numeral.text (n : Numeral) : String :=
  let sign := if n.negative then "-" else ""
  let fraction := if n.fraction.isEmpty then "" else String.ofList ('.' :: n.fraction)
  let exponent :=
    match n.exponent with
    | some e => (if 0 ≤ e then "e+" else "e") ++ toString e
    | none => ""
  sign ++ toString n.whole ++ fraction ++ exponent

namespace Json

/-- Half of a surrogate pair, which stands for all that is unreadable. -/
def unreadableText : String := "\"\\ud800\""

mutual

def compact : Json → String
  | .null => "null"
  | .bool b => toString b
  | .number n => n.text
  | .text s => quote s
  | .array items => "[" ++ ",".intercalate (compactItems items) ++ "]"
  | .object members => "\x7b" ++ ",".intercalate (compactMembers members) ++ "\x7d"
  | .unreadable => unreadableText

def compactItems : List Json → List String
  | [] => []
  | item :: rest => item.compact :: compactItems rest

def compactMembers : List (String × Json) → List String
  | [] => []
  | (name, value) :: rest => (quote name ++ ":" ++ value.compact) :: compactMembers rest

end

/-- A new line that begins with `level` indentations. -/
def newLine (level : Nat) : String :=
  String.ofList ('\n' :: List.replicate (2 * level) ' ')

/-- Brackets around parts that stand on lines of their own, or close together without any part. -/
def block (level : Nat) (left right : String) (parts : List String) : String :=
  if parts.isEmpty then left ++ right
  else
    left ++ newLine (level + 1) ++ ("," ++ newLine (level + 1)).intercalate parts ++
      newLine level ++ right

mutual

def prettyAt (level : Nat) : Json → String
  | .array items => block level "[" "]" (prettyItems (level + 1) items)
  | .object members => block level "\x7b" "\x7d" (prettyMembers (level + 1) members)
  | .null => "null"
  | .bool b => toString b
  | .number n => n.text
  | .text s => quote s
  | .unreadable => unreadableText

def prettyItems (level : Nat) : List Json → List String
  | [] => []
  | item :: rest => item.prettyAt level :: prettyItems level rest

def prettyMembers (level : Nat) : List (String × Json) → List String
  | [] => []
  | (name, value) :: rest =>
    (quote name ++ ": " ++ value.prettyAt level) :: prettyMembers level rest

end

def pretty (j : Json) : String := j.prettyAt 0

end Json

end QueryPlanning
