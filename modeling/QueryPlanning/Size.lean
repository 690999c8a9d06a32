import QueryPlanning.Number.Double
import QueryPlanning.Number.Word
import QueryPlanning.Text.Upper

/-!
# Sizes in bytes

A size is written as a number and a unit, as in `128MB`; units are powers of 1024 and blanks may
surround either part. Reading takes the number as a double and drops what is left of a byte;
printing gives two places of the largest unit below the size.
-/

namespace QueryPlanning.Size

-- The powers of the core library, whatever else is imported.
attribute [local instance (high)] instPowNat

open Number

/-- Why a text is no size. -/
inductive Unread
  | noNumber
  | malformedNumber
  | unknownUnit (unit : String)
  deriving DecidableEq, Repr

def Unread.message : Unread → String
  | .noNumber => "Invalid number: cannot parse float from empty string"
  | .malformedNumber => "Invalid number: invalid float literal"
  | .unknownUnit unit => "Unknown unit: " ++ unit

/-- The power of 1024 that an upper-case unit stands for. -/
def unitPower? : String → Option Nat
  | "" | "B" => some 0
  | "KB" | "K" => some 1
  | "MB" | "M" => some 2
  | "GB" | "G" => some 3
  | "TB" | "T" => some 4
  | _ => none

/-- The whole bytes in `x` units, at most the largest word. -/
def bytes (x : Double) (power : Nat) : Nat :=
  min maxUInt64 (x.ratio.1 * 1024 ^ power / x.ratio.2)

/-- Reads a size. The number ends before the first character that is neither a digit nor a point,
so it has no sign and no exponent. -/
def parse (s : String) : Except Unread Nat :=
  let cs := Text.upper (Text.trimBlanks s.toList)
  let inNumber (c : Char) : Bool := c.isDigit || c = '.'
  let unit := String.ofList (Text.trimBlanks (cs.dropWhile inNumber))
  match Double.parse (cs.takeWhile inNumber) with
  | .error .empty => .error .noNumber
  | .error .malformed => .error .malformedNumber
  | .ok x =>
    match unitPower? unit with
    | some power => .ok (bytes x power)
    | none => .error (.unknownUnit unit)

/-- The nearest number with at most 53 significant bits. -/
def significant (n : Nat) : Nat :=
  let dropped := 2 ^ (n.log2 - 52)
  roundDiv .toEven n dropped * dropped

def units : List String := ["B", "KB", "MB", "GB", "TB"]

/-- The largest power of 1024, up to `limit`, that is not above the size. -/
def unitOf (limit n : Nat) : Nat :=
  match limit with
  | 0 => 0
  | limit + 1 => if 1024 ^ (limit + 1) ≤ n then limit + 1 else unitOf limit n

/-- A size in its largest unit, with two places. -/
def text (n : Nat) : String :=
  let n := significant n
  let power := unitOf (units.length - 1) n
  fixed 2 n (1024 ^ power) ++ units.getD power ""

/-- The text of a size that may be negative, which counts as none. -/
def textOfInt (n : Int) : String := text n.toNat

end QueryPlanning.Size
