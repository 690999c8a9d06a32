import QueryPlanning.Error

/-!
# Levels of detail

How much the text of a plan shows. Levels are read from a name in any case or from a number.
-/

namespace QueryPlanning

inductive Detail
  | minimal
  | standard
  | extended
  | verbose
  deriving DecidableEq, Repr, Inhabited

namespace Detail

def rank : Detail → Nat
  | .minimal => 0
  | .standard => 1
  | .extended => 2
  | .verbose => 3

def name : Detail → String
  | .minimal => "MINIMAL"
  | .standard => "STANDARD"
  | .extended => "EXTENDED"
  | .verbose => "VERBOSE"

/-- Whether the level shows what `other` shows. -/
def atLeast (level other : Detail) : Bool := other.rank ≤ level.rank

def parse (s : String) : Except Error Detail :=
  match Text.lowerAscii s with
  | "0" | "minimal" => .ok .minimal
  | "1" | "standard" => .ok .standard
  | "2" | "extended" => .ok .extended
  | "3" | "verbose" => .ok .verbose
  | other => .error (.unknownDetail other)

@[simp]
theorem parse_name (level : Detail) : parse level.name = .ok level := by
  cases level <;> rfl

end Detail

end QueryPlanning
