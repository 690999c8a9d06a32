/-!
# Rounding a quotient

A quotient of natural numbers to the nearest natural number, and from that to a fixed number of
decimal places. What happens half-way is a parameter: the two printers of this library that have
to choose do not choose alike.
-/

namespace QueryPlanning.Number

-- The powers of the core library, whatever else is imported.
attribute [local instance (high)] instPowNat

/-- What becomes of a quotient half-way between two numbers. -/
inductive Tie
  | toEven
  | up
  deriving DecidableEq, Repr

def Tie.roundsUp (tie : Tie) (quotient : Nat) : Bool :=
  match tie with
  | .toEven => quotient % 2 == 1
  | .up => true

/-- The natural number nearest to `num / den`. -/
def roundDiv (tie : Tie) (num den : Nat) : Nat :=
  let twice := 2 * (num % den)
  if twice < den then num / den
  else if den < twice then num / den + 1
  else if tie.roundsUp (num / den) then num / den + 1
  else num / den

/-- A decimal numeral of at least `width` digits, filled with zeros on the left. -/
def padded (width n : Nat) : String :=
  let digits := toString n
  String.ofList (List.replicate (width - digits.length) '0') ++ digits

/-- The quotient with `places` digits after the point; half a unit goes to the even neighbour. -/
def fixed (places num den : Nat) : String :=
  let units := roundDiv .toEven (num * 10 ^ places) den
  toString (units / 10 ^ places) ++ "." ++ padded places (units % 10 ^ places)

end QueryPlanning.Number
