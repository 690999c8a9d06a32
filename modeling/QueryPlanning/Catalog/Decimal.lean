import QueryPlanning.Number.Double
import QueryPlanning.Number.Word

/-!
# Decimals

A decimal is an integer of 128 bits and a scale: the number of its digits after the point. `1` at
scale 0 and `10` at scale 1 are different decimals of the same value; `Decimal.compare` compares the
values and `Decimal.rescale?` moves a decimal to another scale if its value has one there.
-/

namespace QueryPlanning

-- The powers of the core library, whatever else is imported.
attribute [local instance (high)] instPowNat

open Number

structure Decimal where
  unscaled : Int
  scale : UInt8
  fits : fitsSigned 128 unscaled = true
  deriving DecidableEq

namespace Decimal

def ofInt? (unscaled : Int) (scale : UInt8) : Option Decimal :=
  if h : fitsSigned 128 unscaled = true then some ⟨unscaled, scale, h⟩ else none

@[simp]
theorem ofInt?_unscaled (d : Decimal) : ofInt? d.unscaled d.scale = some d := by
  simp [ofInt?, d.fits]

theorem unscaled_of_ofInt? {n : Int} {scale : UInt8} {d : Decimal}
    (h : ofInt? n scale = some d) : d.unscaled = n ∧ d.scale = scale := by
  unfold ofInt? at h
  split at h
  · cases h
    exact ⟨rfl, rfl⟩
  · cases h

/-- A power of ten, if it is in the range of the unscaled numbers. -/
def power? (places : Nat) : Option Int :=
  if fitsSigned 128 (10 ^ places) then some (10 ^ places) else none

/-- `unscaled` with more digits after the point, if it stays in range. -/
def shifted? (unscaled : Int) (places : Nat) : Option Int := do
  let power ← power? places
  if fitsSigned 128 (unscaled * power) then some (unscaled * power) else none

/-- The decimal of the same value at another scale. Taking digits away must leave a whole number,
and the power of ten between the scales has to be in range as well. -/
def rescale? (d : Decimal) (scale : UInt8) : Option Decimal :=
  if d.scale ≤ scale then do
    let power ← power? (scale.toNat - d.scale.toNat)
    ofInt? (d.unscaled * power) scale
  else do
    let power ← power? (d.scale.toNat - scale.toNat)
    if d.unscaled.tmod power = 0 then ofInt? (d.unscaled.tdiv power) scale else none

/-! ## Comparing values -/

/-- Powers in double arithmetic, by squaring: `acc * base ^ n`. -/
def floatPower (base acc : Float) (n : Nat) : Float :=
  let acc := if n % 2 = 1 then acc * base else acc
  if h : n / 2 = 0 then acc else floatPower (base * base) acc (n / 2)
termination_by n
decreasing_by omega

/-- The value in double arithmetic. -/
def toDouble (d : Decimal) : Double :=
  .ofFloat (Float.ofInt d.unscaled / floatPower 10 1 d.scale.toNat)

/-- Compares at the larger of the two scales; where one of the numbers is out of range there, the
values are compared as doubles. -/
def compare (a b : Decimal) : Ordering :=
  let shared := max a.scale.toNat b.scale.toNat
  let at? (d : Decimal) : Option Int :=
    if d.scale.toNat = shared then some d.unscaled
    else shifted? d.unscaled (shared - d.scale.toNat)
  match at? a, at? b with
  | some x, some y => Ord.compare x y
  | _, _ => Ord.compare a.toDouble.order b.toDouble.order

/-! ## Text -/

/-- All digits with a point before the last `scale` of them and at least one digit before it. -/
def text (d : Decimal) : String :=
  if d.scale = 0 then toString d.unscaled
  else
    let places := d.scale.toNat
    let digits := (toString d.unscaled.natAbs).toList
    let digits := List.replicate (places + 1 - digits.length) '0' ++ digits
    let whole := digits.take (digits.length - places)
    let fraction := digits.drop (digits.length - places)
    String.ofList ((if d.unscaled < 0 then ['-'] else []) ++ whole ++ '.' :: fraction)

/-- Reads a sign, digits and at most one point with at most `scale` digits after it; there has to be
a digit, and the number has to be in range whatever its sign. -/
def parse? (scale : UInt8) (cs : List Char) : Option Decimal :=
  let (negative, body) := Double.splitSign cs
  let whole := body.takeWhile (· ≠ '.')
  let fraction := (body.dropWhile (· ≠ '.')).drop 1
  if whole.isEmpty && fraction.isEmpty then none
  else if scale.toNat < fraction.length then none
  else if !(whole ++ fraction).all Char.isDigit then none
  else
    let places := scale.toNat - fraction.length
    let magnitude : Int := Double.digitsValue (whole ++ fraction) * 10 ^ places
    if fitsSigned 128 magnitude then ofInt? (if negative then -magnitude else magnitude) scale
    else none

end Decimal

end QueryPlanning
