import QueryPlanning.Number.Double

/-!
# Shortest decimal text of a double

Among all decimals that read back as a given double, `Shortest.digits` takes one with the fewest
digits, and of those the nearest. The reals that read back as `m * 2 ^ q` form an interval around
it that holds its ends exactly when `m` is even. On each decimal grid, from coarse to fine, only the
two neighbours of the value can be the nearest point inside that interval, and the first grid that
has one there decides.

A `Layout` says how the digits are written. The library has two: `Layout.plain` for values in text
and `Layout.json` for values in JSON.
-/

namespace QueryPlanning

-- The powers of the core library, whatever else is imported.
attribute [local instance (high)] instPowNat

open Number

namespace Shortest

/-- A positive value and the ends of the interval that reads back as it, as numerators over one
denominator, and whether the ends belong to the interval. -/
structure Target where
  value : Nat
  lower : Nat
  upper : Nat
  den : Nat
  closed : Bool

/-- The interval around `m * 2 ^ q`. Below a power of two the next double is half as far away. -/
def target (m : Nat) (q : Int) : Target :=
  let below := if m = Double.hiddenBit ∧ -1074 < q then 1 else 2
  match q - 2 with
  | .ofNat k =>
    ⟨4 * m * 2 ^ k, (4 * m - below) * 2 ^ k, (4 * m + 2) * 2 ^ k, 1, m % 2 == 0⟩
  | .negSucc k => ⟨4 * m, 4 * m - below, 4 * m + 2, 2 ^ (k + 1), m % 2 == 0⟩

/-- Whether the point `num / den` lies in the interval of `t`. -/
def Target.holds (t : Target) (num den : Nat) : Bool :=
  if t.closed then t.lower * den ≤ num * t.den && num * t.den ≤ t.upper * den
  else t.lower * den < num * t.den && num * t.den < t.upper * den

/-- The multiple of `num / den` nearest to the value among its two neighbours in the interval. -/
def Target.neighbour? (t : Target) (tie : Tie) (num den : Nat) : Option Nat :=
  let below := t.value * den / (num * t.den)
  let holdsBelow := t.holds (below * num) den
  let holdsAbove := t.holds ((below + 1) * num) den
  if holdsBelow && holdsAbove then some (roundDiv tie (t.value * den) (num * t.den))
  else if holdsBelow then some below
  else if holdsAbove then some (below + 1)
  else none

/-- The number of digits before the point of `num / den`, or minus the number of zeros after it. -/
def pointPlace (num den : Nat) : Int :=
  if den ≤ num then (toString (num / den)).length
  else 1 - ((toString ((den + num - 1) / num - 1)).length : Int)

/-- Tries the grids of spacing `10 ^ exponent` downwards; a multiple of 10 takes its zeros along. -/
def search (t : Target) (tie : Tie) : Nat → Int → Nat × Int
  | 0, exponent => (0, exponent)
  | fuel + 1, exponent =>
    let hit? :=
      match exponent with
      | .ofNat k => t.neighbour? tie (10 ^ k) 1
      | .negSucc k => t.neighbour? tie 1 (10 ^ (k + 1))
    match hit? with
    | some 10 => (1, exponent + 1)
    | some k => (k, exponent)
    | none => search t tie fuel (exponent - 1)

/-- `(d, e)` such that `d * 10 ^ e` is the shortest decimal of `m * 2 ^ q`. Seventeen digits tell
all doubles apart. -/
def digits (tie : Tie) (m : Nat) (q : Int) : Nat × Int :=
  let t := target m q
  search t tie 17 (pointPlace t.value t.den - 1)

end Shortest

/-- How a double is written. `minPlace` is the least place of the point, and `maxPlace` the
greatest, at which the number is written without an exponent. -/
structure Layout where
  tie : Number.Tie
  minPlace : Int
  maxPlace : Int

namespace Layout

/-- Values in text: positional from 1e-4 to below 1e16. -/
def plain : Layout := ⟨.up, -3, 16⟩

/-- Values in JSON: positional from 1e-5 to below 1e16. -/
def json : Layout := ⟨.toEven, -4, 16⟩

/-- Writes `0.digits * 10 ^ place`; a whole number keeps one zero after the point. -/
def write (l : Layout) (digits : List Char) (place : Int) : String :=
  let size : Int := digits.length
  let zeros (n : Int) : List Char := List.replicate n.toNat '0'
  let cs :=
    if place < l.minPlace || l.maxPlace < place then
      let (first, rest) := digits.splitAt 1
      first ++ (if rest.isEmpty then [] else '.' :: rest) ++ 'e' :: (toString (place - 1)).toList
    else if size ≤ place then digits ++ zeros (place - size) ++ ['.', '0']
    else if 0 < place then digits.take place.toNat ++ '.' :: digits.drop place.toNat
    else '0' :: '.' :: zeros (-place) ++ digits
  String.ofList cs

end Layout

/-- The text of a double. Not-a-numbers of both signs are written alike. -/
def Double.text (l : Layout) (x : Double) : String :=
  let sign := if x.isNegative then "-" else ""
  if x.isNaN then "NaN"
  else if !x.isFinite then sign ++ "inf"
  else
    let (m, q) := x.parts
    if m = 0 then sign ++ "0.0"
    else
      let (d, e) := Shortest.digits l.tie m q
      let ds := (toString d).toList
      sign ++ l.write ds (ds.length + e)

/-- The double with a fixed number of places after the point. -/
def Double.fixed (places : Nat) (x : Double) : String :=
  let sign := if x.isNegative then "-" else ""
  if x.isNaN then "NaN"
  else if !x.isFinite then sign ++ "inf"
  else sign ++ Number.fixed places x.ratio.1 x.ratio.2

end QueryPlanning
