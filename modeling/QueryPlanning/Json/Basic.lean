import QueryPlanning.Number.Double
import QueryPlanning.Number.Word

/-!
# JSON values

A JSON value as it is written: a number keeps its digits, because whether it is a whole number and
whether it fits depends on the field that takes it, and an object keeps all its members in order,
because a repeated member is a fault only where it is looked for. What can be passed over but not
read keeps its place as an unreadable value.
-/

namespace QueryPlanning

open Number

/-- A number as written, less the form of its exponent: `fraction` holds the digits after the point
and is empty exactly when there is no point. -/
structure Numeral where
  negative : Bool
  whole : Nat
  fraction : List Char
  exponent : Option Int
  deriving DecidableEq, Repr

namespace Numeral

def ofInt (n : Int) : Numeral :=
  ⟨n < 0, n.natAbs, [], none⟩

def isIntegral (n : Numeral) : Bool :=
  n.fraction.isEmpty && n.exponent.isNone

theorem signed_natAbs (n : Int) :
    (if (ofInt n).negative then -((ofInt n).whole : Int) else (ofInt n).whole) = n := by
  simp only [ofInt, decide_eq_true_eq]
  split <;> omega

/-- The integer written without point and exponent; minus zero counts as no integer. -/
def int? (n : Numeral) : Option Int :=
  if n.isIntegral && !(n.negative && n.whole == 0) then
    some (if n.negative then -(n.whole : Int) else n.whole)
  else none

@[simp]
theorem int?_ofInt (n : Int) : (ofInt n).int? = some n := by
  have notMinusZero : 0 ≤ n ∨ n.natAbs ≠ 0 := by omega
  rw [int?, if_pos (by simpa [ofInt, isIntegral] using notMinusZero)]
  exact congrArg some (signed_natAbs n)

/-- As `int?`, but minus zero is zero. -/
def wideInt? (n : Numeral) : Option Int :=
  if n.isIntegral then some (if n.negative then -(n.whole : Int) else n.whole) else none

@[simp]
theorem wideInt?_ofInt (n : Int) : (ofInt n).wideInt? = some n := by
  rw [wideInt?, if_pos (by simp [ofInt, isIntegral])]
  exact congrArg some (signed_natAbs n)

/-! ## The double a number stands for

A number is not rounded exactly: as many of its leading digits as fit into a word of 64 bits are
kept, and this significand is scaled by a power of ten in double arithmetic. The result can be a
neighbour of the nearest double. -/

/-- Takes digits into the significand while it fits; returns the digits left over. -/
def takeDigits : Nat → List Char → Nat × List Char
  | significand, [] => (significand, [])
  | significand, c :: rest =>
    let next := 10 * significand + (c.toNat - '0'.toNat)
    if next ≤ maxUInt64 then takeDigits next rest else (significand, c :: rest)

/-- Scales down by at most `10 ^ 308` at a time. Four rounds take every significand to zero. -/
def scaleDown : Nat → Float → Nat → Float
  | 0, _, _ => 0
  | rounds + 1, f, places =>
    if places ≤ 308 then f / Float.ofScientific 1 false places
    else scaleDown rounds (f / Float.ofScientific 1 false 308) (places - 308)

/-- The double, unless the number is beyond the range of doubles. -/
def toDouble? (n : Numeral) : Option Double :=
  let (whole, unreadWhole) := takeDigits 0 (toString n.whole).toList
  let (significand, unreadFraction) := takeDigits whole n.fraction
  let shift : Int := unreadWhole.length - (n.fraction.length - unreadFraction.length : Nat)
  let written := n.exponent.getD 0
  let exponent := shift + written
  let magnitude? : Option Float :=
    if significand = 0 then some 0
    else if 0 ≤ exponent then
      if 308 < exponent || 2147483648 ≤ written then none
      else
        let f := significand.toUInt64.toFloat * Float.ofScientific 1 false exponent.toNat
        if f.isInf then none else some f
    else some (scaleDown 4 significand.toUInt64.toFloat exponent.natAbs)
  magnitude?.map fun f ↦ (Double.ofFloat f).withSign n.negative

end Numeral

inductive Json
  | null
  | bool (b : Bool)
  | number (n : Numeral)
  | text (s : String)
  | array (items : List Json)
  | object (members : List (String × Json))
  /-- A text with half of a surrogate pair, an object with such a name, or one nested too deeply. -/
  | unreadable
  deriving Repr

namespace Json

/-- An integer as a JSON number. -/
def int (n : Int) : Json := .number (.ofInt n)

def nat (n : Nat) : Json := int n

mutual

/-- The number of arrays and objects around the most deeply nested value. -/
def depth : Json → Nat
  | .array items => depthOfItems items + 1
  | .object members => depthOfMembers members + 1
  | _ => 0

def depthOfItems : List Json → Nat
  | [] => 0
  | item :: rest => max item.depth (depthOfItems rest)

def depthOfMembers : List (String × Json) → Nat
  | [] => 0
  | (_, value) :: rest => max value.depth (depthOfMembers rest)

end

mutual

/-- Whether a value can be taken in as a whole: nothing in it is unreadable, and every number is in
the range of integers or doubles. -/
def isReadable : Json → Bool
  | .number n => n.toDouble?.isSome
  | .array items => itemsReadable items
  | .object members => membersReadable members
  | .unreadable => false
  | _ => true

def itemsReadable : List Json → Bool
  | [] => true
  | item :: rest => item.isReadable && itemsReadable rest

def membersReadable : List (String × Json) → Bool
  | [] => true
  | (_, value) :: rest => value.isReadable && membersReadable rest

end

mutual

/-- The value with every array and object that more than `room` others enclose, itself counted,
made unreadable. -/
def within (room : Nat) : Json → Json
  | .array items =>
    match room with
    | 0 => .unreadable
    | room + 1 => .array (itemsWithin room items)
  | .object members =>
    match room with
    | 0 => .unreadable
    | room + 1 => .object (membersWithin room members)
  | j => j

def itemsWithin (room : Nat) : List Json → List Json
  | [] => []
  | item :: rest => item.within room :: itemsWithin room rest

def membersWithin (room : Nat) : List (String × Json) → List (String × Json)
  | [] => []
  | (name, value) :: rest => (name, value.within room) :: membersWithin room rest

end

end Json

end QueryPlanning
