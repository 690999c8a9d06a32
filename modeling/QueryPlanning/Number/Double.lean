import QueryPlanning.Number.Rounding

/-!
# Double-precision numbers as bit patterns

A double as its 64 bits, so that two of them are equal exactly when they are the same pattern:
zeros of both signs and not-a-numbers of both signs are told apart. `Double.order` lists the
patterns in the total order of the floating-point standard, and `Double.parts` gives the exact value
of a finite one as `m * 2 ^ q`. Arithmetic is left to `Float`.
-/

namespace QueryPlanning

-- The powers of the core library, whatever else is imported.
attribute [local instance (high)] instPowNat

structure Double where
  bits : UInt64
  deriving DecidableEq, Repr

namespace Double

/-- The pattern that is nothing but a sign. -/
def signBit : Nat := 0x8000000000000000

/-- The pattern without its sign. -/
def magnitude (x : Double) : Nat :=
  x.bits.toNat % signBit

def isNegative (x : Double) : Bool :=
  signBit ≤ x.bits.toNat

/-- Increasing along the total order: negative patterns below all others and among themselves from
the largest magnitude to the smallest. -/
def order (x : Double) : Int :=
  if x.isNegative then -(x.magnitude : Int) - 1 else x.magnitude

theorem order_injective {x y : Double} (h : x.order = y.order) : x = y := by
  have hx := x.bits.toNat_lt
  have hy := y.bits.toNat_lt
  suffices x.bits.toNat = y.bits.toNat by
    cases x; cases y; simpa [← UInt64.toNat_inj] using this
  simp only [order, isNegative, magnitude, decide_eq_true_eq] at h
  unfold signBit at h
  split at h <;> split at h <;> omega

def infinity : Double := ⟨0x7FF0000000000000⟩

/-- The quiet not-a-number without a sign. -/
def nan : Double := ⟨0x7FF8000000000000⟩

def ofFloat (f : Float) : Double := ⟨f.toBits⟩

def toFloat (x : Double) : Float := Float.ofBits x.bits

/-- The opposite sign on the same magnitude. -/
def negate (x : Double) : Double := ⟨x.bits ^^^ 0x8000000000000000⟩

def withSign (negative : Bool) (x : Double) : Double :=
  if negative then x.negate else x

def isFinite (x : Double) : Bool := x.magnitude < infinity.magnitude

def isNaN (x : Double) : Bool := infinity.magnitude < x.magnitude

/-- The number of fractions, and what a fraction leaves out: a pattern has 52 bits for the 53 that
a number has unless it is among the smallest. -/
def hiddenBit : Nat := 0x10000000000000

/-- `(m, q)` with the magnitude `m * 2 ^ q`, for a finite pattern. -/
def parts (x : Double) : Nat × Int :=
  let exponent : Nat := x.magnitude / hiddenBit
  let fraction : Nat := x.magnitude % hiddenBit
  if exponent = 0 then (fraction, -1074) else (fraction + hiddenBit, (exponent : Int) - 1075)

/-- The magnitude of a finite pattern as a quotient of natural numbers. -/
def ratio (x : Double) : Nat × Nat :=
  let (m, q) := x.parts
  match q with
  | .ofNat k => (m * 2 ^ k, 1)
  | .negSucc k => (m, 2 ^ (k + 1))

/-- The denominator of `ratio` is positive. -/
theorem ratio_den_pos (x : Double) : 0 < x.ratio.2 := by
  simp only [ratio]
  split
  · exact Nat.one_pos
  · exact Nat.two_pow_pos _

/-- The least integer that is not below a finite double. -/
def ceil (x : Double) : Int :=
  let (num, den) := x.ratio
  if x.isNegative then -((num / den : Nat) : Int) else ((num + den - 1) / den : Nat)

/-- The double nearest to an integer. -/
def ofInt (n : Int) : Double := ofFloat (Float.ofInt n)

/-- Less than zero; a zero with a minus sign is not. -/
def isBelowZero (x : Double) : Bool := x.isNegative && 0 < x.magnitude && !x.isNaN

/-- Reads `digits * 10 ^ exponent`, rounded to the nearest double. Beyond 10^400 and below 10^-400
the answer is fixed, whatever the digits are. -/
def ofDecimal (digits : Nat) (exponent : Int) : Double :=
  let size : Int := (toString digits).length + exponent
  if digits = 0 || size < -400 then ⟨0⟩
  else if 400 < size then infinity
  else ofFloat (Float.ofScientific digits (exponent < 0) exponent.natAbs)

/-! ## Reading a double from text -/

/-- Why a text is no double: there is nothing to read, or it does not follow the grammar. -/
inductive Unread
  | empty
  | malformed
  deriving DecidableEq, Repr

/-- The value of a list of decimal digits. -/
def digitsValue (cs : List Char) : Nat :=
  cs.foldl (fun n c ↦ 10 * n + (c.toNat - '0'.toNat)) 0

/-- A sign taken off the front: whether it is a minus, and the rest. -/
def splitSign : List Char → Bool × List Char
  | '-' :: rest => (true, rest)
  | '+' :: rest => (false, rest)
  | cs => (false, cs)

/-- An exponent part: `e` or `E`, a sign, and at least one digit; or nothing. -/
def exponentPart? : List Char → Option Int
  | [] => some 0
  | c :: rest =>
    if c = 'e' ∨ c = 'E' then
      let (negative, digits) := splitSign rest
      if digits.isEmpty || !digits.all Char.isDigit then none
      else some (if negative then -(digitsValue digits : Int) else digitsValue digits)
    else none

/-- Digits with at most one point and at least one digit, then an exponent part. -/
def decimalText? (cs : List Char) : Option Double :=
  let whole := cs.takeWhile Char.isDigit
  let afterWhole := cs.dropWhile Char.isDigit
  let (fraction, rest) :=
    match afterWhole with
    | '.' :: more => (more.takeWhile Char.isDigit, more.dropWhile Char.isDigit)
    | _ => ([], afterWhole)
  if whole.isEmpty && fraction.isEmpty then none
  else (exponentPart? rest).map fun e ↦
    ofDecimal (digitsValue (whole ++ fraction)) (e - fraction.length)

/-- A sign, then `inf`, `infinity` or `nan` in any case, or a decimal numeral. -/
def parse (cs : List Char) : Except Unread Double :=
  if cs.isEmpty then .error .empty
  else
    let (negative, body) := splitSign cs
    let word := String.ofList (body.map Char.toLower)
    let value? :=
      if word = "inf" || word = "infinity" then some infinity
      else if word = "nan" then some nan
      else decimalText? body
    match value? with
    | some x => .ok (x.withSign negative)
    | none => .error .malformed

end Double

end QueryPlanning
