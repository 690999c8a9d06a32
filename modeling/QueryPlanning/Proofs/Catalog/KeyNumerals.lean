import QueryPlanning.Catalog.Literal
import QueryPlanning.Proofs.Catalog.Rescaling
import QueryPlanning.Proofs.Outcome

/-!
# Numerals in directory names

A numeral is a sign or none, digits, and at most one point before, among or behind them. An integer
key is read from a numeral without a point and a decimal key from one with no more digits after its
point than the column has. Each key is exactly what its numeral denotes, and every text that is no
numeral of the column is refused.
-/

namespace QueryPlanning

open Number

namespace Decimal

/-- What comes after the first point. -/
def afterPoint (cs : List Char) : List Char := (cs.dropWhile (· ≠ '.')).drop 1

/-- The largest number of a decimal; the smallest is one further from zero. -/
def maxUnscaled : Nat := 0x7FFFFFFFFFFFFFFFFFFFFFFFFFFFFFFF

theorem fits_natCast_iff {n : Nat} : fitsSigned 128 n = true ↔ n ≤ maxUnscaled := by
  rw [fitsSigned_iff, maxUnscaled]
  omega

end Decimal

/-- A number with a sign. -/
def signed (negative : Bool) (n : Nat) : Int := if negative then -n else n

theorem natAbs_signed (negative : Bool) (n : Nat) : (signed negative n).natAbs = n := by
  unfold signed
  split <;> omega

theorem signed_mul (negative : Bool) (n k : Nat) :
    signed negative (n * k) = signed negative n * k := by
  unfold signed
  split
  · rw [Int.natCast_mul, Int.neg_mul]
  · exact Int.natCast_mul n k

inductive KeySign
  | absent
  | plus
  | minus
  deriving DecidableEq

namespace KeySign

def chars : KeySign → List Char
  | .absent => []
  | .plus => ['+']
  | .minus => ['-']

def isMinus : KeySign → Bool
  | .minus => true
  | _ => false

end KeySign

structure KeyNumeral where
  sign : KeySign
  whole : List Char
  /-- What comes after the point, if there is one. -/
  fraction? : Option (List Char)
  isDigit {c : Char} : c ∈ whole ++ fraction?.getD [] → c.isDigit = true
  ne_nil : whole ++ fraction?.getD [] ≠ []

namespace KeyNumeral

open Decimal (afterPoint)

def fraction (m : KeyNumeral) : List Char := m.fraction?.getD []

def places (m : KeyNumeral) : Nat := m.fraction.length

/-- The numeral without its sign. -/
def body (m : KeyNumeral) : List Char := m.whole ++ m.fraction?.elim [] ('.' :: ·)

def chars (m : KeyNumeral) : List Char := m.sign.chars ++ m.body

/-- What all digits make together. -/
def magnitude (m : KeyNumeral) : Nat := Nat.ofDigitChars 10 (m.whole ++ m.fraction) 0

def number (m : KeyNumeral) : Int := signed m.sign.isMinus m.magnitude

def value (m : KeyNumeral) : ℚ := m.number / 10 ^ m.places

variable {m m' : KeyNumeral} {c : Char} {cs : List Char}

theorem ne_point (hc : c ∈ m.whole) : decide (c ≠ '.') = true := by
  apply decide_eq_true
  rintro rfl
  exact absurd (m.isDigit (List.mem_append_left _ hc)) (by decide)

theorem takeWhile_body (m : KeyNumeral) : m.body.takeWhile (· ≠ '.') = m.whole := by
  rw [body, List.takeWhile_append_of_pos fun c hc ↦ ne_point hc]
  cases m.fraction? with
  | none => exact List.append_nil _
  | some fraction => exact List.append_nil _

theorem afterPoint_body (m : KeyNumeral) : afterPoint m.body = m.fraction := by
  rw [afterPoint, body, List.dropWhile_append_of_pos fun c hc ↦ ne_point hc, fraction]
  cases m.fraction? <;> rfl

theorem mem_body (hc : c ∈ m.body) : c.isDigit = true ∨ c = '.' := by
  have hdigit := @m.isDigit
  rw [body] at hc
  rcases List.mem_append.mp hc with hc | hc
  · exact .inl (hdigit (List.mem_append_left _ hc))
  · cases hfraction : m.fraction? with
    | none =>
      rw [hfraction] at hc
      cases hc
    | some fraction =>
      rw [hfraction] at hc hdigit
      rcases List.mem_cons.mp hc with rfl | hc
      · exact .inr rfl
      · exact .inl (hdigit (List.mem_append_right _ hc))

theorem splitSign_chars (m : KeyNumeral) :
    Double.splitSign m.chars = (m.sign.isMinus, m.body) := by
  rw [chars]
  cases m.sign with
  | absent =>
    have hbody := @mem_body m
    rw [KeySign.chars, List.nil_append]
    unfold Double.splitSign
    split
    · next heq =>
      rw [heq] at hbody
      exact absurd (hbody List.mem_cons_self) (by decide)
    · next heq =>
      rw [heq] at hbody
      exact absurd (hbody List.mem_cons_self) (by decide)
    · rfl
  | plus => rfl
  | minus => rfl

/-- A text is the numeral of one sign and of the same digits at the same places. -/
theorem eq_of_chars (h : m.chars = m'.chars) : m.number = m'.number ∧ m.places = m'.places := by
  have hsplit := m.splitSign_chars
  rw [h, m'.splitSign_chars] at hsplit
  have hsign : m'.sign.isMinus = m.sign.isMinus := congrArg Prod.fst hsplit
  have hbody : m'.body = m.body := congrArg Prod.snd hsplit
  have hwhole := m.takeWhile_body
  have hfraction := m.afterPoint_body
  rw [← hbody, m'.takeWhile_body] at hwhole
  rw [← hbody, m'.afterPoint_body] at hfraction
  rw [number, number, magnitude, magnitude, places, places, hsign, hwhole, hfraction]
  exact ⟨rfl, rfl⟩

theorem exists_fraction (body : List Char) : ∃ fraction? : Option (List Char),
    body.takeWhile (· ≠ '.') ++ fraction?.elim [] ('.' :: ·) = body ∧
      fraction?.getD [] = afterPoint body := by
  have hbody := List.takeWhile_append_dropWhile (p := (· ≠ '.')) (l := body)
  rw [afterPoint]
  cases hrest : body.dropWhile (· ≠ '.') with
  | nil =>
    rw [hrest] at hbody
    exact ⟨none, hbody, rfl⟩
  | cons c rest =>
    have hc := List.head?_dropWhile_not (· ≠ '.') body
    rw [hrest] at hc hbody
    obtain rfl : c = '.' := by simpa using hc
    exact ⟨some rest, hbody, rfl⟩

section Reading

variable {negative : Bool} {body whole fraction : List Char} {scale : UInt8} {d : Decimal}
  (hsplit : Double.splitSign cs = (negative, body))

include hsplit

theorem exists_sign : ∃ sign : KeySign, sign.chars ++ body = cs ∧ sign.isMinus = negative := by
  unfold Double.splitSign at hsplit
  split at hsplit
  · cases hsplit
    exact ⟨.minus, rfl, rfl⟩
  · cases hsplit
    exact ⟨.plus, rfl, rfl⟩
  · cases hsplit
    exact ⟨.absent, rfl, rfl⟩

theorem integer?_of_splitSign {n : Int} : Literal.integer? cs = some n ↔
    (body ≠ [] ∧ ∀ c ∈ body, c.isDigit = true) ∧
      signed negative (Nat.ofDigitChars 10 body 0) = n := by
  unfold Literal.integer?
  rw [hsplit]
  simp only [Option.ite_none_left_eq_some, Bool.or_eq_true, not_or, List.isEmpty_iff, ne_eq,
    Bool.not_eq_true', Bool.not_eq_false, List.all_eq_true, Option.some_inj]
  rfl

theorem parse?_of_splitSign (hwhole : body.takeWhile (· ≠ '.') = whole)
    (hfraction : afterPoint body = fraction) : Decimal.parse? scale cs = some d ↔
    (whole ++ fraction ≠ [] ∧ ∀ c ∈ whole ++ fraction, c.isDigit = true) ∧
      fraction.length ≤ scale.toNat ∧
      Nat.ofDigitChars 10 (whole ++ fraction) 0 * 10 ^ (scale.toNat - fraction.length) ≤
        Decimal.maxUnscaled ∧
      d.unscaled = signed negative
        (Nat.ofDigitChars 10 (whole ++ fraction) 0 * 10 ^ (scale.toNat - fraction.length)) ∧
      d.scale = scale := by
  have hmagnitude : (Double.digitsValue (whole ++ fraction) : Int) *
      10 ^ (scale.toNat - fraction.length) = (Nat.ofDigitChars 10 (whole ++ fraction) 0 *
        10 ^ (scale.toNat - fraction.length) : Nat) := by
    push_cast
    rfl
  unfold Decimal.parse?
  rw [hsplit]
  dsimp only
  rw [afterPoint] at hfraction
  rw [hwhole, hfraction, hmagnitude]
  simp only [Option.ite_none_left_eq_some, Option.ite_none_right_eq_some, Bool.and_eq_true,
    List.isEmpty_iff, Nat.not_lt, Bool.not_eq_true', Bool.not_eq_false, List.all_eq_true,
    Decimal.ofInt?_eq_some_iff, Decimal.fits_natCast_iff, ne_eq, List.append_eq_nil_iff]
  exact (and_assoc.trans (and_congr_right' and_left_comm)).symm

end Reading

theorem integer?_eq_some_iff {n : Int} : Literal.integer? cs = some n ↔
    ∃ m : KeyNumeral, m.chars = cs ∧ m.fraction? = none ∧ m.number = n := by
  constructor
  · intro h
    rcases hsplit : Double.splitSign cs with ⟨negative, body⟩
    obtain ⟨⟨hne, hdigits⟩, rfl⟩ := (integer?_of_splitSign hsplit).mp h
    obtain ⟨sign, hcs, rfl⟩ := exists_sign hsplit
    rw [← List.append_nil body] at hne hdigits
    refine ⟨⟨sign, body, none, fun {c} ↦ hdigits c, hne⟩, ?_, rfl, ?_⟩
    · rw [← hcs, chars, KeyNumeral.body]
      exact congrArg _ (List.append_nil body)
    · rw [number, magnitude]
      exact congrArg _ (congrArg (Nat.ofDigitChars 10 · 0) (List.append_nil body))
  · rintro ⟨m, rfl, hpoint, rfl⟩
    have hbody : m.body = m.whole ++ m.fraction := by rw [body, fraction, hpoint]; rfl
    refine (integer?_of_splitSign m.splitSign_chars).mpr ⟨?_, by rw [hbody]; rfl⟩
    rw [hbody]
    exact ⟨m.ne_nil, fun c ↦ m.isDigit⟩

theorem value_eq_iff {d : Decimal} (h : m.places ≤ d.scale.toNat) : m.value = d.value ↔
    d.unscaled = signed m.sign.isMinus (m.magnitude * 10 ^ (d.scale.toNat - m.places)) := by
  rw [value, Decimal.value, eq_comm, Decimal.div_power_eq_iff, Decimal.mul_power_eq_iff h,
    signed_mul, number, Nat.cast_pow]
  rfl

/-- What a numeral is at a scale with enough places. -/
theorem parse?_chars {scale : UInt8} {d : Decimal} : Decimal.parse? scale m.chars = some d ↔
    d.scale = scale ∧ d.unscaled.natAbs ≤ Decimal.maxUnscaled ∧ m.places ≤ scale.toNat ∧
      m.value = d.value := by
  have hdigits : m.whole ++ m.fraction ≠ [] ∧ ∀ c ∈ m.whole ++ m.fraction, c.isDigit = true :=
    ⟨m.ne_nil, fun c ↦ m.isDigit⟩
  rw [parse?_of_splitSign m.splitSign_chars m.takeWhile_body m.afterPoint_body,
    and_iff_right hdigits]
  constructor
  · rintro ⟨hplaces, hbound, hnumber, rfl⟩
    refine ⟨rfl, ?_, hplaces, (value_eq_iff hplaces).mpr hnumber⟩
    rwa [hnumber, natAbs_signed]
  · rintro ⟨rfl, hbound, hplaces, hvalue⟩
    have hnumber := (value_eq_iff hplaces).mp hvalue
    rw [hnumber, natAbs_signed] at hbound
    exact ⟨hplaces, hbound, hnumber, rfl⟩

theorem exists_chars_of_parse? {scale : UInt8} {d : Decimal}
    (h : Decimal.parse? scale cs = some d) : ∃ m : KeyNumeral, m.chars = cs := by
  rcases hsplit : Double.splitSign cs with ⟨negative, body⟩
  obtain ⟨⟨hne, hdigits⟩, -⟩ := (parse?_of_splitSign hsplit rfl rfl).mp h
  obtain ⟨sign, hcs, -⟩ := exists_sign hsplit
  obtain ⟨fraction?, hbody, hfraction⟩ := exists_fraction body
  rw [← hfraction] at hne hdigits
  refine ⟨⟨sign, _, fraction?, fun {c} ↦ hdigits c, hne⟩, ?_⟩
  exact (congrArg (sign.chars ++ ·) hbody).trans hcs

theorem parse?_eq_some_iff {scale : UInt8} {d : Decimal} : Decimal.parse? scale cs = some d ↔
    d.scale = scale ∧ d.unscaled.natAbs ≤ Decimal.maxUnscaled ∧
      ∃ m : KeyNumeral, m.chars = cs ∧ m.places ≤ scale.toNat ∧ m.value = d.value := by
  constructor
  · intro h
    obtain ⟨m, rfl⟩ := exists_chars_of_parse? h
    obtain ⟨hscale, hbound, hplaces, hvalue⟩ := parse?_chars.mp h
    exact ⟨hscale, hbound, m, rfl, hplaces, hvalue⟩
  · rintro ⟨hscale, hbound, m, rfl, hplaces, hvalue⟩
    exact parse?_chars.mpr ⟨hscale, hbound, hplaces, hvalue⟩

end KeyNumeral

/-! ## Keys that are read -/

/-- A type of integers or of decimals. -/
def ColumnType.isNumeric : ColumnType → Bool
  | .decimal _ _ => true
  | type => type.isInteger

/-- What a numeral stands for in a column of a type: an integer in the range of the type, or a
decimal at the scale of the type. -/
inductive KeyNumeral.Denotes (m : KeyNumeral) : ColumnType → Literal → Prop
  | integer {type : ColumnType} {bits : Nat} {n : Int64} : type.integerBits? = some bits →
      fitsSigned bits n.toInt = true → m.fraction? = none → m.number = n.toInt →
      m.Denotes type (.integer n)
  | decimal {precision : UInt8} {d : Decimal} : d.unscaled.natAbs ≤ Decimal.maxUnscaled →
      m.places ≤ d.scale.toNat → m.value = d.value →
      m.Denotes (.decimal precision d.scale) (.decimal d)

namespace Literal

variable {text nullKey : String} {type : ColumnType} {bits : Nat} {v : Literal}

theorem toInt_ofInt_of_fits (hbits : type.integerBits? = some bits) {n : Int}
    (h : fitsSigned bits n = true) : (Int64.ofInt n).toInt = n := by
  rw [fitsSigned, Bool.and_eq_true, decide_eq_true_iff, decide_eq_true_iff] at h
  have hsize : bits = 8 ∨ bits = 16 ∨ bits = 32 ∨ bits = 64 := by
    cases type <;> simp_all [ColumnType.integerBits?]
  apply Int64.toInt_ofInt_of_le
  all_goals rcases hsize with rfl | rfl | rfl | rfl
  all_goals omega

/-- A key that is read or refused. -/
def orInvalid (text : String) (type : ColumnType) (v? : Option Literal) : Except Error Literal :=
  v?.elim (.error (.invalidKey text type)) .ok

theorem parse_integer (hbits : type.integerBits? = some bits) (hnull : text ≠ nullKey) :
    parse text type nullKey = orInvalid text type
      (((integer? (Text.trimBlanks text.toList)).filter (fitsSigned bits)).map
        fun n ↦ .integer (.ofInt n)) := by
  unfold parse
  rw [if_neg hnull, hbits]
  cases type with
  | tinyInt | smallInt | int | bigInt =>
    cases integer? (Text.trimBlanks text.toList) with
    | none => rfl
    | some n => cases hfits : fitsSigned bits n <;> simp [orInvalid, Option.filter, hfits]
  | _ => cases hbits

theorem parse_decimal {precision scale : UInt8} (hnull : text ≠ nullKey) :
    parse text (.decimal precision scale) nullKey = orInvalid text (.decimal precision scale)
      ((Decimal.parse? scale (Text.trimBlanks text.toList)).map .decimal) := by
  unfold parse
  rw [if_neg hnull]
  dsimp only
  cases Decimal.parse? scale (Text.trimBlanks text.toList) <;> rfl

theorem integer_eq_some_iff (hbits : type.integerBits? = some bits) {cs : List Char} :
    ((integer? cs).filter (fitsSigned bits)).map (fun n ↦ Literal.integer (.ofInt n)) = some v ↔
      ∃ m : KeyNumeral, m.chars = cs ∧ m.Denotes type v := by
  simp only [Option.map_eq_some_iff, Option.filter_eq_some_iff, KeyNumeral.integer?_eq_some_iff]
  constructor
  · rintro ⟨n, ⟨⟨m, hchars, hpoint, hnumber⟩, hfits⟩, rfl⟩
    have htoInt := toInt_ofInt_of_fits hbits hfits
    exact ⟨m, hchars, .integer hbits (htoInt.symm ▸ hfits) hpoint (hnumber.trans htoInt.symm)⟩
  · rintro ⟨m, hchars, hdenotes⟩
    cases hdenotes with
    | @integer type bits' n hbits' hfits hpoint hnumber =>
      obtain rfl := Option.some.inj (hbits.symm.trans hbits')
      exact ⟨_, ⟨⟨m, hchars, hpoint, hnumber⟩, hfits⟩, congrArg _ (Int64.ofInt_toInt n)⟩
    | decimal => cases hbits

theorem decimal_eq_some_iff {precision scale : UInt8} {cs : List Char} :
    (Decimal.parse? scale cs).map Literal.decimal = some v ↔
      ∃ m : KeyNumeral, m.chars = cs ∧ m.Denotes (.decimal precision scale) v := by
  simp only [Option.map_eq_some_iff, KeyNumeral.parse?_eq_some_iff]
  constructor
  · rintro ⟨d, ⟨rfl, hbound, m, hchars, hplaces, hvalue⟩, rfl⟩
    exact ⟨m, hchars, .decimal hbound hplaces hvalue⟩
  · rintro ⟨m, hchars, hdenotes⟩
    cases hdenotes with
    | integer hbits => cases hbits
    | @decimal _ d hbound hplaces hvalue =>
      exact ⟨d, ⟨rfl, hbound, m, hchars, hplaces, hvalue⟩, rfl⟩

/-- A text is read as a key of a numeric column if it is a numeral that denotes one, and refused
otherwise. -/
theorem exists_orInvalid (htype : type.isNumeric = true) (hnull : text ≠ nullKey) :
    ∃ v? : Option Literal, parse text type nullKey = orInvalid text type v? ∧
      ∀ v, v? = some v ↔
        ∃ m : KeyNumeral, m.chars = Text.trimBlanks text.toList ∧ m.Denotes type v := by
  cases hbits : type.integerBits? with
  | some bits => exact ⟨_, parse_integer hbits hnull, fun v ↦ integer_eq_some_iff hbits⟩
  | none =>
    cases type with
    | decimal precision scale => exact ⟨_, parse_decimal hnull, fun v ↦ decimal_eq_some_iff⟩
    | _ => exact absurd htype (by simp [ColumnType.isNumeric, ColumnType.isInteger, hbits])

theorem parse_eq_ok_iff (htype : type.isNumeric = true) (hnull : text ≠ nullKey) :
    parse text type nullKey = .ok v ↔
      ∃ m : KeyNumeral, m.chars = Text.trimBlanks text.toList ∧ m.Denotes type v := by
  obtain ⟨v?, hparse, hread⟩ := exists_orInvalid htype hnull
  rw [hparse, orInvalid, Outcome.elim_eq_ok, hread]

/-- For a numeric column a text other than the null key is read, once the blanks at its ends are
gone, if it is a numeral, and as what this denotes. All other texts are refused as invalid. -/
theorem parse_of_isNumeric (htype : type.isNumeric = true) (hnull : text ≠ nullKey) :
    (∀ v, parse text type nullKey = .ok v ↔
        ∃ m : KeyNumeral, m.chars = Text.trimBlanks text.toList ∧ m.Denotes type v) ∧
      (∀ e, parse text type nullKey = .error e ↔ e = .invalidKey text type ∧
        ∀ v, ∀ m : KeyNumeral, m.chars = Text.trimBlanks text.toList → ¬m.Denotes type v) ∧
      (Error.invalidKey text type).kind = .invalidArgument := by
  refine ⟨fun v ↦ parse_eq_ok_iff htype hnull, fun e ↦ ?_, rfl⟩
  obtain ⟨v?, hparse, hread⟩ := exists_orInvalid htype hnull
  rw [hparse, orInvalid, Outcome.elim_eq_error, Option.eq_none_iff_forall_ne_some]
  refine and_congr_right' (forall_congr' fun v ↦ ?_)
  rw [ne_eq, hread, not_exists]
  exact forall_congr' fun m ↦ not_and

/-- Blanks around a numeral, zeros in front and missing digits at the end do not matter. -/
theorem parse_of_isNumeric_padded :
    let m : KeyNumeral := ⟨.minus, ['0', '0', '3'], some ['5'],
      fun {c} ↦ List.all_eq_true.mp (by decide) c, by decide⟩
    m.chars = Text.trimBlanks " -003.5 ".toList ∧
      parse " -003.5 " (.decimal 10 2) "null" = .ok (.decimal ⟨-350, 2, rfl⟩) := by
  intro m
  have htype : (ColumnType.decimal 10 2).isNumeric = true := rfl
  have hnull : " -003.5 " ≠ "null" := by decide
  have hchars : m.chars = Text.trimBlanks " -003.5 ".toList := by decide
  have hvalue : m.value = Decimal.value ⟨-350, 2, rfl⟩ := by
    have hnumber : m.number = -35 := rfl
    have hplaces : m.places = 1 := rfl
    have hscale : UInt8.toNat 2 = 2 := rfl
    rw [KeyNumeral.value, Decimal.value, hnumber, hplaces, hscale]
    norm_num
  have hdenotes : m.Denotes (.decimal 10 2) (.decimal ⟨-350, 2, rfl⟩) :=
    .decimal (d := ⟨-350, 2, rfl⟩) (by decide) (by decide) hvalue
  obtain ⟨hread, -⟩ := parse_of_isNumeric htype hnull
  exact ⟨hchars, (hread _).mpr ⟨m, hchars, hdenotes⟩⟩

end Literal

end QueryPlanning
