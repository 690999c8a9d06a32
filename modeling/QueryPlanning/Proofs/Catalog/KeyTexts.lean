import QueryPlanning.Proofs.Catalog.KeyNumerals
import QueryPlanning.Proofs.Catalog.PartitionOrder

/-!
# Literals and their texts

A number is written with its digits and a decimal with as many of them after the point as its scale
says, so that each text is a numeral and is read as the literal it was written for, down to the
scale. Among the values of one column the text tells the value. The null key alone comes in between:
it is always read as null, also when it is what some other value is written as.
-/

namespace QueryPlanning

namespace Text

variable {cs : List Char}

theorem isBlank_of_visible {c : Char} (h : 0x21 ≤ c.toNat) (h' : c.toNat ≤ 0x7E) :
    isBlank c = false := by
  have hruns : ∀ run ∈ blankRuns, run.2 < 0x21 ∨ 0x7E < run.1 := by decide
  rw [isBlank, List.any_eq_false]
  intro run hrun
  have := hruns run hrun
  simp only [Bool.and_eq_true, decide_eq_true_iff]
  omega

theorem dropWhile_isBlank (h : ∀ c ∈ cs, isBlank c = false) : cs.dropWhile isBlank = cs := by
  cases cs with
  | nil => rfl
  | cons c cs => exact List.dropWhile_cons_of_neg (Bool.not_eq_true _ ▸ h c List.mem_cons_self)

theorem trimBlanks_eq_self (h : ∀ c ∈ cs, isBlank c = false) : trimBlanks cs = cs := by
  have hreverse : ∀ c ∈ cs.reverse, isBlank c = false := fun c hc ↦ h c (List.mem_reverse.mp hc)
  rw [trimBlanks, dropWhile_isBlank h, dropWhile_isBlank hreverse, List.reverse_reverse]

end Text

namespace KeyNumeral

variable {m : KeyNumeral} {c : Char}

theorem isBlank_of_isDigit (h : c.isDigit = true) : Text.isBlank c = false := by
  have hrange : 48 ≤ c.toNat ∧ c.toNat ≤ 57 := by
    simpa [Char.isDigit, UInt32.le_iff_toNat_le] using h
  apply Text.isBlank_of_visible <;> omega

theorem isBlank_chars (hc : c ∈ m.chars) : Text.isBlank c = false := by
  rcases List.mem_append.mp hc with hc | hc
  · cases hsign : m.sign <;> rw [hsign] at hc
    case absent => cases hc
    all_goals
      obtain rfl := List.mem_singleton.mp hc
      rfl
  · rcases mem_body hc with hdigit | rfl
    · exact isBlank_of_isDigit hdigit
    · rfl

/-- The digits of a number, with zeros in front up to a length. -/
def padded (length n : Nat) : List Char :=
  List.replicate (length - (Nat.toDigits 10 n).length) '0' ++ Nat.toDigits 10 n

theorem isDigit_padded {length n : Nat} (hc : c ∈ padded length n) : c.isDigit = true := by
  rcases List.mem_append.mp hc with hc | hc
  · rw [List.eq_of_mem_replicate hc]
    rfl
  · exact Nat.isDigit_of_mem_toDigits (by decide) (by decide) hc

theorem ofDigitChars_padded (length n : Nat) : Nat.ofDigitChars 10 (padded length n) 0 = n := by
  rw [padded, Nat.ofDigitChars_append, Nat.ofDigitChars_replicate_zero, Nat.mul_zero,
    Nat.ofDigitChars_ten_toDigits]

theorem le_length_padded (length n : Nat) : length ≤ (padded length n).length := by
  rw [padded, List.length_append, List.length_replicate]
  omega

theorem padded_one (n : Nat) : padded 1 n = Nat.toDigits 10 n := by
  rw [padded, Nat.sub_eq_zero_of_le (Nat.length_toDigits_pos), List.replicate_zero, List.nil_append]

/-- The digits that come after a point, if there are any. -/
def lastDigits? (digits : List Char) (places : Nat) : Option (List Char) :=
  if places = 0 then none else some (digits.drop (digits.length - places))

theorem take_append_lastDigits? (digits : List Char) (places : Nat) :
    digits.take (digits.length - places) ++ (lastDigits? digits places).getD [] = digits := by
  unfold lastDigits?
  split
  · next h =>
    rw [h, Nat.sub_zero, List.take_length]
    exact List.append_nil digits
  · exact List.take_append_drop ..

/-- A number with a point before the last of its digits. -/
def written (n : Int) (places : Nat) : KeyNumeral where
  sign := if n < 0 then .minus else .absent
  whole := (padded (places + 1) n.natAbs).take ((padded (places + 1) n.natAbs).length - places)
  fraction? := lastDigits? (padded (places + 1) n.natAbs) places
  isDigit {c} hc := by
    rw [take_append_lastDigits?] at hc
    exact isDigit_padded hc
  ne_nil := by
    rw [take_append_lastDigits?]
    exact List.ne_nil_of_length_pos ((Nat.succ_pos places).trans_le (le_length_padded ..))

@[simp]
theorem fraction?_written (n : Int) (places : Nat) : (written n places).fraction? =
    lastDigits? (padded (places + 1) n.natAbs) places := rfl

theorem number_written (n : Int) (places : Nat) : (written n places).number = n := by
  have hmagnitude : (written n places).magnitude = n.natAbs :=
    (congrArg (Nat.ofDigitChars 10 · 0) (take_append_lastDigits? ..)).trans (ofDigitChars_padded ..)
  rw [number, hmagnitude]
  by_cases hn : n < 0
  · have hsign : (written n places).sign = .minus := if_pos hn
    rw [hsign]
    exact (Int.eq_neg_natAbs_of_nonpos hn.le).symm
  · have hsign : (written n places).sign = .absent := if_neg hn
    rw [hsign]
    exact Int.natAbs_of_nonneg (Int.not_lt.mp hn)

theorem places_written (n : Int) (places : Nat) : (written n places).places = places := by
  have hlength := le_length_padded (places + 1) n.natAbs
  rw [KeyNumeral.places, fraction, fraction?_written, lastDigits?]
  split
  · next h => rw [h]; rfl
  · rw [Option.getD_some, List.length_drop]
    omega

theorem value_written (d : Decimal) : (written d.unscaled d.scale.toNat).value = d.value :=
  calc (written d.unscaled d.scale.toNat).value
      = (written d.unscaled d.scale.toNat).number /
          10 ^ (written d.unscaled d.scale.toNat).places := rfl
    _ = (d.unscaled : ℚ) / 10 ^ d.scale.toNat := by rw [number_written, places_written]
    _ = d.value := rfl

theorem toList_toString (n : Int) :
    (toString n).toList = (if n < 0 then ['-'] else []) ++ Nat.toDigits 10 n.natAbs := by
  have hnat (n : Nat) : (toString n).toList = Nat.toDigits 10 n := by
    rw [Nat.toString_eq_ofList_toDigits, String.toList_ofList]
  cases n with
  | ofNat n => exact hnat n
  | negSucc n =>
    have htext : toString (Int.negSucc n) = "-" ++ toString n.succ := rfl
    rw [htext, String.toList_append, hnat, if_pos (Int.negSucc_lt_zero n)]
    rfl

theorem chars_written (n : Int) (places : Nat) : (written n places).chars =
    (if n < 0 then ['-'] else []) ++ (written n places).body := by
  rw [chars]
  congr 1
  rw [written, apply_ite KeySign.chars]
  rfl

theorem chars_written_zero (n : Int) : (written n 0).chars = (toString n).toList := by
  have hbody : (written n 0).body = padded 1 n.natAbs :=
    take_append_lastDigits? (padded 1 n.natAbs) 0
  rw [chars_written, hbody, padded_one, toList_toString]

/-- The text of a decimal is its number with a point before as many digits as its scale says. -/
theorem chars_written_scale (d : Decimal) :
    (written d.unscaled d.scale.toNat).chars = d.text.toList := by
  unfold Decimal.text
  split
  · next h => rw [h]; exact chars_written_zero d.unscaled
  · next h =>
    have hplaces : d.scale.toNat ≠ 0 := fun h' ↦ h (UInt8.toNat_inj.mp h')
    dsimp only
    rw [chars_written, String.toList_ofList, List.append_assoc, Nat.toString_eq_ofList_toDigits,
      String.toList_ofList]
    congr 1
    rw [body, fraction?_written, lastDigits?, if_neg hplaces]
    rfl

end KeyNumeral

/-- The text of a decimal tells its number and its scale. -/
theorem Decimal.text_injective {d e : Decimal} (h : d.text = e.text) : d = e := by
  have hchars : (KeyNumeral.written d.unscaled d.scale.toNat).chars =
      (KeyNumeral.written e.unscaled e.scale.toNat).chars := by
    rw [KeyNumeral.chars_written_scale, KeyNumeral.chars_written_scale, h]
  obtain ⟨hnumber, hplaces⟩ := KeyNumeral.eq_of_chars hchars
  rw [KeyNumeral.number_written, KeyNumeral.number_written] at hnumber
  rw [KeyNumeral.places_written, KeyNumeral.places_written] at hplaces
  cases d
  cases e
  obtain rfl := hnumber
  obtain rfl := UInt8.toNat_inj.mp hplaces
  rfl

/-! ## Keys that are read again -/

namespace Literal

open KeyNumeral

variable {text text' nullKey : String} {type : ColumnType} {v w : Literal} {m : KeyNumeral}

/-- Reads a text that is not the null key. -/
def readKey (text : String) (type : ColumnType) : Except Error Literal :=
  parse text type (text ++ " ")

theorem ne_append_blank (text : String) : text ≠ text ++ " " := by
  intro h
  have hlength := congrArg String.length h
  rw [String.length_append] at hlength
  exact absurd (Nat.left_eq_add.mp hlength) (by decide)

theorem parse_of_ne (h : text ≠ nullKey) : parse text type nullKey = readKey text type := by
  unfold readKey parse
  rw [if_neg h, if_neg (ne_append_blank text)]

theorem parse_nullKey (nullKey : String) (type : ColumnType) :
    parse nullKey type nullKey = .ok .null := if_pos rfl

/-- A value of a column that its text leads back to. -/
structure Legible (type : ColumnType) (v : Literal) : Prop where
  ne_null : v ≠ .null
  fits : Fits type v
  readKey_text : readKey v.text type = .ok v

theorem Legible.eq_of_text (hv : Legible type v) (hw : Legible type w) (h : v.text = w.text) :
    v = w := by
  have hread := hv.readKey_text
  rw [h, hw.readKey_text] at hread
  exact (Except.ok.inj hread).symm

theorem legible_of_chars (htype : type.isNumeric = true) (hne : v ≠ .null) (hfits : Fits type v)
    (hchars : m.chars = v.text.toList) (hdenotes : m.Denotes type v) : Legible type v := by
  refine ⟨hne, hfits, (parse_eq_ok_iff htype (ne_append_blank v.text)).mpr ⟨m, ?_, hdenotes⟩⟩
  rw [← hchars, Text.trimBlanks_eq_self fun c ↦ isBlank_chars]

theorem fits_decimal (precision : UInt8) (d : Decimal) :
    Fits (.decimal precision d.scale) (.decimal d) := by
  rintro _ ⟨⟩
  exact ⟨precision, rfl⟩

/-- A number is denoted by its own text as well, whatever the numeral was. -/
theorem legible_of_denotes (h : m.Denotes type v) : Legible type v := by
  cases h with
  | @integer _ bits n hbits hfits =>
    have htype : type.isNumeric = true := by
      cases type <;> first | rfl | cases hbits
    exact legible_of_chars htype (by rintro ⟨⟩) (by rintro _ ⟨⟩) (chars_written_zero n.toInt)
      (.integer hbits hfits rfl (number_written ..))
  | @decimal precision d hbound =>
    exact legible_of_chars rfl (by rintro ⟨⟩) (fits_decimal precision d) (chars_written_scale d)
      (.decimal hbound (places_written ..).le (value_written d))

theorem legible_boolean (b : Bool) : Legible .boolean (.boolean b) := by
  refine ⟨by rintro ⟨⟩, by rintro _ ⟨⟩, ?_⟩
  cases b <;> rfl

theorem legible_of_readKey (hfloat : type ≠ .float) (hdouble : type ≠ .double)
    (h : readKey text type = .ok v) : Legible type v := by
  by_cases htype : type.isNumeric = true
  · obtain ⟨m, -, hdenotes⟩ := (parse_eq_ok_iff htype (ne_append_blank text)).mp h
    exact legible_of_denotes hdenotes
  unfold readKey parse at h
  rw [if_neg (ne_append_blank text)] at h
  cases type with
  | tinyInt | smallInt | int | bigInt | decimal => exact absurd rfl htype
  | float => exact absurd rfl hfloat
  | double => exact absurd rfl hdouble
  | boolean =>
    dsimp only at h
    split at h
    · cases h
      exact legible_boolean true
    · cases h
      exact legible_boolean false
    · cases h
  | string | varchar | char =>
    cases h
    refine ⟨by rintro ⟨⟩, by rintro _ ⟨⟩, ?_⟩
    unfold readKey parse
    rw [if_neg (ne_append_blank _)]
    rfl
  | _ => cases h

theorem legible_of_parse (hfloat : type ≠ .float) (hdouble : type ≠ .double)
    (h : parse text type nullKey = .ok v) : v = .null ∨ Legible type v := by
  by_cases hnull : text = nullKey
  · rw [hnull, parse_nullKey] at h
    exact .inl (Except.ok.inj h).symm
  · rw [parse_of_ne hnull] at h
    exact .inr (legible_of_readKey hfloat hdouble h)

theorem fits_of_parse (hfloat : type ≠ .float) (hdouble : type ≠ .double)
    (h : parse text type nullKey = .ok v) : Fits type v := by
  rcases legible_of_parse hfloat hdouble h with rfl | hv
  · rintro _ ⟨⟩
  · exact hv.fits

theorem keyText_of_ne_null (h : v ≠ .null) : v.keyText nullKey = v.text := by
  cases v with
  | null => exact absurd rfl h
  | _ => rfl

/-- Not null, but written like one. -/
def Masked (nullKey : String) (v : Literal) : Prop := v ≠ .null ∧ v.keyText nullKey = nullKey

/-- Whatever text a value was read from, its own text is read as the value again, and as null if it
is the null key. Two values that were read for one column are the same if and only if they are
equal, which they are if they have one text and are both null or both not. -/
theorem parse_keyText (hfloat : type ≠ .float) (hdouble : type ≠ .double)
    (h : parse text type nullKey = .ok v) :
    (¬Masked nullKey v → parse (v.keyText nullKey) type nullKey = .ok v) ∧
      (Masked nullKey v → parse (v.keyText nullKey) type nullKey = .ok .null) ∧
      ∀ text' w, parse text' type nullKey = .ok w → (v.same w = true ↔ v = w) ∧
        (v = w ↔ v.keyText nullKey = w.keyText nullKey ∧ (v = .null ↔ w = .null)) := by
  refine ⟨fun hmasked ↦ ?_, fun hmasked ↦ ?_, fun text' w h' ↦ ⟨?_, ?_⟩⟩
  · rcases legible_of_parse hfloat hdouble h with rfl | hv
    · exact parse_nullKey nullKey type
    · have hne : v.keyText nullKey ≠ nullKey := fun heq ↦ hmasked ⟨hv.ne_null, heq⟩
      rw [parse_of_ne hne, keyText_of_ne_null hv.ne_null, hv.readKey_text]
  · rw [hmasked.2, parse_nullKey]
  · constructor
    · exact (fits_of_parse hfloat hdouble h).eq_of_same (fits_of_parse hfloat hdouble h')
    · rintro rfl
      exact same_self
  · constructor
    · rintro rfl
      exact ⟨rfl, Iff.rfl⟩
    · rintro ⟨htext, hnull⟩
      rcases legible_of_parse hfloat hdouble h with rfl | hv
      · exact (hnull.mp rfl).symm
      rcases legible_of_parse hfloat hdouble h' with rfl | hw
      · exact hnull.mpr rfl
      rw [keyText_of_ne_null hv.ne_null, keyText_of_ne_null hw.ne_null] at htext
      exact hv.eq_of_text hw htext

/-- A number is written without the zeros in front of its numeral and with all places of its column;
so its text may be the null key although the numeral was not. -/
theorem parse_keyText_padded :
    let v : Literal := .decimal ⟨-350, 2, rfl⟩
    parse " -003.5 " (.decimal 10 2) "null" = .ok v ∧
      parse "-3.50" (.decimal 10 2) "null" = .ok v ∧
      parse " -003.5 " (.decimal 10 2) "-3.50" = .ok v ∧
      parse "-3.50" (.decimal 10 2) "-3.50" = .ok .null := by
  intro v
  have hfloat : ColumnType.decimal 10 2 ≠ .float := by rintro ⟨⟩
  have hdouble : ColumnType.decimal 10 2 ≠ .double := by rintro ⟨⟩
  have hread : parse " -003.5 " (.decimal 10 2) "null" = .ok v := by rfl
  have hread' : parse " -003.5 " (.decimal 10 2) "-3.50" = .ok v := by rfl
  obtain ⟨hagain, -, -⟩ := parse_keyText hfloat hdouble hread
  obtain ⟨-, hnull, -⟩ := parse_keyText hfloat hdouble hread'
  have hmasked : Masked "-3.50" v := ⟨by simp [v], by rfl⟩
  have hunmasked : ¬Masked "null" v := fun h ↦ absurd h.2 (by decide)
  exact ⟨hread, hagain hunmasked, hread', hnull hmasked⟩

end Literal

end QueryPlanning
