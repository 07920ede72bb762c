import Mathlib
import Radb.Foundation.Binary64

/-! # Decimal numerals

The double precision number that an unsigned decimal numeral stands for. Every finite number
without a sign has a numeral.
-/

namespace Foundation

namespace Binary64

variable {divisor magnitude : Nat} {number : Binary64}

/-- The value of decimal digits. -/
abbrev ofDigits (digits : List Char) : Nat := Nat.ofDigitChars 10 digits 0

/-- The sign of an exponent, and its digits. -/
def splitSign : List Char → Bool × List Char
  | '-' :: digits => (true, digits)
  | '+' :: digits => (false, digits)
  | digits => (false, digits)

/-- The number that digits, of which some are behind the point, and an exponent stand for. -/
def ofExponent (digits : List Char) (places : Nat) : List Char → Option Binary64
  | [] => some (ofMagnitude false (ofDecimal (ofDigits digits) 0 places))
  | mark :: exponent =>
    let (negative, power) := splitSign exponent
    if (mark = 'e' ∨ mark = 'E') ∧ power ≠ [] ∧ power.all Char.isDigit then
      some (ofMagnitude false
        (if negative then ofDecimal (ofDigits digits) 0 (places + ofDigits power)
          else ofDecimal (ofDigits digits) (ofDigits power) places))
    else none

/-- The digits behind the point, and what follows them. -/
def splitFraction : List Char → List Char × List Char
  | '.' :: rest => (rest.takeWhile Char.isDigit, rest.dropWhile Char.isDigit)
  | rest => ([], rest)

/-- The number that an unsigned decimal numeral stands for. -/
def ofText? (text : List Char) : Option Binary64 :=
  let whole := text.takeWhile Char.isDigit
  let (fraction, rest) := splitFraction (text.dropWhile Char.isDigit)
  if whole ++ fraction = [] then none else ofExponent (whole ++ fraction) fraction.length rest

/-- A quotient without a remainder is the nearest whole number. -/
theorem nearest_mul (number : Nat) (positive : 0 < divisor) :
    nearest (number * divisor) divisor = number := by
  have different : (0 : Nat) ≠ divisor := by omega
  simp [nearest, Nat.mul_div_cancel _ positive, different]

theorem log2_normal {fraction : Nat} (bound : fraction < 2 ^ 52) (exponent : Nat) :
    ((2 ^ 52 + fraction) * 2 ^ exponent).log2 = 52 + exponent := by
  rw [Nat.log2_eq_iff (by positivity)]
  constructor
  · rw [pow_add]
    exact Nat.mul_le_mul_right _ (Nat.le_add_right _ _)
  · rw [show 52 + exponent + 1 = 53 + exponent by omega, pow_add]
    exact Nat.mul_lt_mul_of_pos_right (by omega) (by positivity)

/-- The units of a finite magnitude are rounded to that magnitude. -/
theorem roundUnits_units (finite : magnitude < infinite) (positive : 0 < divisor) :
    roundUnits (units magnitude * divisor) divisor = magnitude := by
  rw [roundUnits, Nat.mul_div_cancel _ positive]
  by_cases subnormal : magnitude < 2 ^ 52
  · have small : magnitude.log2 - 52 = 0 := by
      by_cases none : magnitude = 0
      · simp [none]
      · have := (Nat.log2_lt none).mpr subnormal
        omega
    simp only [units, subnormal, ↓reduceIte, small, pow_zero, mul_one, Nat.zero_mul, Nat.zero_add,
      nearest_mul _ positive]
    omega
  · obtain ⟨fraction, fractionEq⟩ : ∃ fraction, fraction = magnitude % 2 ^ 52 := ⟨_, rfl⟩
    obtain ⟨exponent, exponentEq⟩ : ∃ exponent, exponent = magnitude / 2 ^ 52 - 1 := ⟨_, rfl⟩
    have bound : fraction < 2 ^ 52 := fractionEq ▸ Nat.mod_lt _ (by decide)
    have normal : units magnitude = (2 ^ 52 + fraction) * 2 ^ exponent := by
      rw [units, if_neg subnormal, fractionEq, exponentEq]
    have shift : (units magnitude).log2 - 52 = exponent := by
      rw [normal, log2_normal bound]
      omega
    have recombined : exponent * 2 ^ 52 + (2 ^ 52 + fraction) = magnitude := by omega
    rw [shift, normal, mul_assoc, mul_comm (2 ^ exponent) divisor,
      nearest_mul _ (by positivity), recombined]
    omega

/-- A number without a sign is determined by its magnitude. -/
theorem ofMagnitude_magnitude (positive : number.isNegative = false) :
    ofMagnitude false number.magnitude = number := by
  apply Binary64.ext
  apply UInt64.toNat_inj.mp
  have bits := number.toNat_bits
  have bound := number.bits.toNat_lt
  simp only [positive, Bool.false_eq_true, ↓reduceIte, Nat.add_zero] at bits
  simp only [ofMagnitude, Bool.false_eq_true, ↓reduceIte, Nat.add_zero, UInt64.toNat_ofNat']
  omega

/-- A decimal numeral of a finite magnitude. -/
def numeral (magnitude : Nat) : List Char :=
  Nat.toDigits 10 (units magnitude * 5 ^ 1074) ++ ['e', '-', '1', '0', '7', '4']

theorem takeWhile_numeral (magnitude : Nat) : (numeral magnitude).takeWhile Char.isDigit =
    Nat.toDigits 10 (units magnitude * 5 ^ 1074) := by
  rw [numeral, List.takeWhile_append_of_pos fun char inside =>
    Nat.isDigit_of_mem_toDigits (by decide) (by decide) inside]
  exact List.append_nil _

theorem dropWhile_numeral (magnitude : Nat) : (numeral magnitude).dropWhile Char.isDigit =
    ['e', '-', '1', '0', '7', '4'] := by
  rw [numeral, List.dropWhile_append_of_pos fun char inside =>
    Nat.isDigit_of_mem_toDigits (by decide) (by decide) inside]
  simp [show Char.isDigit 'e' = false by decide]

/-- The units of a magnitude are an integer divided by a power of ten. -/
theorem ofDecimal_units (finite : magnitude < infinite) :
    ofDecimal (units magnitude * 5 ^ 1074) 0 1074 = magnitude := by
  have combined : units magnitude * 5 ^ 1074 * 10 ^ 0 * 2 ^ 1074 =
      units magnitude * 10 ^ 1074 := by
    rw [pow_zero, mul_one, mul_assoc, ← mul_pow, show 5 * 2 = 10 from rfl]
  rw [ofDecimal, combined, roundUnits_units finite (Nat.pow_pos (by decide))]

/-- The numeral of a finite number without a sign stands for that number. -/
theorem ofText?_numeral (finite : number.magnitude < infinite)
    (positive : number.isNegative = false) : ofText? (numeral number.magnitude) = some number := by
  have fraction : splitFraction ['e', '-', '1', '0', '7', '4'] =
      ([], ['e', '-', '1', '0', '7', '4']) := by decide
  have sign : splitSign ['-', '1', '0', '7', '4'] = (true, ['1', '0', '7', '4']) := by decide
  have power : ofDigits ['1', '0', '7', '4'] = 1074 := by decide
  rw [ofText?, takeWhile_numeral, dropWhile_numeral, fraction]
  simp only [List.append_nil, Nat.toDigits_ne_nil, ↓reduceIte, ofExponent, sign, power,
    Nat.ofDigitChars_ten_toDigits, List.length_nil, Nat.zero_add, ofDecimal_units finite,
    ofMagnitude_magnitude positive]
  exact if_pos (by decide)

/-- A numeral with an exponent has a character that is not a digit. -/
theorem all_isDigit_numeral (magnitude : Nat) : (numeral magnitude).all Char.isDigit = false := by
  rw [numeral, List.all_append, show List.all ['e', '-', '1', '0', '7', '4'] Char.isDigit = false
    from by decide, Bool.and_false]

end Binary64

end Foundation
