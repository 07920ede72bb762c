import Mathlib

/-! # Double precision numbers

IEEE 754 binary64 numbers as bit patterns, with the comparisons, the conversion of
integers and the decimal notation computed on the bits. Sums, products, quotients
and powers are those of the machine.

The magnitude of a finite number is a whole multiple of `2 ^ -1074`. Numbers are
rounded to the nearest magnitude, and to the even one of two that are equally near.
-/

namespace Foundation

/-- A binary64 number, as its bit pattern. -/
@[ext] structure Binary64 where
  bits : UInt64
  deriving DecidableEq

namespace Binary64

/-- The bit pattern without its sign. -/
def magnitude (number : Binary64) : Nat := number.bits.toNat % 2 ^ 63

/-- Whether the sign bit is set. -/
def isNegative (number : Binary64) : Bool := 2 ^ 63 ≤ number.bits.toNat

/-- The magnitude of the infinities; those of the NaNs are above it. -/
def infinite : Nat := 2047 * 2 ^ 52

/-- The number with the given sign and magnitude. -/
def ofMagnitude (negative : Bool) (magnitude : Nat) : Binary64 :=
  ⟨UInt64.ofNat (magnitude + if negative then 2 ^ 63 else 0)⟩

def isNaN (number : Binary64) : Bool := infinite < number.magnitude

/-- Zero. -/
def zero : Binary64 := ⟨0⟩

/-- Negative zero, which equals zero but has another bit pattern. -/
def negativeZero : Binary64 := ⟨2 ^ 63⟩

/-- The place of a number among all numbers. Magnitudes are in the order of the
values, and both zeros are at the same place. -/
def position (number : Binary64) : Int :=
  if number.isNegative then -number.magnitude else number.magnitude

/-- Numeric equality: NaN equals nothing, and the two zeros are equal. -/
def equals (first second : Binary64) : Bool :=
  !first.isNaN && !second.isNaN && first.position == second.position

/-- Numeric comparison. -/
def below (first second : Binary64) : Bool :=
  !first.isNaN && !second.isNaN && first.position < second.position

/-- A quotient rounded to the nearest whole number, ties to even. -/
def nearest (number divisor : Nat) : Nat :=
  let quotient := number / divisor
  let rest := 2 * (number % divisor)
  if divisor < rest ∨ rest = divisor ∧ quotient % 2 = 1 then quotient + 1 else quotient

/-- The magnitude nearest to a quotient, in units of `2 ^ -1074`. -/
def roundUnits (number divisor : Nat) : Nat :=
  let shift := (number / divisor).log2 - 52
  min infinite (shift * 2 ^ 52 + nearest number (divisor * 2 ^ shift))

/-- The units of a finite magnitude. -/
def units (magnitude : Nat) : Nat :=
  if magnitude < 2 ^ 52 then magnitude
  else (2 ^ 52 + magnitude % 2 ^ 52) * 2 ^ (magnitude / 2 ^ 52 - 1)

/-- An integer as the nearest number. -/
def ofInt (number : Int) : Binary64 :=
  ofMagnitude (number < 0) (roundUnits (number.natAbs * 2 ^ 1074) 1)

/-- The number with the opposite sign. -/
def negate (number : Binary64) : Binary64 := ofMagnitude (!number.isNegative) number.magnitude

/-- A binary operation of the machine. -/
def machine (operation : Float → Float → Float) (first second : Binary64) : Binary64 :=
  ⟨(operation (Float.ofBits first.bits) (Float.ofBits second.bits)).toBits⟩

def add : Binary64 → Binary64 → Binary64 := machine (· + ·)
def subtract : Binary64 → Binary64 → Binary64 := machine (· - ·)
def multiply : Binary64 → Binary64 → Binary64 := machine (· * ·)
def divide : Binary64 → Binary64 → Binary64 := machine (· / ·)
def power : Binary64 → Binary64 → Binary64 := machine Float.pow

/-- The remainder of a division truncated towards zero, which is exact. It has the
sign of the dividend. -/
def remainder (first second : Binary64) : Binary64 :=
  if first.isNaN || second.isNaN || first.magnitude = infinite || second.magnitude = 0 then
    ⟨2047 * 2 ^ 52 + 2 ^ 51⟩
  else if second.magnitude = infinite then
    first
  else
    ofMagnitude first.isNegative
      (roundUnits (units first.magnitude % units second.magnitude) 1)

/-- The magnitude nearest to `digits * 10 ^ (scale - shift)`. -/
def ofDecimal (digits scale shift : Nat) : Nat :=
  roundUnits (digits * 10 ^ scale * 2 ^ 1074) (10 ^ shift)

/-- The decimals with a given number of digits next to a quotient, the nearer one
first: their digits and the power of ten they are divided by. -/
def candidates (number divisor scale : Nat) : List Nat :=
  let low := number * 10 ^ scale / divisor
  if 2 * (number * 10 ^ scale % divisor) ≤ divisor then [low, low + 1] else [low + 1, low]

/-- The fewest fractional digits, at most `fuel` more than `scale`, that tell a
magnitude apart from all others, with the digits of the decimal that does. -/
def fraction (magnitude : Nat) : Nat → Nat → Nat × Nat
  | 0, scale => (units magnitude * 10 ^ scale / 2 ^ 1074, scale)
  | fuel + 1, scale =>
    match (candidates (units magnitude) (2 ^ 1074) scale).find? fun digits =>
        ofDecimal digits 0 scale = magnitude with
    | some digits => (digits, scale)
    | none => fraction magnitude fuel (scale + 1)

/-- The most digits that can be replaced by zeros at the end of a whole number, at
most `fuel`, such that the decimal still stands for the magnitude. -/
def whole (magnitude : Nat) : Nat → Option Nat
  | 0 => none
  | fuel + 1 =>
    match (candidates (units magnitude) (2 ^ 1074 * 10 ^ fuel) 0).find? fun digits =>
        digits ≠ 0 ∧ ofDecimal digits fuel 0 = magnitude with
    | some digits => some (digits * 10 ^ fuel)
    | none => whole magnitude fuel

/-- The shortest decimal that stands for a number, written without an exponent. -/
def display (number : Binary64) : String :=
  let sign := if number.isNegative then "-" else ""
  if number.isNaN then "NaN"
  else if number.magnitude = infinite then sign ++ "inf"
  else if number.magnitude = 0 then sign ++ "0"
  else
    match whole number.magnitude 310 with
    | some digits => sign ++ toString digits
    | none =>
      let (digits, scale) := fraction number.magnitude 1100 0
      let low := toString (digits % 10 ^ scale)
      sign ++ toString (digits / 10 ^ scale) ++ "." ++
        String.ofList (List.replicate (scale - low.length) '0') ++ low

theorem toNat_bits (number : Binary64) :
    number.bits.toNat = number.magnitude + if number.isNegative then 2 ^ 63 else 0 := by
  have bound := number.bits.toNat_lt
  simp only [magnitude, isNegative, decide_eq_true_eq]
  split <;> omega

/-- Sign and magnitude determine a number. -/
theorem ext_magnitude {first second : Binary64} (sign : first.isNegative = second.isNegative)
    (same : first.magnitude = second.magnitude) : first = second := by
  apply Binary64.ext
  apply UInt64.toNat_inj.mp
  rw [toNat_bits, toNat_bits, sign, same]

theorem eq_negativeZero {number : Binary64} (negative : number.isNegative = true)
    (none : number.magnitude = 0) : number = negativeZero :=
  ext_magnitude (negative.trans (by decide +kernel)) (none.trans (by decide +kernel))

@[simp] theorem equals_self (number : Binary64) : number.equals number = !number.isNaN := by
  simp [equals]

theorem equals_comm (first second : Binary64) : first.equals second = second.equals first := by
  simp only [equals, Bool.and_comm (!first.isNaN), Bool.beq_comm (a := first.position)]

theorem equals_iff (first second : Binary64) : first.equals second = true ↔
    first.isNaN = false ∧ second.isNaN = false ∧ first.position = second.position := by
  simp [equals, and_assoc]

theorem equals_trans {first second third : Binary64} (left : first.equals second = true)
    (right : second.equals third = true) : first.equals third = true := by
  rw [equals_iff] at left right ⊢
  exact ⟨left.1, right.2.1, left.2.2.trans right.2.2⟩

/-- Numbers at the same place differ at most in the sign of zero. -/
theorem eq_of_position {first second : Binary64} (same : first.position = second.position)
    (left : first ≠ negativeZero) (right : second ≠ negativeZero) : first = second := by
  have nonzero {number : Binary64} (different : number ≠ negativeZero)
      (negative : number.isNegative = true) : number.magnitude ≠ 0 :=
    fun none => different (eq_negativeZero negative none)
  simp only [position] at same
  cases signFirst : first.isNegative <;> cases signSecond : second.isNegative <;>
    simp only [signFirst, signSecond, Bool.false_eq_true, ↓reduceIte] at same
  · exact ext_magnitude (signFirst.trans signSecond.symm) (by omega)
  · have := nonzero right signSecond
    omega
  · have := nonzero left signFirst
    omega
  · exact ext_magnitude (signFirst.trans signSecond.symm) (by omega)

theorem nearest_mono {first second : Nat} (divisor : Nat) (ordered : first ≤ second) :
    nearest first divisor ≤ nearest second divisor := by
  have quotients : first / divisor ≤ second / divisor := Nat.div_le_div_right ordered
  have firstSplit := Nat.div_add_mod first divisor
  have secondSplit := Nat.div_add_mod second divisor
  unfold nearest
  dsimp only
  obtain same | less := Nat.eq_or_lt_of_le quotients
  · rw [← same] at secondSplit ⊢
    split <;> split <;> omega
  · split <;> split <;> omega

theorem le_nearest (number divisor : Nat) : number / divisor ≤ nearest number divisor := by
  unfold nearest
  dsimp only
  split <;> omega

theorem nearest_le (number divisor : Nat) : nearest number divisor ≤ number / divisor + 1 := by
  unfold nearest
  dsimp only
  split <;> omega

/-- Rounding keeps the order: between powers of two it is that of the quotients, and the quotients
of a larger power of two are not below those of a smaller one. -/
theorem roundUnits_mono {first second : Nat} (ordered : first ≤ second) :
    roundUnits first 1 ≤ roundUnits second 1 := by
  unfold roundUnits
  simp only [Nat.div_one, one_mul]
  have logs : first.log2 ≤ second.log2 := by
    rw [Nat.log2_eq_log_two, Nat.log2_eq_log_two]
    exact Nat.log_mono_right ordered
  obtain same | less := Nat.eq_or_lt_of_le (Nat.sub_le_sub_right logs 52)
  · rw [same]
    exact min_le_min_left _ (Nat.add_le_add_left (nearest_mono _ ordered) _)
  · have low : first / 2 ^ (first.log2 - 52) < 2 ^ 53 := by
      rw [Nat.div_lt_iff_lt_mul (Nat.two_pow_pos _), ← pow_add]
      exact Nat.lt_log2_self.trans_le (Nat.pow_le_pow_right (by omega) (by omega))
    have high : 2 ^ 52 ≤ second / 2 ^ (second.log2 - 52) := by
      rw [Nat.le_div_iff_mul_le (Nat.two_pow_pos _), ← pow_add]
      refine (Nat.pow_le_pow_right (by omega) ?_).trans (Nat.log2_self_le ?_)
      · omega
      · rintro rfl
        simp at less
    apply min_le_min_left
    calc (first.log2 - 52) * 2 ^ 52 + nearest first (2 ^ (first.log2 - 52))
      _ ≤ (first.log2 - 52) * 2 ^ 52 + 2 ^ 53 :=
        Nat.add_le_add_left ((nearest_le ..).trans low) _
      _ = (first.log2 - 52 + 1) * 2 ^ 52 + 2 ^ 52 := by ring
      _ ≤ (second.log2 - 52) * 2 ^ 52 + 2 ^ 52 :=
        Nat.add_le_add_right (Nat.mul_le_mul_right _ less) _
      _ ≤ _ := Nat.add_le_add_left (high.trans (le_nearest ..)) _

theorem magnitude_ofMagnitude {negative : Bool} {magnitude : Nat} (small : magnitude < 2 ^ 63) :
    (ofMagnitude negative magnitude).magnitude = magnitude ∧
      (ofMagnitude negative magnitude).isNegative = negative := by
  cases negative <;>
    simp only [Binary64.magnitude, isNegative, ofMagnitude, UInt64.toNat_ofNat'] <;>
    simp <;> omega

/-- An integer becomes a number at the place of its rounded absolute value. -/
theorem position_ofInt (number : Int) : (ofInt number).isNaN = false ∧
    (ofInt number).position = if number < 0 then -(roundUnits (number.natAbs * 2 ^ 1074) 1 : Int)
      else roundUnits (number.natAbs * 2 ^ 1074) 1 := by
  have finite : roundUnits (number.natAbs * 2 ^ 1074) 1 ≤ infinite := Nat.min_le_left ..
  have ⟨magnitude, sign⟩ := @magnitude_ofMagnitude (number < 0) _
    (finite.trans_lt (by decide : infinite < 2 ^ 63))
  simp only [ofInt, isNaN, position, magnitude, sign, decide_eq_true_eq, decide_eq_false_iff_not,
    not_lt, finite, true_and]

/-- The conversion of integers keeps their order. -/
theorem position_ofInt_mono {first second : Int} (ordered : first ≤ second) :
    (ofInt first).position ≤ (ofInt second).position := by
  rw [(position_ofInt first).2, (position_ofInt second).2]
  split <;> split
  · exact Int.neg_le_neg (Int.ofNat_le.mpr (roundUnits_mono (Nat.mul_le_mul_right _ (by omega))))
  · omega
  · omega
  · exact Int.ofNat_le.mpr (roundUnits_mono (Nat.mul_le_mul_right _ (by omega)))

end Binary64

end Foundation
