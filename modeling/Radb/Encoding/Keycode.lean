import Radb.Error
import Radb.Foundation.Binary64
import Radb.Foundation.OrderedCodec

/-! # KeyCode

The order-preserving encoding of the values keys are made of. Every value is written
such that it can be read back from the beginning of a longer string of bytes, so keys
are the concatenation of their fields. What is read is what would be written, and
encodings are in the order of the values: integers numerically, strings by their bytes,
and floats by sign and magnitude.
-/

namespace Radb.Encoding.Keycode

open Foundation

/-- The UTF-8 bytes of a string. -/
def utf8 (text : String) : Bytes := text.toUTF8.data.toList

/-- The string with the given UTF-8 bytes. -/
def ofUtf8 (bytes : Bytes) : Option String := String.fromUTF8? ⟨bytes.toArray⟩

theorem ofUtf8_utf8 (text : String) : ofUtf8 (utf8 text) = some text := by
  have same : (⟨(utf8 text).toArray⟩ : ByteArray) = text.toByteArray := rfl
  rw [ofUtf8, same, String.fromUTF8?, dif_pos text.isValidUTF8]
  rfl

/-- Strings are encoded like bytes. -/
def string : Codec String := Codec.bytes.via utf8 ofUtf8 ofUtf8_utf8

/-- The sign bit of a word. -/
def signBit : UInt64 := 2 ^ 63

theorem xor_signBit (word : UInt64) : word ^^^ signBit ^^^ signBit = word := by
  rw [UInt64.xor_assoc, UInt64.xor_self, UInt64.xor_zero]

/-- Integers in big-endian two's complement, with the sign bit flipped. -/
def integer : Codec Int64 :=
  Codec.word.via (fun value => value.toUInt64 ^^^ signBit)
    (fun word => some (word ^^^ signBit).toInt64)
    (fun value => by rw [xor_signBit, Int64.toInt64_toUInt64])

/-- Whether the sign bit of a word is set. -/
def hasSign (word : UInt64) : Bool := word.toNat.testBit 63

theorem hasSign_xor (word : UInt64) : hasSign (word ^^^ signBit) = !hasSign word := by
  have sign : signBit.toNat.testBit 63 = true := by decide +kernel
  rw [hasSign, UInt64.toNat_xor, Nat.testBit_xor, sign, Bool.xor_true, hasSign]

theorem hasSign_not (word : UInt64) : hasSign (~~~word) = !hasSign word := by
  have complement : UInt64.size - 1 - word.toNat = 2 ^ 64 - (word.toNat + 1) := by
    rw [UInt64.size]
    omega
  rw [hasSign, UInt64.toNat_not, complement, Nat.testBit_two_pow_sub_succ word.toNat_lt]
  rfl

/-- The order-preserving bits of a float: the sign bit flipped, and all other bits too
if it is negative. -/
def floatBits (number : Binary64) : UInt64 :=
  if hasSign number.bits then ~~~number.bits else number.bits ^^^ signBit

/-- The float with the given order-preserving bits. -/
def ofFloatBits (word : UInt64) : Binary64 :=
  if hasSign word then ⟨word ^^^ signBit⟩ else ⟨~~~word⟩

theorem ofFloatBits_floatBits (number : Binary64) : ofFloatBits (floatBits number) = number := by
  cases negative : hasSign number.bits with
  | false =>
    rw [floatBits, if_neg (by rw [negative]; decide), ofFloatBits,
      if_pos (by rw [hasSign_xor, negative]; decide), xor_signBit]
  | true =>
    rw [floatBits, if_pos negative, ofFloatBits,
      if_neg (by rw [hasSign_not, negative]; decide), UInt64.not_not]

/-- Floats in big-endian form, with the bits flipped such that they are ordered. -/
def float : Codec Binary64 :=
  Codec.word.via floatBits (fun word => some (ofFloatBits word))
    (fun number => by rw [ofFloatBits_floatBits])

theorem utf8_ofUtf8 {bytes : Bytes} {text : String} (read : ofUtf8 bytes = some text) :
    utf8 text = bytes := by
  unfold ofUtf8 String.fromUTF8? at read
  split at read
  · cases read
    rfl
  · cases read

theorem canonical_string : string.Canonical :=
  Codec.canonical_bytes.via fun _ _ read => utf8_ofUtf8 read

theorem ordered_string : string.Ordered utf8 := Codec.ordered_bytes.via

/-- Flipping the sign bit of a word moves it by half of the range. -/
theorem toNat_xor_signBit (word : UInt64) :
    (word ^^^ signBit).toNat = (word.toNat + 2 ^ 63) % 2 ^ 64 := by
  have small := word.toNat_lt
  have sign : signBit.toNat = 2 ^ 63 := by decide +kernel
  have high : (word.toNat ^^^ 2 ^ 63) / 2 ^ 63 = word.toNat / 2 ^ 63 ^^^ 1 := by
    rw [Nat.xor_div_two_pow, Nat.div_self (by decide)]
  have low : (word.toNat ^^^ 2 ^ 63) % 2 ^ 63 = word.toNat % 2 ^ 63 := by
    rw [Nat.xor_mod_two_pow, Nat.mod_self, Nat.xor_zero]
  rw [UInt64.toNat_xor, sign]
  rcases Nat.lt_or_ge word.toNat (2 ^ 63) with lower | upper
  · have digit : word.toNat / 2 ^ 63 ^^^ 1 = 1 := by rw [Nat.div_eq_of_lt lower]; rfl
    omega
  · have one : word.toNat / 2 ^ 63 = 1 := by omega
    have digit : word.toNat / 2 ^ 63 ^^^ 1 = 0 := by rw [one]; rfl
    omega

theorem integer_rank (value : Int64) :
    ((value.toUInt64 ^^^ signBit).toNat : Int) = value.toInt + 2 ^ 63 := by
  have small := value.toUInt64.toNat_lt
  have signed : value.toInt = (value.toUInt64.toNat : Int).bmod (2 ^ 64) :=
    BitVec.toInt_eq_toNat_bmod value.toBitVec
  rw [toNat_xor_signBit, signed, Int.bmod_def]
  split <;> omega

theorem canonical_integer : integer.Canonical :=
  Codec.canonical_word.via fun word value read => by
    cases read
    rw [UInt64.toUInt64_toInt64, xor_signBit]

theorem ordered_integer : integer.Ordered Int64.toInt :=
  (Codec.ordered_word.via).of_rank fun first second => by
    have left := integer_rank first
    have right := integer_rank second
    omega

/-- The place of a float by its sign and magnitude, negative zero below zero. -/
def place (number : Binary64) : Int :=
  if number.isNegative then -number.magnitude - 1 else number.magnitude

theorem hasSign_eq (word : UInt64) : hasSign word = decide (2 ^ 63 ≤ word.toNat) := by
  have small := word.toNat_lt
  rw [hasSign, Nat.testBit_eq_decide_div_mod_eq, decide_eq_decide]
  omega

theorem float_rank (number : Binary64) :
    ((floatBits number).toNat : Int) = place number + 2 ^ 63 := by
  have small := number.bits.toNat_lt
  rw [floatBits, place, Binary64.isNegative, Binary64.magnitude, hasSign_eq]
  by_cases negative : 2 ^ 63 ≤ number.bits.toNat
  · have complement : (~~~number.bits).toNat = 2 ^ 64 - 1 - number.bits.toNat :=
      UInt64.toNat_not number.bits
    simp only [negative, decide_true, ↓reduceIte, complement]
    omega
  · simp only [negative, decide_false, Bool.false_eq_true, ↓reduceIte, toNat_xor_signBit]
    omega

theorem floatBits_ofFloatBits (word : UInt64) : floatBits (ofFloatBits word) = word := by
  cases positive : hasSign word with
  | true =>
    rw [ofFloatBits, if_pos positive, floatBits,
      if_neg (by rw [hasSign_xor, positive]; decide), xor_signBit]
  | false =>
    rw [ofFloatBits, if_neg (by rw [positive]; decide), floatBits,
      if_pos (by rw [hasSign_not, positive]; decide), UInt64.not_not]

theorem canonical_float : float.Canonical :=
  Codec.canonical_word.via fun word number read => by
    cases read
    exact floatBits_ofFloatBits word

theorem ordered_float : float.Ordered place :=
  (Codec.ordered_word.via).of_rank fun first second => by
    have left := float_rank first
    have right := float_rank second
    omega

end Radb.Encoding.Keycode
