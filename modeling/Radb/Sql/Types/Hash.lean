import Radb.Sql.Engine.Key

/-! # Hashing of values

What hashing a value writes to the hasher, and how this agrees with `==` and with the encoding
of keys. Hashing NULL calls itself and never returns, NaN differs from itself, and the two
zeros are equal but neither hashed nor encoded alike. For all other values the three agree.
-/

namespace Radb.Sql

open Foundation Radb.Encoding

variable {value first second : Value}

/-- A value of a primitive type that is written to a hasher. -/
inductive Written where
  | discriminant (variant : Nat)
  | byte (value : UInt8)
  | integer (value : Int64)
  | length (count : Nat)
  | bytes (content : Bytes)
  deriving DecidableEq

/-- A hasher, by what was written to it. -/
abbrev Hasher := List Written

namespace DataType

/-- What the derived hash of a datatype writes: the number of its variant. -/
def hash : DataType → List Written
  | boolean => [.discriminant 0]
  | integer => [.discriminant 1]
  | float => [.discriminant 2]
  | string => [.discriminant 3]

end DataType

namespace Value

/-- What hashing a datatype or its absence writes. -/
def hashDatatype : Option DataType → List Written
  | none => [.discriminant 0]
  | some datatype => .discriminant 1 :: datatype.hash

/-- Hash a value, with calls up to a depth. A float is hashed as an array of eight bytes, and a
string is followed by a byte that is not UTF-8. -/
def hash : Nat → Value → Hasher → Option Hasher
  | 0, _, _ => none
  | depth + 1, value, state =>
    let state := state ++ hashDatatype value.datatype
    match value with
    | null => hash depth null state
    | boolean value => some (state ++ [.byte value.toUInt8])
    | integer value => some (state ++ [.integer value])
    | float value => some (state ++ [.length 8, .bytes (Codec.word.encode value.bits)])
    | string value => some (state ++ [.bytes (Keycode.utf8 value), .byte 255])

/-- Hashing NULL does not end at any depth. -/
theorem hash_null (depth : Nat) (state : Hasher) : hash depth null state = none := by
  induction depth generalizing state with
  | zero => rfl
  | succ depth ih => exact ih _

/-- Hashing any other value returns without a further call. -/
theorem hash_isSome (present : value ≠ null) (state : Hasher) :
    (hash 1 value state).isSome = true := by
  cases value with
  | null => exact absurd rfl present
  | _ => rfl

theorem encode_injective : Function.Injective encode := codec.encode_injective

/-- Two values are zeros of opposite sign. -/
def oppositeZeros : Value → Value → Bool
  | float first, float second =>
    first = .zero && second = .negativeZero || first = .negativeZero && second = .zero
  | _, _ => false

theorem oppositeZeros_iff : first.oppositeZeros second = true ↔
    first = float .zero ∧ second = float .negativeZero ∨
      first = float .negativeZero ∧ second = float .zero := by
  cases first <;> cases second <;> simp [oppositeZeros]

theorem equals_of_oppositeZeros (opposite : first.oppositeZeros second = true) :
    first.equals second = true ∧ first ≠ second := by
  obtain ⟨isFirst, isSecond⟩ | ⟨isFirst, isSecond⟩ := oppositeZeros_iff.mp opposite
  · subst isFirst isSecond
    decide +kernel
  · subst isFirst isSecond
    decide +kernel

theorem eq_zero_of_equals (same : (float .negativeZero).equals value = true) :
    value = float .negativeZero ∨ value = float .zero := by
  by_cases negative : value.isNegativeZero = true
  · left
    cases value with
    | float number => simpa [isNegativeZero] using negative
    | _ => cases negative
  · right
    have zeros : (float .zero).equals (float .negativeZero) = true := by decide +kernel
    have equal := equals_trans zeros same
    exact (eq_of_equals equal (by decide +kernel) (by simpa using negative)).symm

/-- Equal values are the same, but for the two zeros. -/
theorem eq_or_oppositeZeros (same : first.equals second = true) :
    first = second ∨ first.oppositeZeros second = true := by
  by_cases left : first.isNegativeZero = true
  · have isFirst : first = float .negativeZero := by
      cases first with
      | float number => simpa [isNegativeZero] using left
      | _ => cases left
    subst isFirst
    obtain isSecond | isSecond := eq_zero_of_equals same
    · exact .inl isSecond.symm
    · subst isSecond
      exact .inr (by decide +kernel)
  · by_cases right : second.isNegativeZero = true
    · have isSecond : second = float .negativeZero := by
        cases second with
        | float number => simpa [isNegativeZero] using right
        | _ => cases right
      subst isSecond
      obtain isFirst | isFirst := eq_zero_of_equals (equals_comm _ _ ▸ same)
      · exact .inl isFirst
      · subst isFirst
        exact .inr (by decide +kernel)
    · exact .inl (eq_of_equals same (by simpa using left) (by simpa using right))

/-- Equality, hashing and encoding of two values agree. -/
structure Coherent (first second : Value) : Prop where
  /-- Hashing the first value ends. -/
  hashes : ∃ depth, ∀ state, (hash depth first state).isSome = true
  /-- The first value equals itself. -/
  reflexive : first.equals first = true
  /-- Equal values are hashed alike. -/
  hashed : first.equals second = true →
    ∀ depth state, hash depth first state = hash depth second state
  /-- Exactly the equal values are encoded alike. -/
  encoded : first.equals second = true ↔ first.encode = second.encode

/-- **Equality, hashing and key encoding agree exactly outside NULL, NaN and the two zeros**. -/
theorem coherent_iff (first second : Value) : first.Coherent second ↔
    first ≠ null ∧ first.isNaN = false ∧ first.oppositeZeros second = false := by
  constructor
  · intro coherent
    refine ⟨?_, ?_, ?_⟩
    · intro isNull
      subst isNull
      obtain ⟨depth, ends⟩ := coherent.hashes
      have returned := ends []
      rw [hash_null] at returned
      cases returned
    · simpa using coherent.reflexive
    · by_contra opposite
      obtain ⟨equal, different⟩ := equals_of_oppositeZeros (by simpa using opposite)
      exact different (encode_injective (coherent.encoded.mp equal))
  · intro ⟨present, number, sameSign⟩
    have identical (equal : first.equals second = true) : first = second := by
      obtain same | opposite := eq_or_oppositeZeros equal
      · exact same
      · rw [sameSign] at opposite
        cases opposite
    refine ⟨⟨1, hash_isSome present⟩, by simp [number], ?_, ?_⟩
    · intro equal depth state
      rw [identical equal]
    · constructor
      · intro equal
        rw [identical equal]
      · intro encoded
        rw [← encode_injective encoded, equals_self, number]
        rfl

/-- Hashing NULL does not end, NaN differs from itself, and the two zeros are equal but encoded
apart. -/
theorem incoherent : (¬∃ depth, ∀ state, (hash depth null state).isSome = true) ∧
    (float ⟨0x7ff8000000000000⟩).equals (float ⟨0x7ff8000000000000⟩) = false ∧
    (float .zero).equals (float .negativeZero) = true ∧
    hash 1 (float .zero) [] ≠ hash 1 (float .negativeZero) [] ∧
    (float .zero).encode ≠ (float .negativeZero).encode := by
  refine ⟨?_, by decide +kernel, by decide +kernel, by decide +kernel, ?_⟩
  · intro ⟨depth, ends⟩
    have returned := ends []
    rw [hash_null] at returned
    cases returned
  · intro same
    exact absurd (encode_injective same) (by decide +kernel)

end Value

end Radb.Sql
