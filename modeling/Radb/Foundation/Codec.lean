import Mathlib

/-! # Self-delimiting byte formats

A codec writes a value as bytes such that reading it back also tells where it
ends. Fields can therefore be concatenated without any surrounding structure, and
no encoding is the beginning of another one.
-/

namespace Foundation

variable {rest other : List UInt8}

/-- Bytes are ordered by their numeric value. -/
instance byteOrder : LinearOrder UInt8 where
  le_refl := UInt8.le_refl
  le_trans _ _ _ := UInt8.le_trans
  le_antisymm _ _ := UInt8.le_antisymm
  le_total := UInt8.le_total
  lt_iff_le_not_ge first second := by
    rw [UInt8.not_le]
    exact ⟨fun below => ⟨UInt8.le_of_lt below, below⟩, fun both => both.2⟩
  toDecidableLE := inferInstance
  toDecidableEq := inferInstance
  toDecidableLT := inferInstance

/-- A self-delimiting byte format. -/
structure Codec (Value : Type) where
  encode : Value → List UInt8
  decode : List UInt8 → Option (Value × List UInt8)
  /-- Decoding reads back an encoded value and leaves what follows it. -/
  decode_encode : ∀ value rest, decode (encode value ++ rest) = some (value, rest)

namespace Codec

variable {First Second Value : Type}

/-- Bytes begin with at most one encoding. -/
theorem encode_append_inj (codec : Codec Value) {first second : Value}
    (same : codec.encode first ++ rest = codec.encode second ++ other) :
    first = second ∧ rest = other := by
  have read := codec.decode_encode first rest
  rw [same, codec.decode_encode] at read
  have pairs := Option.some.inj read
  exact ⟨(congrArg Prod.fst pairs).symm, (congrArg Prod.snd pairs).symm⟩

theorem encode_injective (codec : Codec Value) : Function.Injective codec.encode := by
  intro first second same
  exact (codec.encode_append_inj (congrArg (· ++ []) same)).1

/-- An encoding is the beginning of another value's bytes only if the values agree,
and then what follows it is the beginning of what follows the other. -/
theorem isPrefix_encode_append (codec : Codec Value) {first second : Value} :
    codec.encode first ++ rest <+: codec.encode second ++ other ↔
      first = second ∧ rest <+: other := by
  constructor
  · rintro ⟨tail, same⟩
    rw [List.append_assoc] at same
    obtain ⟨rfl, rfl⟩ := codec.encode_append_inj same
    exact ⟨rfl, List.prefix_append _ _⟩
  · rintro ⟨rfl, below⟩
    exact (List.prefix_append_right_inj _).mpr below

/-- An encoding is the beginning of another one only if the values agree. -/
theorem isPrefix_encode (codec : Codec Value) {first second : Value} :
    codec.encode first <+: codec.encode second ++ other ↔ first = second := by
  rw [← List.append_nil (codec.encode first), codec.isPrefix_encode_append]
  simp

/-- Read a whole input as one value. -/
def decodeAll (codec : Codec Value) (bytes : List UInt8) : Option Value :=
  match codec.decode bytes with
  | some (value, []) => some value
  | _ => none

@[simp] theorem decodeAll_encode (codec : Codec Value) (value : Value) :
    codec.decodeAll (codec.encode value) = some value := by
  have read := codec.decode_encode value []
  rw [List.append_nil] at read
  rw [decodeAll, read]

/-- One byte. -/
def byte : Codec UInt8 where
  encode value := [value]
  decode
    | [] => none
    | value :: rest => some (value, rest)
  decode_encode _ _ := rfl

/-- One value after the other. -/
def pair (first : Codec First) (second : Codec Second) : Codec (First × Second) where
  encode value := first.encode value.1 ++ second.encode value.2
  decode bytes :=
    match first.decode bytes with
    | none => none
    | some (left, rest) => (second.decode rest).map fun read => ((left, read.1), read.2)
  decode_encode value rest := by
    simp only [List.append_assoc, first.decode_encode, second.decode_encode, Option.map_some]

/-- Values represented by those of another format. -/
def via (codec : Codec First) (represent : Second → First) (recover : First → Option Second)
    (law : ∀ value, recover (represent value) = some value) : Codec Second where
  encode value := codec.encode (represent value)
  decode bytes :=
    match codec.decode bytes with
    | none => none
    | some (found, rest) => (recover found).map fun value => (value, rest)
  decode_encode value rest := by simp only [codec.decode_encode, law, Option.map_some]

/-- A truth value as one byte. -/
def bool : Codec Bool :=
  byte.via (fun value => if value then 1 else 0)
    (fun found => if found = 1 then some true else if found = 0 then some false else none)
    (by decide)

/-- A value that may be absent, after a byte that tells whether it is there. -/
def option (codec : Codec Value) : Codec (Option Value) where
  encode
    | none => [0]
    | some value => 1 :: codec.encode value
  decode
    | 0 :: rest => some (none, rest)
    | 1 :: rest => (codec.decode rest).map fun read => (some read.1, read.2)
    | _ => none
  decode_encode value rest := by
    cases value with
    | none => rfl
    | some value =>
      simp only [List.cons_append, codec.decode_encode, Option.map_some]

/-- The bytes of a list: every item after the byte one, and a zero at the end. -/
def encodeList (codec : Codec Value) : List Value → List UInt8
  | [] => [0]
  | item :: items => 1 :: (codec.encode item ++ codec.encodeList items)

/-- Read items until the zero, at most `fuel` of them. -/
def decodeList (codec : Codec Value) : Nat → List UInt8 → Option (List Value × List UInt8)
  | _, 0 :: rest => some ([], rest)
  | fuel + 1, 1 :: rest =>
    match codec.decode rest with
    | none => none
    | some (item, rest) =>
      (codec.decodeList fuel rest).map fun read => (item :: read.1, read.2)
  | _, _ => none

theorem decodeList_encodeList (codec : Codec Value) (items : List Value) (fuel : Nat)
    (enough : items.length ≤ fuel) (rest : List UInt8) :
    codec.decodeList fuel (codec.encodeList items ++ rest) = some (items, rest) := by
  induction items generalizing fuel with
  | nil => cases fuel <;> rfl
  | cons item items ih =>
    cases fuel with
    | zero => simp at enough
    | succ fuel =>
      have read := ih fuel (Nat.le_of_succ_le_succ enough)
      simp only [encodeList, List.cons_append, List.append_assoc, decodeList,
        codec.decode_encode, read, Option.map_some]

theorem length_le_encodeList (codec : Codec Value) (items : List Value) :
    items.length ≤ (codec.encodeList items).length := by
  induction items with
  | nil => exact Nat.zero_le _
  | cons item items ih =>
    simp only [encodeList, List.length_cons, List.length_append]
    omega

/-- A list of values. -/
def list (codec : Codec Value) : Codec (List Value) where
  encode := codec.encodeList
  decode bytes := codec.decodeList bytes.length bytes
  decode_encode items rest := by
    apply codec.decodeList_encodeList
    have long := codec.length_le_encodeList items
    rw [List.length_append]
    omega

/-- The bytes of a string of bytes: zero is written as `0x00ff`. -/
def escape : List UInt8 → List UInt8
  | [] => []
  | 0 :: bytes => 0 :: 255 :: escape bytes
  | value :: bytes => value :: escape bytes

/-- Read escaped bytes up to the terminator `0x0000`. -/
def unescape : List UInt8 → Option (List UInt8 × List UInt8)
  | 0 :: 0 :: rest => some ([], rest)
  | 0 :: 255 :: rest => (unescape rest).map fun read => (0 :: read.1, read.2)
  | 0 :: _ => none
  | value :: rest => (unescape rest).map fun read => (value :: read.1, read.2)
  | [] => none

theorem unescape_escape (bytes rest : List UInt8) :
    unescape (escape bytes ++ [0, 0] ++ rest) = some (bytes, rest) := by
  induction bytes with
  | nil => rfl
  | cons value bytes ih =>
    by_cases zero : value = 0
    · subst zero
      simp only [escape, List.cons_append, unescape, ih, Option.map_some]
    · have written : escape (value :: bytes) = value :: escape bytes := by
        rw [escape]
        exact fun same => zero same
      rw [written, List.cons_append, List.cons_append, unescape, ih, Option.map_some]
      · intro tail same
        exact absurd same zero
      · intro tail same
        exact absurd same zero
      · exact fun same => zero same

/-- A string of bytes, escaped and terminated by `0x0000`. -/
def bytes : Codec (List UInt8) where
  encode value := escape value ++ [0, 0]
  decode := unescape
  decode_encode := unescape_escape

/-- The last `width` base-256 digits of a number, most significant first. -/
def bigEndian : Nat → Nat → List UInt8
  | 0, _ => []
  | width + 1, number => bigEndian width (number / 256) ++ [UInt8.ofNat number]

/-- The number with the given base-256 digits. -/
def ofBigEndian (digits : List UInt8) : Nat :=
  digits.foldl (fun number digit => number * 256 + digit.toNat) 0

theorem length_bigEndian (width number : Nat) : (bigEndian width number).length = width := by
  induction width generalizing number with
  | zero => rfl
  | succ width ih => rw [bigEndian, List.length_append, ih, List.length_singleton]

theorem ofBigEndian_bigEndian (width number : Nat) :
    ofBigEndian (bigEndian width number) = number % 256 ^ width := by
  induction width generalizing number with
  | zero => rw [Nat.pow_zero, Nat.mod_one]; rfl
  | succ width ih =>
    have low : (UInt8.ofNat number).toNat = number % 256 := rfl
    have high := ih (number / 256)
    rw [ofBigEndian] at high
    rw [bigEndian, ofBigEndian, List.foldl_append, high, List.foldl_cons, List.foldl_nil, low,
      Nat.pow_succ, Nat.mul_comm (256 ^ width), Nat.mod_mul]
    ring

/-- A 64-bit word, most significant byte first. -/
def word : Codec UInt64 where
  encode value := bigEndian 8 value.toNat
  decode bytes :=
    if 8 ≤ bytes.length then
      some (UInt64.ofNat (ofBigEndian (bytes.take 8)), bytes.drop 8)
    else none
  decode_encode value rest := by
    have length := length_bigEndian 8 value.toNat
    have whole : value.toNat % 256 ^ 8 = value.toNat := Nat.mod_eq_of_lt value.toNat_lt
    rw [if_pos (by rw [List.length_append]; omega), List.take_left' length, List.drop_left' length,
      ofBigEndian_bigEndian, whole, UInt64.ofNat_toNat]

end Codec

end Foundation
