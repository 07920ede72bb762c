import Mathlib
import Radb.Foundation.Codec

/-! # Canonical and order-preserving byte formats

A codec is canonical if every input it accepts begins with the encoding of what it
reads. It is ordered by a rank of its values if comparing encodings byte by byte, with
whatever follows them, is comparing ranks first. Both properties pass from the fields
of a tuple to the tuple.
-/

namespace Foundation.Codec

variable {First Second Value : Type} {Rank Other : Type} [LinearOrder Rank] [LinearOrder Other]

variable {represent : Second → First} {recover : First → Option Second}

variable {law : ∀ value, recover (represent value) = some value}

/-- Whatever is read is what would be written. -/
def Canonical (codec : Codec Value) : Prop :=
  ∀ ⦃bytes value rest⦄, codec.decode bytes = some (value, rest) →
    bytes = codec.encode value ++ rest

/-- Encodings are ordered by a rank of the values, whatever follows them. -/
structure Ordered (codec : Codec Value) (rank : Value → Rank) : Prop where
  rank_injective : Function.Injective rank
  append_lt : ∀ {first second : Value} (rest other : List UInt8), rank first < rank second →
    codec.encode first ++ rest < codec.encode second ++ other

namespace Canonical

theorem pair {first : Codec First} {second : Codec Second} (left : first.Canonical)
    (right : second.Canonical) : (first.pair second).Canonical := by
  intro bytes value rest read
  simp only [Codec.pair] at read ⊢
  cases readFirst : first.decode bytes with
  | none => simp only [readFirst, reduceCtorEq] at read
  | some found =>
    simp only [readFirst] at read
    obtain ⟨last, readSecond, same⟩ := Option.map_eq_some_iff.mp read
    cases same
    rw [left readFirst, right readSecond, List.append_assoc]

theorem via {codec : Codec First} (canonical : codec.Canonical)
    (unique : ∀ found value, recover found = some value → represent value = found) :
    (codec.via represent recover law).Canonical := by
  intro bytes value rest read
  simp only [Codec.via] at read ⊢
  cases readFirst : codec.decode bytes with
  | none => simp only [readFirst, reduceCtorEq] at read
  | some found =>
    simp only [readFirst] at read
    obtain ⟨recovered, decoded, same⟩ := Option.map_eq_some_iff.mp read
    cases same
    rw [canonical readFirst, unique _ _ decoded]

/-- A whole input that is read is an encoding. -/
theorem decodeAll {codec : Codec Value} (canonical : codec.Canonical) {bytes : List UInt8}
    {value : Value} (read : codec.decodeAll bytes = some value) : codec.encode value = bytes := by
  unfold Codec.decodeAll at read
  split at read
  · next found decoded =>
    cases read
    rw [canonical decoded, List.append_nil]
  · cases read

end Canonical

namespace Ordered

/-- A common beginning does not matter for the order. -/
theorem append_left_lt_iff (lead : List UInt8) {rest other : List UInt8} :
    lead ++ rest < lead ++ other ↔ rest < other := by
  induction lead with
  | nil => rfl
  | cons byte lead ih =>
    simp only [List.cons_append, List.cons_lt_cons_iff, UInt8.lt_irrefl, false_or, true_and, ih]

variable {codec : Codec Value} {rank : Value → Rank}

/-- Comparing encodings with what follows them is comparing ranks, and then what
follows. -/
theorem append_lt_iff (ordered : codec.Ordered rank) (first second : Value)
    (rest other : List UInt8) :
    codec.encode first ++ rest < codec.encode second ++ other ↔
      rank first < rank second ∨ rank first = rank second ∧ rest < other := by
  constructor
  · intro below
    rcases lt_trichotomy (rank first) (rank second) with lower | same | higher
    · exact .inl lower
    · rw [ordered.rank_injective same] at below
      exact .inr ⟨same, (append_left_lt_iff _).mp below⟩
    · exact absurd (ordered.append_lt other rest higher) (lt_asymm below)
  · rintro (lower | ⟨same, below⟩)
    · exact ordered.append_lt rest other lower
    · rw [ordered.rank_injective same]
      exact (append_left_lt_iff _).mpr below

theorem encode_lt_iff (ordered : codec.Ordered rank) (first second : Value) :
    codec.encode first < codec.encode second ↔ rank first < rank second := by
  have compared := ordered.append_lt_iff first second [] []
  simpa using compared

/-- Values are ordered as what represents them is. -/
theorem via {codec : Codec First} {rank : First → Rank} (ordered : codec.Ordered rank) :
    (codec.via represent recover law).Ordered fun value => rank (represent value) where
  rank_injective first second same := by
    have recovered := congrArg recover (ordered.rank_injective same)
    rw [law, law] at recovered
    exact Option.some.inj recovered
  append_lt rest other below := ordered.append_lt rest other below

/-- Another rank with the same order does as well. -/
theorem of_rank {other : Value → Other} (ordered : codec.Ordered rank)
    (same : ∀ first second, other first < other second ↔ rank first < rank second) :
    codec.Ordered other where
  rank_injective first second equal := by
    apply ordered.rank_injective
    apply le_antisymm
    · exact not_lt.mp fun below => ((same second first).mpr below).ne equal.symm
    · exact not_lt.mp fun below => ((same first second).mpr below).ne equal
  append_lt rest trailing below := ordered.append_lt rest trailing ((same _ _).mp below)

end Ordered

theorem canonical_byte : byte.Canonical := by
  intro bytes value rest read
  cases bytes with
  | nil => cases read
  | cons found bytes =>
    cases read
    rfl

theorem ordered_byte : byte.Ordered UInt8.toNat where
  rank_injective _ _ same := UInt8.toNat_inj.mp same
  append_lt _ _ below := List.cons_lt_cons_iff.mpr (.inl below)

theorem canonical_bool : bool.Canonical :=
  canonical_byte.via fun found value read => by
    split at read
    · next same =>
      cases read
      exact same.symm
    · split at read
      · next same =>
        cases read
        exact same.symm
      · cases read

theorem ordered_bool : bool.Ordered fun value => if value then 1 else 0 :=
  (ordered_byte.via).of_rank (by decide)

/-! Strings of bytes -/

theorem escape_cons_of_ne {value : UInt8} (nonzero : value ≠ 0) (bytes : List UInt8) :
    escape (value :: bytes) = value :: escape bytes := by
  rw [escape]
  exact fun same => nonzero same

theorem canonical_bytes : bytes.Canonical := by
  intro input value rest read
  simp only [bytes] at read ⊢
  induction input using unescape.induct generalizing value with
  | case1 tail =>
    simp only [unescape, Option.some.injEq, Prod.mk.injEq] at read
    obtain ⟨rfl, rfl⟩ := read
    rfl
  | case2 tail ih =>
    rw [unescape] at read
    obtain ⟨found, decoded, same⟩ := Option.map_eq_some_iff.mp read
    cases same
    rw [ih decoded]
    rfl
  | case3 tail first second =>
    rw [unescape] at read
    · cases read
    · exact first
    · exact second
  | case4 value tail first second third ih =>
    rw [unescape] at read
    · obtain ⟨found, decoded, same⟩ := Option.map_eq_some_iff.mp read
      cases same
      rw [escape_cons_of_ne (fun zero => third zero), ih decoded]
      rfl
    · exact first
    · exact second
    · exact third
  | case5 => cases read

theorem ordered_bytes : bytes.Ordered (fun value => value) where
  rank_injective _ _ same := same
  append_lt {first second} rest other below := by
    simp only [bytes, List.append_assoc]
    induction first generalizing second with
    | nil =>
      cases second with
      | nil => exact absurd below (lt_irrefl _)
      | cons byte tail =>
        by_cases zero : byte = 0
        · subst zero
          exact List.cons_lt_cons_iff.mpr (.inr ⟨rfl, List.cons_lt_cons_iff.mpr
            (.inl (by decide))⟩)
        · rw [escape_cons_of_ne zero]
          exact List.cons_lt_cons_iff.mpr (.inl (UInt8.pos_iff_ne_zero.mpr zero))
    | cons head bytes ih =>
      cases second with
      | nil => exact absurd below (List.not_lt_nil _)
      | cons byte tail =>
        rcases List.cons_lt_cons_iff.mp below with lower | ⟨rfl, lower⟩
        · have nonzero : byte ≠ 0 := fun zero => UInt8.not_lt_zero (zero ▸ lower)
          rw [escape_cons_of_ne nonzero]
          by_cases zero : head = 0
          · subst zero
            exact List.cons_lt_cons_iff.mpr (.inl lower)
          · rw [escape_cons_of_ne zero]
            exact List.cons_lt_cons_iff.mpr (.inl lower)
        · by_cases zero : head = 0
          · subst zero
            exact List.cons_lt_cons_iff.mpr (.inr ⟨rfl, List.cons_lt_cons_iff.mpr
              (.inr ⟨rfl, ih lower⟩)⟩)
          · rw [escape_cons_of_ne zero, escape_cons_of_ne zero]
            exact List.cons_lt_cons_iff.mpr (.inr ⟨rfl, ih lower⟩)

/-- Escaped bytes are the beginning of others exactly if the bytes are. -/
theorem escape_isPrefix (lead key rest : List UInt8) :
    escape lead <+: escape key ++ (0 :: 0 :: rest) ↔ lead <+: key := by
  induction lead generalizing key with
  | nil => simp [escape]
  | cons byte lead ih =>
    by_cases zero : byte = 0
    · subst zero
      cases key with
      | nil => simp [escape]
      | cons first key =>
        by_cases firstZero : first = 0
        · subst firstZero
          simp [escape, List.cons_prefix_cons, ih]
        · rw [escape_cons_of_ne firstZero]
          simp [escape, List.cons_prefix_cons, Ne.symm firstZero]
    · rw [escape_cons_of_ne zero]
      cases key with
      | nil => simp [escape, List.cons_prefix_cons, zero]
      | cons first key =>
        by_cases firstZero : first = 0
        · subst firstZero
          simp [escape, List.cons_prefix_cons, zero]
        · rw [escape_cons_of_ne firstZero]
          simp [List.cons_prefix_cons, ih]

/-! Words -/

theorem ofBigEndian_append (digits : List UInt8) (digit : UInt8) :
    ofBigEndian (digits ++ [digit]) = ofBigEndian digits * 256 + digit.toNat := by
  rw [ofBigEndian, List.foldl_append]
  rfl

theorem bigEndian_ofBigEndian (digits : List UInt8) :
    bigEndian digits.length (ofBigEndian digits) = digits := by
  induction digits using List.reverseRecOn with
  | nil => rfl
  | append_singleton digits digit ih =>
    have small := digit.toNat_lt
    have high : (ofBigEndian digits * 256 + digit.toNat) / 256 = ofBigEndian digits := by omega
    have low : UInt8.ofNat (ofBigEndian digits * 256 + digit.toNat) = digit := by
      apply UInt8.toNat_inj.mp
      rw [UInt8.toNat_ofNat']
      omega
    rw [ofBigEndian_append, List.length_append, List.length_singleton, bigEndian, high, low, ih]

theorem ofBigEndian_lt (digits : List UInt8) : ofBigEndian digits < 256 ^ digits.length := by
  induction digits using List.reverseRecOn with
  | nil => decide
  | append_singleton digits digit ih =>
    have small := digit.toNat_lt
    rw [ofBigEndian_append, List.length_append, List.length_singleton, Nat.pow_succ]
    omega

theorem canonical_word : word.Canonical := by
  intro bytes value rest read
  simp only [word] at read ⊢
  split at read
  · next enough =>
    cases read
    have length : (bytes.take 8).length = 8 := List.length_take_of_le enough
    have small : ofBigEndian (bytes.take 8) < 2 ^ 64 := by
      have bound := ofBigEndian_lt (bytes.take 8)
      rw [length] at bound
      exact bound
    rw [UInt64.toNat_ofNat_of_lt' small]
    have digits := bigEndian_ofBigEndian (bytes.take 8)
    rw [length] at digits
    rw [digits, List.take_append_drop]
  · cases read

/-- Digits of the same number of places are ordered as the numbers are. -/
theorem bigEndian_append_lt (width : Nat) {first second : Nat} (below : first < second)
    (bounded : second < 256 ^ width) (rest other : List UInt8) :
    bigEndian width first ++ rest < bigEndian width second ++ other := by
  induction width generalizing first second rest other with
  | zero =>
    rw [Nat.pow_zero] at bounded
    omega
  | succ width ih =>
    rw [Nat.pow_succ] at bounded
    simp only [bigEndian, List.append_assoc, List.singleton_append]
    rcases Nat.lt_or_ge (first / 256) (second / 256) with lower | higher
    · exact ih lower (by omega) _ _
    · have same : first / 256 = second / 256 := by omega
      rw [same, Ordered.append_left_lt_iff]
      refine List.cons_lt_cons_iff.mpr (.inl ?_)
      rw [UInt8.lt_iff_toNat_lt, UInt8.toNat_ofNat', UInt8.toNat_ofNat']
      omega

theorem ordered_word : word.Ordered UInt64.toNat where
  rank_injective _ _ same := UInt64.toNat_inj.mp same
  append_lt {_ second} rest other below := bigEndian_append_lt 8 below second.toNat_lt rest other

end Foundation.Codec
