import Radb.Foundation.Codec

/-! # Logs of self-delimiting records

An append-only log holds records one after the other. Reading it back yields the records
before the first incomplete one, so that a log that is cut off anywhere yields exactly the
records that lie completely before the cut.
-/

namespace Foundation

/-- Read a number of bytes, or nothing if there are fewer. -/
def readExact (count : Nat) (bytes : List UInt8) : Option (List UInt8 × List UInt8) :=
  if count ≤ bytes.length then some (bytes.take count, bytes.drop count) else none

theorem readExact_append (bytes rest : List UInt8) :
    readExact bytes.length (bytes ++ rest) = some (bytes, rest) := by
  rw [readExact, if_pos (by simp), List.take_left, List.drop_left]

theorem readExact_eq_some {count : Nat} {bytes read rest : List UInt8} :
    readExact count bytes = some (read, rest) ↔ bytes = read ++ rest ∧ read.length = count := by
  constructor
  · intro found
    rw [readExact] at found
    split at found
    · cases found
      exact ⟨(List.take_append_drop _ _).symm, List.length_take_of_le ‹_›⟩
    · cases found
  · rintro ⟨rfl, rfl⟩
    exact readExact_append read rest

theorem readExact_eq_none {count : Nat} {bytes : List UInt8} :
    readExact count bytes = none ↔ bytes.length < count := by
  rw [readExact]
  split <;> simp <;> omega

/-- A format of records in a log. -/
structure RecordFormat (Record : Type) where
  encode : Record → List UInt8
  decode : List UInt8 → Option (Record × List UInt8)
  /-- The records that can be read back. -/
  Fits : Record → Prop
  decode_encode : ∀ {record rest}, Fits record →
    decode (encode record ++ rest) = some (record, rest)
  /-- A record is read whatever stands behind it. -/
  decode_append : ∀ {bytes record rest} more, decode bytes = some (record, rest) →
    decode (bytes ++ more) = some (record, rest ++ more)
  /-- A record is read from as many bytes as it is written to. -/
  exists_used : ∀ {bytes record rest}, decode bytes = some (record, rest) →
    ∃ used, bytes = used ++ rest ∧ used.length = (encode record).length ∧
      decode used = some (record, [])
  encode_pos : ∀ record, 0 < (encode record).length

namespace RecordFormat

variable {Record : Type} (format : RecordFormat Record)

variable {bytes rest : List UInt8} {record : Record} {records : List Record}

/-- The bytes of a log. -/
def encodeAll (records : List Record) : List UInt8 := records.flatMap format.encode

/-- Read at most `fuel` records. -/
def read : Nat → List UInt8 → List Record
  | 0, _ => []
  | fuel + 1, bytes =>
    match format.decode bytes with
    | none => []
    | some (record, rest) => record :: read fuel rest

/-- The records of a log before the first incomplete one. -/
def recover (bytes : List UInt8) : List Record := format.read bytes.length bytes

@[simp] theorem encodeAll_nil : format.encodeAll [] = [] := rfl

@[simp] theorem encodeAll_cons (record : Record) (records : List Record) :
    format.encodeAll (record :: records) = format.encode record ++ format.encodeAll records := rfl

@[simp] theorem encodeAll_append (first second : List Record) :
    format.encodeAll (first ++ second) = format.encodeAll first ++ format.encodeAll second :=
  List.flatMap_append

section

variable (found : format.decode bytes = some (record, rest))

include found

theorem length_decode : bytes.length = (format.encode record).length + rest.length := by
  obtain ⟨used, rfl, size, _⟩ := format.exists_used found
  rw [List.length_append, size]

/-- What follows a record begins where the record ends. -/
theorem drop_of_decode : bytes.drop (format.encode record).length = rest := by
  obtain ⟨used, rfl, size, _⟩ := format.exists_used found
  rw [← size, List.drop_left]

theorem length_rest_lt : rest.length < bytes.length := by
  have taken := format.length_decode found
  have positive := format.encode_pos record
  omega

end

theorem decode_nil : format.decode [] = none := by
  cases found : format.decode [] with
  | none => rfl
  | some pair =>
    have shorter := format.length_rest_lt found
    simp at shorter

/-- As many steps as there are bytes are enough. -/
theorem read_eq_recover {fuel : Nat} (enough : bytes.length ≤ fuel) :
    format.read fuel bytes = format.recover bytes := by
  -- Every record takes a byte, so what follows it is read with the fuel that is left.
  induction fuel using Nat.strong_induction_on generalizing bytes with
  | _ fuel ih =>
    rw [recover]
    cases fuel with
    | zero => rw [Nat.le_zero.mp enough]
    | succ fuel =>
      cases long : bytes.length with
      | zero =>
        obtain rfl := List.eq_nil_of_length_eq_zero long
        simp only [read, format.decode_nil]
      | succ length =>
        simp only [read]
        cases found : format.decode bytes with
        | none => rfl
        | some pair =>
          have shorter := format.length_rest_lt found
          simp only [ih fuel (by omega) (by omega : pair.2.length ≤ fuel),
            ih length (by omega) (by omega : pair.2.length ≤ length)]

theorem recover_of_decode (found : format.decode bytes = some (record, rest)) :
    format.recover bytes = record :: format.recover rest := by
  have shorter := format.length_rest_lt found
  rw [← format.read_eq_recover (Nat.le_succ bytes.length), read, found]
  exact congrArg (record :: ·) (format.read_eq_recover shorter.le)

theorem recover_of_none (incomplete : format.decode bytes = none) :
    format.recover bytes = [] := by
  rw [← format.read_eq_recover (Nat.le_succ bytes.length), read, incomplete]

/-- Records that were written are read back, followed by what is read behind them. -/
theorem recover_append (fits : ∀ record ∈ records, format.Fits record) (tail : List UInt8) :
    format.recover (format.encodeAll records ++ tail) = records ++ format.recover tail := by
  induction records with
  | nil => rfl
  | cons record records ih =>
    have read := @decode_encode _ format _ (format.encodeAll records ++ tail)
      (fits record List.mem_cons_self)
    rw [encodeAll_cons, List.append_assoc, format.recover_of_decode read,
      ih fun other member => fits other (List.mem_cons_of_mem _ member), List.cons_append]

/-- What is read takes no more bytes than there are. -/
theorem length_encodeAll_recover (bytes : List UInt8) :
    (format.encodeAll (format.recover bytes)).length ≤ bytes.length := by
  induction long : bytes.length using Nat.strong_induction_on generalizing bytes with
  | _ length ih =>
    cases found : format.decode bytes with
    | none => simp [format.recover_of_none found]
    | some pair =>
      have taken := format.length_decode found
      have shorter := format.length_rest_lt found
      have later := ih pair.2.length (by omega) pair.2 rfl
      rw [format.recover_of_decode found, encodeAll_cons, List.length_append]
      omega

/-- The beginning of a record is incomplete. -/
theorem decode_torn (fits : format.Fits record) {tail : List UInt8}
    (begins : tail <+: format.encode record) (torn : tail ≠ format.encode record) :
    format.decode tail = none := by
  cases found : format.decode tail with
  | none => rfl
  | some pair =>
    obtain ⟨missing, whole⟩ := begins
    have read := format.decode_append missing found
    have written := @decode_encode _ format _ [] fits
    rw [whole] at read
    rw [List.append_nil, read] at written
    have nothing := congrArg Prod.snd (Option.some.inj written)
    obtain ⟨_, rfl⟩ := List.append_eq_nil_iff.mp nothing
    exact absurd (by simpa using whole) torn

/-- What is read behind the beginning of a record reaches beyond that beginning. -/
theorem length_lt_of_torn {read : Record} (fits : format.Fits record) {torn more : List UInt8}
    (begins : torn <+: format.encode record) (proper : torn ≠ format.encode record)
    (found : format.decode (torn ++ more) = some (read, rest)) :
    torn.length < (format.encode read).length := by
  by_contra inside
  -- Otherwise the record would have been read from the beginning alone.
  obtain ⟨used, split, size, alone⟩ := format.exists_used found
  have within : used <+: torn :=
    List.prefix_of_prefix_length_le ⟨rest, split.symm⟩ (List.prefix_append _ _) (by omega)
  obtain ⟨missing, rfl⟩ := within
  have whole := format.decode_append missing alone
  rw [format.decode_torn fits begins proper] at whole
  cases whole

/-- A record that is recovered takes no more bytes than there are. -/
theorem length_encode_of_mem (member : record ∈ format.recover bytes) :
    (format.encode record).length ≤ bytes.length := by
  refine le_trans ?_ (format.length_encodeAll_recover bytes)
  obtain ⟨before, after, split⟩ := List.append_of_mem member
  rw [split, encodeAll_append, encodeAll_cons, List.length_append, List.length_append]
  omega

/-- The longest beginning of a list of records that takes at most `count` bytes. -/
def within : Nat → List Record → List Record
  | _, [] => []
  | count, record :: records =>
    if (format.encode record).length ≤ count then
      record :: within (count - (format.encode record).length) records
    else []

theorem within_isPrefix (count : Nat) (records : List Record) :
    format.within count records <+: records := by
  induction records generalizing count with
  | nil => exact List.prefix_refl _
  | cons record records ih =>
    rw [within]
    split
    · exact List.cons_prefix_cons.mpr ⟨rfl, ih _⟩
    · exact List.nil_prefix

theorem length_within (count : Nat) (records : List Record) :
    (format.encodeAll (format.within count records)).length ≤ count := by
  induction records generalizing count with
  | nil => exact Nat.zero_le _
  | cons record records ih =>
    rw [within]
    split
    · have later := ih (count - (format.encode record).length)
      rw [encodeAll_cons, List.length_append]
      omega
    · exact Nat.zero_le _

theorem within_longest {count : Nat} {other : List Record} (begins : other <+: records)
    (short : (format.encodeAll other).length ≤ count) :
    other <+: format.within count records := by
  induction records generalizing count other with
  | nil => exact begins
  | cons record records ih =>
    cases other with
    | nil => exact List.nil_prefix
    | cons first rest =>
      obtain ⟨rfl, later⟩ := List.cons_prefix_cons.mp begins
      rw [encodeAll_cons, List.length_append] at short
      rw [within, if_pos (by omega)]
      exact List.cons_prefix_cons.mpr ⟨rfl, ih later (by omega)⟩

/-- A log that is cut off ends with the beginning of a record. -/
theorem exists_tail (count : Nat) (records : List Record) :
    ∃ tail, (format.encodeAll records).take count =
        format.encodeAll (format.within count records) ++ tail ∧
      (tail = [] ∨ ∃ record ∈ records, tail <+: format.encode record ∧
        tail ≠ format.encode record) := by
  induction records generalizing count with
  | nil => exact ⟨[], by simp [within], .inl rfl⟩
  | cons record records ih =>
    rw [within]
    split
    next complete =>
      obtain ⟨tail, cut, torn⟩ := ih (count - (format.encode record).length)
      refine ⟨tail, ?_, ?_⟩
      · rw [encodeAll_cons, List.take_append, List.take_of_length_le complete, cut,
          encodeAll_cons, List.append_assoc]
      · rcases torn with empty | ⟨other, member, torn⟩
        · exact .inl empty
        · exact .inr ⟨other, List.mem_cons_of_mem _ member, torn⟩
    next incomplete =>
      refine ⟨(format.encode record).take count, ?_,
        .inr ⟨record, List.mem_cons_self, List.take_prefix _ _, fun same => ?_⟩⟩
      · rw [encodeAll_cons, List.take_append_of_le_length (by omega)]
        rfl
      · have length := congrArg List.length same
        rw [List.length_take] at length
        omega

/-- A log that is cut off yields the records that lie completely before the cut. -/
theorem recover_take (fits : ∀ record ∈ records, format.Fits record) (count : Nat) :
    format.recover ((format.encodeAll records).take count) = format.within count records := by
  have kept : ∀ record ∈ format.within count records, format.Fits record := fun record member =>
    fits record ((format.within_isPrefix count records).subset member)
  obtain ⟨tail, cut, torn⟩ := format.exists_tail count records
  have incomplete : format.decode tail = none := by
    rcases torn with rfl | ⟨record, member, begins, torn⟩
    · exact format.decode_nil
    · exact format.decode_torn (fits record member) begins torn
  rw [cut, format.recover_append kept, format.recover_of_none incomplete, List.append_nil]

end RecordFormat

end Foundation
