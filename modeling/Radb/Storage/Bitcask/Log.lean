import Radb.Foundation.RecordLog
import Radb.Storage.Engine

/-! # BitCask log files

A log file holds an entry for every write: the length of the key, the length of the value
or a negative number for a deletion, the key and the value. The key directory maps each
live key to the position and length of its value in the file. It is built by scanning the
file, and an incomplete entry at the end of the file is cut off.
-/

namespace Radb.Storage.Bitcask

open Foundation Foundation.Codec

variable {file : Bytes} {data : Store fun _ : Bytes => Bytes}

/-- Maps keys to a value position and length in the log file. -/
abbrev KeyDir := Store fun _ : Bytes => Nat × Nat

/-- The value a write leaves, if any. -/
def value : Write → Option Bytes
  | .set _ value => some value
  | .delete _ => none

/-- The bytes of an entry, with a negative value length for deletions. -/
def entry (key : Bytes) (value : Option Bytes) : Bytes :=
  bigEndian 4 key.length ++ bigEndian 4 ((value.map List.length).getD (2 ^ 32 - 1)) ++
    (key ++ value.getD [])

/-- How a write to the file can fail: after some bytes have reached it. -/
structure Failure where
  written : Nat
  message : String
  deriving DecidableEq

/-- Appends a key/value entry to the log file, using no value for deletions. It returns the
position and length of the entry, and the file. -/
def writeEntry (file : Bytes) (failure : Option Failure) (key : Bytes) (value : Option Bytes) :
    Except Halt (Nat × Nat) × Bytes :=
  let keyLen := key.length % 2 ^ 32
  let valueLen := (value.map List.length).getD 0 % 2 ^ 32
  let len := 4 + 4 + keyLen + valueLen
  if 2 ^ 32 ≤ len then (.error (.panic "attempt to add with overflow"), file)
  else
    match failure with
    | some failure =>
      (.error (.error (.internal failure.message)),
        file ++ (entry key value).take failure.written)
    | none => (.ok (file.length, len), file ++ entry key value)

/-- Reads a value from the log file. -/
def readValue (file : Bytes) (valuePos valueLen : Nat) : Except Error Bytes :=
  match readExact valueLen (file.drop valuePos) with
  | some (value, _) => .ok value
  | none => .error (.internal "failed to fill whole buffer")

/-- Reads the entry at a position, returning the key, value position, and value length or
nothing for deletions. There is no result if the file ends before the entry does. -/
def readEntry (file : Bytes) (pos : Nat) : Option (Bytes × Nat × Option Nat) := do
  let (lenBuf, r) ← readExact 4 (file.drop pos)
  let keyLen := ofBigEndian lenBuf
  let (lenBuf, r) ← readExact 4 r
  let valueLenOrTombstone :=
    if ofBigEndian lenBuf < 2 ^ 31 then some (ofBigEndian lenBuf) else none
  let valuePos := pos + 4 + 4 + keyLen
  let (key, _) ← readExact keyLen r
  match valueLenOrTombstone with
  | some valueLen =>
    if file.length < valuePos + valueLen then none else some (key, valuePos, some valueLen)
  | none => some (key, valuePos, none)

/-- Scans the log file from a position on, for at most `fuel` entries. -/
def scanEntries (file : Bytes) : Nat → Nat → KeyDir → KeyDir × Bytes
  | 0, _, keydir => (keydir, file)
  | fuel + 1, pos, keydir =>
    if pos < file.length then
      match readEntry file pos with
      | some (key, valuePos, some valueLen) =>
        scanEntries file fuel (valuePos + valueLen)
          (keydir.replay (.set key (valuePos, valueLen)))
      | some (key, valuePos, none) =>
        scanEntries file fuel valuePos (keydir.replay (.delete key))
      | none => (keydir, file.take pos)
    else (keydir, file)

/-- Builds a keydir by scanning the log file. If an incomplete entry is encountered, it is
assumed to be caused by an incomplete write operation and the remainder of the file is
truncated. Every entry takes a byte, so there are no more entries than bytes. -/
def buildKeydir (file : Bytes) : KeyDir × Bytes := scanEntries file file.length 0 ∅

/-! ## Entries as records -/

/-- Read an entry with its value. -/
def decode (bytes : Bytes) : Option (Write × Bytes) :=
  match readExact 4 bytes with
  | none => none
  | some (keyLen, bytes) =>
    match readExact 4 bytes with
    | none => none
    | some (valueLen, bytes) =>
      match readExact (ofBigEndian keyLen) bytes with
      | none => none
      | some (key, bytes) =>
        if ofBigEndian valueLen < 2 ^ 31 then
          (readExact (ofBigEndian valueLen) bytes).map fun read =>
            (.set key read.1, read.2)
        else some (.delete key, bytes)

/-- The writes whose lengths fit the fields of an entry. -/
def Fits (write : Write) : Prop :=
  8 + write.key.length + ((value write).map List.length).getD 0 < 2 ^ 32 ∧
    ((value write).map List.length).getD 0 < 2 ^ 31

instance (write : Write) : Decidable (Fits write) := by unfold Fits; infer_instance

theorem length_entry (key : Bytes) (value : Option Bytes) :
    (entry key value).length = 8 + key.length + (value.map List.length).getD 0 := by
  cases value <;> simp [entry, length_bigEndian] <;> omega

/-- What an entry is read from. -/
theorem decode_eq_some {bytes rest : Bytes} {write : Write} :
    decode bytes = some (write, rest) ↔ ∃ keyLen valueLen : Bytes,
      keyLen.length = 4 ∧ valueLen.length = 4 ∧ ofBigEndian keyLen = write.key.length ∧
        (match value write with
          | some value => ofBigEndian valueLen < 2 ^ 31 ∧ ofBigEndian valueLen = value.length
          | none => 2 ^ 31 ≤ ofBigEndian valueLen) ∧
        bytes = keyLen ++ (valueLen ++ (write.key ++ ((value write).getD [] ++ rest))) := by
  constructor
  · intro found
    unfold decode at found
    split at found
    · cases found
    next keyLen afterKeyLen first =>
      obtain ⟨rfl, keyFour⟩ := readExact_eq_some.mp first
      split at found
      · cases found
      next valueLen afterValueLen second =>
        obtain ⟨rfl, valueFour⟩ := readExact_eq_some.mp second
        split at found
        · cases found
        next key afterKey third =>
          obtain ⟨rfl, keySize⟩ := readExact_eq_some.mp third
          split at found
          next small =>
            obtain ⟨⟨stored, tail⟩, fourth, same⟩ := Option.map_eq_some_iff.mp found
            obtain ⟨rfl, valueSize⟩ := readExact_eq_some.mp fourth
            cases same
            exact ⟨keyLen, valueLen, keyFour, valueFour, keySize.symm, ⟨small, valueSize.symm⟩, rfl⟩
          next large =>
            cases found
            exact ⟨keyLen, valueLen, keyFour, valueFour, keySize.symm, Nat.le_of_not_lt large, rfl⟩
  · rintro ⟨keyLen, valueLen, keyFour, valueFour, keySize, valueSize, rfl⟩
    have first := readExact_append keyLen
      (valueLen ++ (write.key ++ ((value write).getD [] ++ rest)))
    have second := readExact_append valueLen (write.key ++ ((value write).getD [] ++ rest))
    have third := readExact_append write.key ((value write).getD [] ++ rest)
    rw [keyFour] at first
    rw [valueFour] at second
    rw [← keySize] at third
    simp only [decode, first, second, third]
    cases write with
    | set key stored =>
      obtain ⟨small, size⟩ := valueSize
      have fourth := readExact_append stored rest
      rw [← size] at fourth
      rw [if_pos small]
      exact congrArg (Option.map _) fourth
    | delete key => exact if_neg (Nat.not_lt.mpr valueSize)

/-- The format of the entries of a log file. -/
def format : RecordFormat Write where
  encode write := entry write.key (value write)
  decode := decode
  Fits := Fits
  decode_encode := by
    intro write rest fits
    obtain ⟨total, small⟩ := fits
    refine decode_eq_some.mpr ⟨bigEndian 4 write.key.length,
      bigEndian 4 (((value write).map List.length).getD (2 ^ 32 - 1)), length_bigEndian _ _,
      length_bigEndian _ _, ?_, ?_, ?_⟩
    · rw [ofBigEndian_bigEndian, Nat.mod_eq_of_lt (by omega)]
    · cases write with
      | set key stored =>
        change stored.length < 2 ^ 31 at small
        have low : stored.length % 256 ^ 4 = stored.length := Nat.mod_eq_of_lt (by omega)
        refine ⟨?_, ?_⟩
        · rw [ofBigEndian_bigEndian]
          exact lt_of_eq_of_lt low small
        · rw [ofBigEndian_bigEndian]
          exact low
      | delete key =>
        rw [ofBigEndian_bigEndian]
        change 2 ^ 31 ≤ (2 ^ 32 - 1) % 256 ^ 4
        decide
    · simp only [entry, List.append_assoc]
  decode_append := by
    intro bytes write rest more found
    obtain ⟨keyLen, valueLen, keyFour, valueFour, keySize, valueSize, rfl⟩ :=
      decode_eq_some.mp found
    refine decode_eq_some.mpr ⟨keyLen, valueLen, keyFour, valueFour, keySize, valueSize, ?_⟩
    simp only [List.append_assoc]
  exists_used := by
    intro bytes write rest found
    obtain ⟨keyLen, valueLen, keyFour, valueFour, keySize, valueSize, rfl⟩ :=
      decode_eq_some.mp found
    refine ⟨keyLen ++ (valueLen ++ (write.key ++ (value write).getD [])), ?_, ?_, ?_⟩
    · simp only [List.append_assoc]
    · rw [length_entry]
      cases write <;> simp [keyFour, valueFour, value] <;> omega
    · refine decode_eq_some.mpr ⟨keyLen, valueLen, keyFour, valueFour, keySize, valueSize, ?_⟩
      rw [List.append_nil]
  encode_pos write := by
    rw [length_entry]
    omega

/-- The size of the entry of a write. -/
theorem length_encode (write : Write) : (format.encode write).length =
    8 + write.key.length + ((value write).map List.length).getD 0 :=
  length_entry _ _

/-- Reading an entry at a position reads the record there. -/
theorem readEntry_eq {pos : Nat} (inside : pos ≤ file.length) :
    readEntry file pos = (format.decode (file.drop pos)).map fun read =>
      (read.1.key, pos + 8 + read.1.key.length, (value read.1).map List.length) := by
  change readEntry file pos = (decode (file.drop pos)).map _
  have whole := List.length_drop (i := pos) (l := file)
  unfold readEntry decode
  cases first : readExact 4 (file.drop pos) with
  | none => rfl
  | some read =>
    obtain ⟨keyLen, afterKeyLen⟩ := read
    obtain ⟨taken, keyFour⟩ := readExact_eq_some.mp first
    rw [taken, List.length_append] at whole
    cases second : readExact 4 afterKeyLen with
    | none => simp [bind, Option.bind, second]
    | some read =>
      obtain ⟨valueLen, afterValueLen⟩ := read
      obtain ⟨rfl, valueFour⟩ := readExact_eq_some.mp second
      cases third : readExact (ofBigEndian keyLen) afterValueLen with
      | none => simp [bind, Option.bind, second, third]
      | some read =>
        obtain ⟨key, afterKey⟩ := read
        obtain ⟨rfl, keySize⟩ := readExact_eq_some.mp third
        simp only [List.length_append] at whole
        by_cases small : ofBigEndian valueLen < 2 ^ 31
        · -- The value is within the file exactly if it can be read.
          cases fourth : readExact (ofBigEndian valueLen) afterKey with
          | none =>
            have short := readExact_eq_none.mp fourth
            have outside : file.length <
                pos + 4 + 4 + ofBigEndian keyLen + ofBigEndian valueLen := by omega
            simp only [bind, Option.bind, second, third, if_pos small, if_pos outside,
              fourth, Option.map_none]
          | some read =>
            obtain ⟨stored, rest⟩ := read
            obtain ⟨rfl, valueSize⟩ := readExact_eq_some.mp fourth
            rw [List.length_append] at whole
            have inside : ¬ file.length <
                pos + 4 + 4 + ofBigEndian keyLen + ofBigEndian valueLen := by omega
            simp only [bind, Option.bind, second, third, if_pos small, if_neg inside,
              fourth, Option.map_some]
            simp only [Store.Write.key_set, value, Option.map_some, keySize, valueSize]
        · simp only [bind, Option.bind, second, third, if_neg small, Option.map_some]
          simp only [Store.Write.key_delete, value, Option.map_none, keySize]

/-- Enter a write at a position into a keydir. -/
def index (pos : Nat) (keydir : KeyDir) : Write → KeyDir
  | .set key value => keydir.replay (.set key (pos + 8 + key.length, value.length))
  | .delete key => keydir.replay (.delete key)

/-- Enter writes one after the other. -/
def indexAll : Nat → KeyDir → List Write → KeyDir
  | _, keydir, [] => keydir
  | pos, keydir, write :: writes =>
    indexAll (pos + (format.encode write).length) (index pos keydir write) writes

theorem indexAll_append (pos : Nat) (keydir : KeyDir) (first second : List Write) :
    indexAll pos keydir (first ++ second) =
      indexAll (pos + (format.encodeAll first).length) (indexAll pos keydir first) second := by
  induction first generalizing pos keydir with
  | nil => rfl
  | cons write writes ih =>
    rw [List.cons_append, indexAll, ih, RecordFormat.encodeAll_cons, List.length_append,
      Nat.add_assoc]
    rfl

/-- Scanning a file enters the records that can be read and cuts off what follows them. -/
theorem scanEntries_eq (file : Bytes) {fuel pos : Nat} (keydir : KeyDir)
    (inside : pos ≤ file.length) (enough : file.length - pos ≤ fuel) :
    scanEntries file fuel pos keydir =
      (indexAll pos keydir (format.recover (file.drop pos)),
        file.take (pos + (format.encodeAll (format.recover (file.drop pos))).length)) := by
  -- Every entry moves the position, so the fuel that is left is enough behind it.
  induction fuel generalizing pos keydir with
  | zero =>
    obtain rfl : pos = file.length := by omega
    simp [scanEntries, format.recover_of_none format.decode_nil, indexAll]
  | succ fuel ih =>
    by_cases more : pos < file.length
    · rw [scanEntries, if_pos more, readEntry_eq inside]
      cases found : format.decode (file.drop pos) with
      | none => simp [format.recover_of_none found, indexAll]
      | some read =>
        obtain ⟨write, rest⟩ := read
        have taken := format.length_decode found
        have positive := format.encode_pos write
        have behind := format.drop_of_decode found
        rw [List.drop_drop] at behind
        rw [List.length_drop] at taken
        have later := @ih (pos + (format.encode write).length) (index pos keydir write)
          (by omega) (by omega)
        rw [behind] at later
        rw [format.recover_of_decode found, RecordFormat.encodeAll_cons, List.length_append,
          ← Nat.add_assoc, indexAll, ← later]
        have size := length_encode write
        cases write with
        | set | delete =>
          rw [size, ← Nat.add_assoc, ← Nat.add_assoc]
          rfl
    · obtain rfl : pos = file.length := by omega
      simp [scanEntries, format.recover_of_none format.decode_nil, indexAll]

/-- The keydir of a file holds the records that can be read, and the file is cut off behind
them. -/
theorem buildKeydir_eq (file : Bytes) :
    buildKeydir file = (indexAll 0 ∅ (format.recover file),
      file.take (format.encodeAll (format.recover file)).length) := by
  have scanned := @scanEntries_eq file file.length 0 ∅ (Nat.zero_le _) (Nat.sub_le _ _)
  rw [List.drop_zero, Nat.zero_add] at scanned
  exact scanned

/-- A file of writes that fit, with anything unreadable behind them, is cut off to the
writes. -/
theorem buildKeydir_append {writes : List Write} (fits : ∀ write ∈ writes, Fits write)
    {tail : Bytes} (unreadable : format.recover tail = []) :
    buildKeydir (format.encodeAll writes ++ tail) =
      (indexAll 0 ∅ writes, format.encodeAll writes) := by
  rw [buildKeydir_eq, format.recover_append fits, unreadable, List.append_nil, List.take_left]

/-- What `writeEntry` returns and leaves for an entry whose length does not overflow. -/
theorem writeEntry_of_short (file : Bytes) {write : Write}
    (short : 8 + write.key.length + ((value write).map List.length).getD 0 < 2 ^ 32) :
    writeEntry file none write.key (value write) =
      (.ok (file.length, (format.encode write).length), file ++ format.encode write) := by
  have keyLen : write.key.length % 2 ^ 32 = write.key.length := Nat.mod_eq_of_lt (by omega)
  have valueLen : ((value write).map List.length).getD 0 % 2 ^ 32 =
      ((value write).map List.length).getD 0 := Nat.mod_eq_of_lt (by omega)
  rw [writeEntry, keyLen, valueLen, if_neg (by omega), length_encode]
  rfl

/-! ## What the keydir points at -/

/-- A keydir points at the values of a map in a file. -/
def Locates (file : Bytes) (keydir : KeyDir) (data : Store fun _ : Bytes => Bytes) : Prop :=
  ∀ key, (keydir.get key = none ∧ data.get key = none) ∨
    ∃ pos value, keydir.get key = some (pos, value.length) ∧ data.get key = some value ∧
      readValue file pos value.length = .ok value

theorem locates_empty : Locates [] ∅ ∅ := fun key => .inl ⟨Store.get_empty key, Store.get_empty key⟩

/-- Values stay where they are when a file grows. -/
theorem readValue_append {value : Bytes} {pos len : Nat} (more : Bytes)
    (found : readValue file pos len = .ok value) :
    readValue (file ++ more) pos len = .ok value := by
  unfold readValue at found
  split at found
  next read rest taken =>
    cases found
    obtain ⟨split, size⟩ := readExact_eq_some.mp taken
    by_cases inside : pos ≤ file.length
    · have again := readExact_append value (rest ++ more)
      rw [size] at again
      rw [readValue, List.drop_append_of_le_length inside, split, List.append_assoc, again]
    · -- Behind the end of the file only an empty value can be read.
      rw [List.drop_of_length_le (by omega)] at split
      obtain ⟨rfl, rfl⟩ := List.append_eq_nil_iff.mp split.symm
      obtain rfl : len = 0 := size.symm
      rfl
  next => cases found

/-- The value of an entry is read at the place its write is entered with. -/
theorem readValue_encode (file : Bytes) (key value : Bytes) :
    readValue (file ++ format.encode (.set key value)) (file.length + 8 + key.length)
      value.length = .ok value := by
  have header : (file ++ (bigEndian 4 key.length ++ bigEndian 4 value.length) ++ key).length =
      file.length + 8 + key.length := by
    simp only [List.length_append, length_bigEndian]
  have whole : file ++ format.encode (.set key value) =
      file ++ (bigEndian 4 key.length ++ bigEndian 4 value.length) ++ key ++ (value ++ []) := by
    simp [format, entry, Bitcask.value]
  rw [readValue, whole, ← header, List.drop_left, readExact_append]

/-- Appending an entry and entering it keeps the keydir pointing at the values. -/
theorem Locates.write {keydir : KeyDir} (located : Locates file keydir data) (write : Write) :
    Locates (file ++ format.encode write) (index file.length keydir write) (data.replay write) := by
  intro key
  by_cases written : key = write.key
  · cases write with
    | set other stored =>
      obtain rfl : key = other := written
      exact .inr ⟨_, stored, Store.get_set_self keydir key _, Store.get_set_self data key stored,
        readValue_encode file key stored⟩
    | delete other =>
      obtain rfl : key = other := written
      exact .inl ⟨Store.get_delete_self keydir key, Store.get_delete_self data key⟩
  · have kept : (index file.length keydir write).get key = keydir.get key := by
      cases write with
      | set other stored => exact Store.get_set_of_ne keydir _ written
      | delete other => exact Store.get_delete_of_ne keydir written
    rw [kept, Store.get_replay_of_ne data write written]
    rcases located key with absent | ⟨pos, stored, entered, present, found⟩
    · exact .inl absent
    · exact .inr ⟨pos, stored, entered, present, readValue_append _ found⟩

/-- The keydir of a list of writes points at the values they leave. -/
theorem Locates.writes {keydir : KeyDir} (located : Locates file keydir data)
    (writes : List Write) :
    Locates (file ++ format.encodeAll writes) (indexAll file.length keydir writes)
      (Program.replayAll Store.replay data writes) := by
  induction writes generalizing file keydir data with
  | nil =>
    rw [RecordFormat.encodeAll_nil, List.append_nil]
    exact located
  | cons write writes ih =>
    have next := ih (located.write write)
    rw [List.length_append, List.append_assoc] at next
    exact next

end Radb.Storage.Bitcask
