import Radb.Storage.Bitcask.Refinement

/-! # Recovery of BitCask files

A file that is cut off anywhere recovers the writes whose entries are complete. A write
that fails leaves the beginning of its entry in the file. The entries written behind it
are then read from the wrong place on, unless nothing of the failed entry was written.
-/

namespace Radb.Storage.Bitcask

open Foundation Foundation.Codec

variable {writes : List Write} {key : Bytes}

/-- Writes one after the other append their entries. -/
theorem log_serve_writes (s : Bitcask) (fits : ∀ write ∈ writes, Fits write) :
    (serve respond s (writes.map .write)).2 =
      ⟨s.log ++ format.encodeAll writes, indexAll s.log.length s.keydir writes⟩ := by
  induction writes generalizing s with
  | nil =>
    rw [RecordFormat.encodeAll_nil, List.append_nil]
    rfl
  | cons write writes ih =>
    have next := congrArg Prod.snd (Represents.write_eq s (fits write List.mem_cons_self))
    have later := ih (s.write none write).2 fun other member =>
      fits other (List.mem_cons_of_mem _ member)
    change (serve respond (s.write none write).2 (writes.map .write)).2 = _
    rw [later, next, RecordFormat.encodeAll_cons, List.append_assoc, List.length_append]
    rfl

/-- The database after some writes to an empty file. -/
def written (writes : List Write) : Bitcask := (serve respond (new []) (writes.map .write)).2

theorem written_log (fits : ∀ write ∈ writes, Fits write) :
    (written writes).log = format.encodeAll writes := by
  rw [written, log_serve_writes _ fits]
  rfl

/-- Writes are recovered from the first `count` bytes of their file: the longest beginning
of the writes whose entries lie within these bytes is found again, the file is cut off
behind these entries, and all later operations are answered as from the map they lead to. -/
def Recovers (writes : List Write) (count : Nat) : Prop :=
  ∃ kept : List Write, kept <+: writes ∧ (format.encodeAll kept).length ≤ count ∧
    (∀ other, other <+: writes → (format.encodeAll other).length ≤ count → other <+: kept) ∧
    (new ((written writes).log.take count)).log = format.encodeAll kept ∧
    (∀ key, (new ((written writes).log.take count)).get key =
      .ok (Store.get (Program.replayAll Store.replay (∅ : Memory) kept) key)) ∧
    ∀ later, (∀ operation ∈ later, Fitting operation) →
      (serve respond (new ((written writes).log.take count)) later).1.map
          (Except.map Reply.logical) =
        (serve Memory.respond (Program.replayAll Store.replay ∅ kept) later).1.map
          (Except.map Reply.logical)

/-- Writes whose lengths fit are recovered from a file that is cut off anywhere. -/
theorem torn_tail_recovered {writes : List Write} (fits : ∀ write ∈ writes, Fits write)
    (count : Nat) : Recovers writes count := by
  have kept : ∀ write ∈ format.within count writes, Fits write := fun write member =>
    fits write ((format.within_isPrefix count writes).subset member)
  obtain ⟨tail, cut, _⟩ := format.exists_tail count writes
  -- Nothing can be read from the torn tail, since only the complete entries are recovered.
  have unreadable : format.recover tail = [] := by
    have recovered := format.recover_take fits count
    rw [cut, format.recover_append kept] at recovered
    simpa using recovered
  have represents := represents_new kept unreadable
  have log : (new (format.encodeAll (format.within count writes) ++ tail)).log =
      format.encodeAll (format.within count writes) := by
    rw [new, buildKeydir_append kept unreadable]
  rw [← cut, ← written_log fits] at represents log
  exact ⟨format.within count writes, format.within_isPrefix count writes,
    format.length_within count writes, fun other begins short => format.within_longest begins short,
    log, represents.get, fun later fit => (represents.serve fit).1⟩

theorem torn_tail_recovered_inside_value :
    Recovers [.set [1] [10], .delete [2], .set [3] [30, 31]] 29 :=
  torn_tail_recovered (by decide) 29

/-- The length of a value of two gibibytes or more is a negative one in its entry, which is read as
the deletion of its key. -/
theorem decode_oversized {value : Bytes} (large : 2 ^ 31 ≤ value.length)
    (short : 8 + key.length + value.length < 2 ^ 32) (rest : Bytes) :
    format.decode (bigEndian 4 key.length ++ (bigEndian 4 value.length ++ (key ++ ([] ++ rest)))) =
      some (.delete key, rest) := by
  refine (@decode_eq_some _ rest (.delete key)).mpr ⟨_, _, length_bigEndian 4 key.length,
    length_bigEndian 4 value.length, ?_, ?_, rfl⟩
  · rw [ofBigEndian_bigEndian]
    exact Nat.mod_eq_of_lt (by omega)
  · change 2 ^ 31 ≤ ofBigEndian (bigEndian 4 value.length)
    rw [ofBigEndian_bigEndian, Nat.mod_eq_of_lt (by omega)]
    exact large

theorem encode_set (key value : Bytes) : format.encode (.set key value) =
    bigEndian 4 key.length ++ (bigEndian 4 value.length ++ (key ++ ([] ++ value))) := by
  simp [format, entry, Bitcask.value]

/-- The file of a single write. -/
theorem log_set_new {value : Bytes} (short : 8 + key.length + value.length < 2 ^ 32) :
    (set (new []) none key value).2.log = format.encode (.set key value) := by
  have appended := @writeEntry_of_short [] (.set key value) short
  change writeEntry [] none key (some value) = _ at appended
  have opened : (new []).log = [] := rfl
  simp only [set, opened, appended, List.nil_append]

/-- The entry of a value of two gibibytes or more is complete without the value. -/
theorem not_recovers_of_oversized {value : Bytes} (large : 2 ^ 31 ≤ value.length)
    (short : 8 + key.length + value.length < 2 ^ 32) :
    ¬ Recovers [.set key value] (8 + key.length) := by
  intro recovers
  obtain ⟨kept, begins, complete, _, log, _⟩ := recovers
  have file : (written [.set key value]).log = format.encode (.set key value) := log_set_new short
  have header : (format.encode (.set key value)).take (8 + key.length) =
      bigEndian 4 key.length ++ (bigEndian 4 value.length ++ (key ++ ([] ++ []))) := by
    have whole : format.encode (.set key value) =
        (bigEndian 4 key.length ++ (bigEndian 4 value.length ++ key)) ++ value := by
      simp [encode_set]
    rw [whole, List.take_left' (by simp [length_bigEndian]; omega)]
    simp
  have misread := decode_oversized large short []
  rw [← header] at misread
  have nothing : kept = [] := by
    rcases List.prefix_cons_iff.mp begins with empty | ⟨rest, rfl, _⟩
    · exact empty
    · rw [RecordFormat.encodeAll_cons, List.length_append, length_encode] at complete
      change 8 + key.length + value.length + _ ≤ _ at complete
      omega
  rw [nothing, file, new, buildKeydir_eq, format.recover_of_decode misread,
    format.recover_of_none format.decode_nil] at log
  have length := congrArg List.length log
  simp [length_encode] at length

theorem oversized_value_misread : ¬ Recovers [.set [] (List.replicate (3 * 2 ^ 30) 0)] 8 :=
  not_recovers_of_oversized (by rw [List.length_replicate]; decide)
    (by rw [List.length_replicate]; decide)

/-- A pair that is set can be read, also from the reopened file. No length or sum of lengths leaves
the 32 bits it is computed in, and the length of the value keeps its sign. -/
structure Retains (s : Bitcask) (key value : Bytes) : Prop where
  sum : 4 + 4 + key.length % 2 ^ 32 + value.length % 2 ^ 32 < 2 ^ 32
  sign : value.length % 2 ^ 32 < 2 ^ 31
  set : (s.set none key value).1 = .ok ()
  get : (s.set none key value).2.get key = .ok (some value)
  reopen : (new (s.set none key value).2.log).get key = .ok (some value)

/-- Up to two gibibytes, exactly the pairs that fit are kept. -/
theorem retains_iff_fits {operations : List Operation}
    (fits : ∀ operation ∈ operations, Fitting operation) {key value : Bytes}
    (keyLen : key.length ≤ 2 ^ 31) (valueLen : value.length ≤ 2 ^ 31) :
    Retains (serve respond (new []) operations).2 key value ↔ Fits (.set key value) := by
  have keyExact : key.length % 2 ^ 32 = key.length := Nat.mod_eq_of_lt (by omega)
  have valueExact : value.length % 2 ^ 32 = value.length := Nat.mod_eq_of_lt (by omega)
  constructor
  · intro retains
    have sum := retains.sum
    have sign := retains.sign
    rw [keyExact, valueExact] at sum
    rw [valueExact] at sign
    exact ⟨sum, sign⟩
  · intro fit
    have represents := (represents_empty.serve fits).2.write fit
    have stored := represents.get key
    rw [Store.get_set_self] at stored
    refine ⟨?_, ?_, congrArg Prod.fst (Represents.write_eq _ fit), stored, ?_⟩
    · rw [keyExact, valueExact]
      exact fit.1
    · rw [valueExact]
      exact fit.2
    · rw [← stored]
      exact congrArg (get · key) represents.reopen

theorem retains_iff_fits_small : Retains (serve respond (new []) [.compact]).2 [1] [10] :=
  (retains_iff_fits (by decide) (by decide) (by decide)).mpr (by decide)

/-- Bytes that are all set are no entry: its key would be longer than they are. -/
theorem decode_replicate {count : Nat} (small : count < 2 ^ 32 - 1) :
    format.decode (List.replicate count 255) = none := by
  cases found : format.decode (List.replicate count 255) with
  | none => rfl
  | some read =>
    obtain ⟨write, rest⟩ := read
    obtain ⟨keyLen, valueLen, keyFour, _, keySize, _, split⟩ := decode_eq_some.mp found
    have length := congrArg List.length split
    simp only [List.length_append, List.length_replicate, keyFour] at length
    have taken := congrArg (List.take 4) split
    rw [List.take_left' keyFour, List.take_replicate, Nat.min_eq_left (by omega)] at taken
    have huge : ofBigEndian (List.replicate 4 255) = 2 ^ 32 - 1 := by decide
    rw [← taken, huge] at keySize
    omega

/-- A value of two gibibytes that is no entry itself is gone when its file is reopened. -/
theorem get_new_oversized {value : Bytes} (large : 2 ^ 31 ≤ value.length)
    (short : 8 + key.length + value.length < 2 ^ 32) (unreadable : format.decode value = none) :
    (new (set (new []) none key value).2.log).get key = .ok none := by
  have gone : Store.get (indexAll 0 ∅ [.delete key]) key = none := Store.get_delete_self ∅ key
  rw [log_set_new short, encode_set, new, buildKeydir_eq,
    format.recover_of_decode (decode_oversized large short value),
    format.recover_of_none unreadable, get]
  simp only [gone]

theorem oversized_value_lost :
    (new (set (new []) none [] (List.replicate (2 ^ 31) 255)).2.log).get [] = .ok none ∧
      ¬ Retains (new []) [] (List.replicate (2 ^ 31) 255) := by
  have lost := @get_new_oversized [] (List.replicate (2 ^ 31) 255)
    (by rw [List.length_replicate]) (by rw [List.length_replicate]; decide)
    (decode_replicate (by decide))
  refine ⟨lost, ?_⟩
  intro retains
  rw [retains.reopen] at lost
  cases lost

/-! ## Failed writes -/

/-- After a failed write, any later writes are recovered when the file is reopened, and the
other keys have the values they had before the failure. -/
def Unharmed (s : Bitcask) (failure : Failure) (write : Write) : Prop :=
  ∀ later : List Write, (∀ write ∈ later, Fits write) →
    let last := (serve respond (s.write (some failure) write).2 (later.map .write)).2
    (∀ key, (new last.log).get key = last.get key) ∧
      ∀ key, (∀ write ∈ later, write.key ≠ key) → (new last.log).get key = s.get key

theorem write_failed (s : Bitcask) (failure : Failure) {write : Write}
    (short : 8 + write.key.length + ((value write).map List.length).getD 0 < 2 ^ 32) :
    s.write (some failure) write = (.error (.error (.internal failure.message)),
      { s with log := s.log ++ (format.encode write).take failure.written }) := by
  have failed : writeEntry s.log (some failure) write.key (value write) =
      (.error (.error (.internal failure.message)),
        s.log ++ (format.encode write).take failure.written) := by
    have keyLen : write.key.length % 2 ^ 32 = write.key.length := Nat.mod_eq_of_lt (by omega)
    have valueLen : ((value write).map List.length).getD 0 % 2 ^ 32 =
        ((value write).map List.length).getD 0 := Nat.mod_eq_of_lt (by omega)
    rw [writeEntry, keyLen, valueLen, if_neg (by omega)]
    rfl
  cases write with
  | set key stored =>
    change writeEntry s.log (some failure) key (some stored) = _ at failed
    simp only [Bitcask.write, set, failed]
  | delete key =>
    change writeEntry s.log (some failure) key none = _ at failed
    simp only [Bitcask.write, delete, failed]

/-- Entering writes of other keys leaves an entry alone. -/
theorem get_indexAll_of_ne (pos : Nat) (keydir : KeyDir)
    (untouched : ∀ write ∈ writes, write.key ≠ key) :
    (indexAll pos keydir writes).get key = keydir.get key := by
  induction writes generalizing pos keydir with
  | nil => rfl
  | cons write writes ih =>
    rw [indexAll, ih _ _ fun other member => untouched other (List.mem_cons_of_mem _ member)]
    have different := (untouched write List.mem_cons_self).symm
    cases write with
    | set other stored => exact Store.get_set_of_ne keydir _ different
    | delete other => exact Store.get_delete_of_ne keydir different

/-- Whatever stands behind the entries of a file, a key of which nothing can be read there
keeps its value. -/
theorem Represents.get_new_append {s : Bitcask} {data : Memory} (represents : s.Represents data)
    {tail : Bytes} (absent : ∀ write ∈ format.recover tail, write.key ≠ key) :
    (new (s.log ++ tail)).get key = s.get key := by
  have located := represents.located key
  obtain ⟨writes, fits, log, keydir, _⟩ := represents
  have file : (new (s.log ++ tail)).log =
      s.log ++ tail.take (format.encodeAll (format.recover tail)).length := by
    rw [new, buildKeydir_eq, log, format.recover_append fits, RecordFormat.encodeAll_append,
      List.length_append, List.take_append, List.take_of_length_le (Nat.le_add_right _ _),
      Nat.add_sub_cancel_left]
  have entered : Store.get (new (s.log ++ tail)).keydir key = Store.get s.keydir key := by
    rw [new, buildKeydir_eq, log, format.recover_append fits]
    simp only
    rw [indexAll_append, get_indexAll_of_ne _ _ absent, keydir]
  unfold Bitcask.get
  rw [entered, file]
  rcases located with ⟨missing, _⟩ | ⟨pos, stored, present, _, found⟩
  · rw [missing]
  · simp only [present, found, readValue_append _ found]

/-- A write of a key without a value. -/
def bare (key : Bytes) (deletes : Bool) : Write := if deletes then .delete key else .set key []

theorem get_bare (log : Bytes) (pos : Nat) (keydir : KeyDir) (key : Bytes) (deletes : Bool) :
    get ⟨log, index pos keydir (bare key deletes)⟩ key =
      .ok (if deletes then none else some []) := by
  cases deletes with
  | false =>
    have entered : Store.get (index pos keydir (bare key false)) key =
        some (pos + 8 + key.length, 0) := Store.get_set_self keydir key _
    rw [get, entered]
    rfl
  | true =>
    have gone : Store.get (index pos keydir (bare key true)) key = none :=
      Store.get_delete_self keydir key
    rw [get, gone]
    rfl

theorem fits_bare (small : key.length ≤ 1) (deletes : Bool) :
    Fits (bare (1 :: key) deletes) := by
  cases deletes <;> simp [Fits, bare, value] <;> omega

/-- The bytes of a write without a value: its second length field is uniform. -/
theorem encode_bare (key : Bytes) (deletes : Bool) :
    format.encode (bare key deletes) = bigEndian 4 key.length ++
      (List.replicate 4 (if deletes then 255 else 0) ++ key) := by
  cases deletes with
  | false =>
    change entry key (some []) = _
    rw [entry, List.append_assoc, Option.getD_some, List.append_nil]
    rfl
  | true =>
    change entry key none = _
    rw [entry, List.append_assoc, Option.getD_none, List.append_nil]
    rfl

/-- The entry that is read at the beginning of a torn one has the torn key's length, or
takes its key from a length field of the entry behind. -/
theorem key_of_torn {write read : Write} (fits : Fits write) {torn rest : Bytes}
    (begins : torn <+: format.encode write) (started : torn ≠ [])
    (different : (1 :: key).length ≠ write.key.length) (deletes : Bool)
    (found : format.decode (torn ++ format.encode (bare (1 :: key) deletes)) =
      some (read, rest)) : read.key ≠ 1 :: key := by
  intro same
  obtain ⟨keyLen, valueLen, keyFour, valueFour, keySize, _, split⟩ := decode_eq_some.mp found
  have positive : 0 < torn.length := List.length_pos_iff.mpr started
  by_cases four : 4 ≤ torn.length
  · -- The whole key length is that of the torn entry.
    have field : bigEndian 4 write.key.length <+: torn := by
      refine List.prefix_of_prefix_length_le ?_ begins (by rw [length_bigEndian]; exact four)
      exact ⟨_, (List.append_assoc _ _ _).symm⟩
    have equal : keyLen = bigEndian 4 write.key.length := by
      have within : keyLen <+: torn ++ format.encode (bare (1 :: key) deletes) := ⟨_, split.symm⟩
      have both := List.prefix_of_prefix_length_le within (field.trans (List.prefix_append _ _))
        (by rw [keyFour, length_bigEndian])
      exact both.eq_of_length (by rw [keyFour, length_bigEndian])
    have total := fits.1
    rw [equal, ofBigEndian_bigEndian, Nat.mod_eq_of_lt (by omega), same] at keySize
    exact different keySize.symm
  · -- The ninth byte is one of the second length field behind, which is never one.
    have ninth := congrArg (fun bytes : Bytes => bytes[8]?) split
    have three : torn.length = 1 ∨ torn.length = 2 ∨ torn.length = 3 := by omega
    rw [encode_bare, same] at ninth
    rcases three with length | length | length <;> cases deletes <;>
      simp [List.getElem?_append, length, length_bigEndian, keyFour, valueFour] at ninth

/-- Behind the beginning of an entry, an entry for a key of another length is not read. -/
theorem not_mem_recover_torn {write : Write} (fits : Fits write) {torn : Bytes}
    (begins : torn <+: format.encode write) (proper : torn ≠ format.encode write)
    (started : torn ≠ []) (different : (1 :: key).length ≠ write.key.length) (deletes : Bool) :
    ∀ read ∈ format.recover (torn ++ format.encode (bare (1 :: key) deletes)),
      read.key ≠ 1 :: key := by
  have size : (format.encode (bare (1 :: key) deletes)).length = 8 + (1 :: key).length := by
    rw [length_encode]
    cases deletes <;> rfl
  cases found : format.decode (torn ++ format.encode (bare (1 :: key) deletes)) with
  | none => simp [format.recover_of_none found]
  | some pair =>
    obtain ⟨first, rest⟩ := pair
    have beyond := format.length_lt_of_torn fits begins proper found
    have taken := format.length_decode found
    rw [List.length_append, size] at taken
    rw [format.recover_of_decode found]
    intro read member same
    rcases List.mem_cons.mp member with rfl | later
    · exact key_of_torn fits begins started different deletes found same
    · -- What is left behind the first entry is too short for another one with this key.
      have enough := format.length_encode_of_mem later
      rw [length_encode, same] at enough
      omega

/-- A failed write harms no later data exactly if nothing of its entry reached the file. -/
theorem failed_write_harmless_iff {operations : List Operation}
    (fits : ∀ operation ∈ operations, Fitting operation) {failure : Failure} {write : Write}
    (fit : Fits write) (proper : failure.written < (format.encode write).length) :
    Unharmed (serve respond (new []) operations).2 failure write ↔ failure.written = 0 := by
  obtain ⟨-, represents⟩ := represents_empty.serve fits
  generalize (serve respond (new []) operations).2 = s at represents
  generalize (serve Memory.respond ∅ operations).2 = data at represents
  have failed := congrArg Prod.snd (write_failed s failure fit.1)
  constructor
  · intro unharmed
    by_contra some
    -- A key of another length is written if it is absent, and deleted if it is there.
    obtain ⟨key, different, small⟩ : ∃ key : Bytes,
        (1 :: key).length ≠ write.key.length ∧ key.length ≤ 1 := by
      by_cases one : write.key.length = 1
      · exact ⟨[0], by simp [one], Nat.le_refl _⟩
      · exact ⟨[], fun same => one same.symm, Nat.zero_le _⟩
    have later : ∀ other ∈ [bare (1 :: key) (Store.get data (1 :: key)).isSome], Fits other :=
      List.forall_mem_singleton.mpr (fits_bare small _)
    have length : ((format.encode write).take failure.written).length = failure.written :=
      List.length_take_of_le proper.le
    have torn : (format.encode write).take failure.written ≠ format.encode write := by
      intro whole
      rw [whole] at length
      omega
    have started : (format.encode write).take failure.written ≠ [] := by
      intro empty
      rw [empty] at length
      exact some length.symm
    have kept := represents.get_new_append
      (not_mem_recover_torn fit (List.take_prefix _ _) torn started different
        (Store.get data (1 :: key)).isSome)
    have recovered := (unharmed _ later).1 (1 :: key)
    rw [log_serve_writes _ later, failed] at recovered
    simp only [RecordFormat.encodeAll_cons, RecordFormat.encodeAll_nil, List.append_nil,
      List.append_assoc] at recovered
    rw [kept, represents.get] at recovered
    have answered := recovered.trans (get_bare _ _ s.keydir (1 :: key) _)
    cases stored : Store.get data (1 :: key) with
    | none | some => simp [stored] at answered
  · intro none later fit
    have unchanged : (s.write (some failure) write).2 = s := by
      rw [failed, none, List.take_zero, List.append_nil]
    simp only [unchanged]
    have fitting : ∀ operation ∈ later.map Operation.write, Fitting operation := by
      intro operation member
      obtain ⟨other, inside, rfl⟩ := List.mem_map.mp member
      exact fit other inside
    have last := (represents.serve fitting).2
    refine ⟨fun key => by rw [last.reopen], fun key untouched => ?_⟩
    rw [log_serve_writes _ fit]
    apply represents.get_new_append
    have read := @RecordFormat.recover_append _ format later fit []
    rw [List.append_nil, format.recover_of_none format.decode_nil, List.append_nil] at read
    rw [read]
    exact untouched

/-- A write fails before any byte of it reaches the file. -/
theorem failed_write_harmless_nothing_written :
    Unharmed (serve respond (new []) [.write (.set [1] [10]), .compact]).2
      ⟨0, "No space left on device (os error 28)"⟩ (.set [2] [20]) :=
  (failed_write_harmless_iff (by decide) (by decide) (by decide)).mpr rfl

/-- The first byte of an entry is written, and a later write of another key succeeds. When
the file is reopened that key is missing, though it can be read before. -/
theorem failed_write_loses_later_write :
    let last := (serve respond ((new []).write (some ⟨1, "No space left on device (os error 28)"⟩)
      (.set [7] [7])).2 [.write (.set [1] [2])]).2
    last.get [1] = .ok (some [2]) ∧ (new last.log).get [1] = .ok none ∧
      ¬ Unharmed (new []) ⟨1, "No space left on device (os error 28)"⟩ (.set [7] [7]) := by
  have read : let last := (serve respond
      ((new []).write (some ⟨1, "No space left on device (os error 28)"⟩) (.set [7] [7])).2
        [.write (.set [1] [2])]).2
      last.get [1] = .ok (some [2]) ∧ (new last.log).get [1] = .ok none := by
    decide +kernel
  refine ⟨read.1, read.2, fun unharmed => ?_⟩
  have same := (unharmed [.set [1] [2]] (by decide)).1 [1]
  exact absurd (read.2.symm.trans (same.trans read.1)) (by decide)

end Radb.Storage.Bitcask
