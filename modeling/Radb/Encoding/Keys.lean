import Radb.Raft.Log
import Radb.Sql.Engine.Key
import Radb.Storage.Engine
import Radb.Storage.Mvcc.Key

/-! # Key encodings

The byte encodings of the three kinds of keys: those of the multi-version store, of the
Raft log and of the SQL engine. A key is its variant index and then its fields, and a
key prefix is the beginning of one. Versions and indexes are 64-bit words.
-/

namespace Radb

open Foundation Radb.Encoding

variable {key : Key}

variable {bytes : Bytes} {first second : Version}

namespace Storage.Mvcc

namespace Key

/-- The bytes of a version. -/
def word (held : Version) : Bytes := Codec.word.encode (UInt64.ofNat held)

/-- The bytes of a key. -/
def encode : Key → Bytes
  | nextVersion => [0]
  | txnActive held => 1 :: word held
  | txnActiveSnapshot held => 2 :: word held
  | txnWrite held key => 3 :: (word held ++ Codec.bytes.encode key)
  | version key held => 4 :: (Codec.bytes.encode key ++ word held)
  | unversioned key => 5 :: Codec.bytes.encode key

/-- Read a key. -/
def decode : Bytes → Option Key
  | [0] => some nextVersion
  | 1 :: rest => (Codec.word.decodeAll rest).map fun held => txnActive held.toNat
  | 2 :: rest => (Codec.word.decodeAll rest).map fun held => txnActiveSnapshot held.toNat
  | 3 :: rest =>
    ((Codec.word.pair Codec.bytes).decodeAll rest).map fun (held, key) =>
      txnWrite held.toNat key
  | 4 :: rest =>
    ((Codec.bytes.pair Codec.word).decodeAll rest).map fun (key, held) =>
      version key held.toNat
  | 5 :: rest => (Codec.bytes.decodeAll rest).map unversioned
  | _ => none

/-- The version of a key fits a 64-bit word. -/
def Fits (key : Key) : Prop := ∀ held ∈ key.stamp, held < 2 ^ 64

theorem decode_encode (fits : key.Fits) : decode key.encode = some key := by
  cases key with
  | nextVersion => rfl
  | txnActive held | txnActiveSnapshot held =>
    simp only [encode, word, decode, Codec.decodeAll_encode, Option.map_some,
      UInt64.toNat_ofNat_of_lt' (fits held rfl)]
  | txnWrite held key =>
    have read : (Codec.word.pair Codec.bytes).decodeAll (word held ++ Codec.bytes.encode key) =
        some (UInt64.ofNat held, key) :=
      (Codec.word.pair Codec.bytes).decodeAll_encode (UInt64.ofNat held, key)
    simp only [encode, decode, read, Option.map_some, UInt64.toNat_ofNat_of_lt' (fits held rfl)]
  | version key held =>
    have read : (Codec.bytes.pair Codec.word).decodeAll (Codec.bytes.encode key ++ word held) =
        some (key, UInt64.ofNat held) :=
      (Codec.bytes.pair Codec.word).decodeAll_encode (key, UInt64.ofNat held)
    simp only [encode, decode, read, Option.map_some, UInt64.toNat_ofNat_of_lt' (fits held rfl)]
  | unversioned key =>
    simp only [encode, decode, Codec.decodeAll_encode, Option.map_some]

theorem encode_of_decode (read : decode bytes = some key) :
    key.Fits ∧ key.encode = bytes := by
  unfold decode at read
  split at read
  · cases read
    exact ⟨by simp [Fits, stamp], rfl⟩
  · obtain ⟨held, decoded, rfl⟩ := Option.map_eq_some_iff.mp read
    refine ⟨?_, ?_⟩
    · simpa [Fits, stamp] using held.toNat_lt
    · rw [encode, word, UInt64.ofNat_toNat, Codec.canonical_word.decodeAll decoded]
  · obtain ⟨held, decoded, rfl⟩ := Option.map_eq_some_iff.mp read
    refine ⟨?_, ?_⟩
    · simpa [Fits, stamp] using held.toNat_lt
    · rw [encode, word, UInt64.ofNat_toNat, Codec.canonical_word.decodeAll decoded]
  · obtain ⟨⟨held, key⟩, decoded, rfl⟩ := Option.map_eq_some_iff.mp read
    refine ⟨?_, ?_⟩
    · simpa [Fits, stamp] using held.toNat_lt
    · rw [encode, word, UInt64.ofNat_toNat,
        ← (Codec.canonical_word.pair Codec.canonical_bytes).decodeAll decoded]
      rfl
  · obtain ⟨⟨key, held⟩, decoded, rfl⟩ := Option.map_eq_some_iff.mp read
    refine ⟨?_, ?_⟩
    · simpa [Fits, stamp] using held.toNat_lt
    · rw [encode, word, UInt64.ofNat_toNat,
        ← (Codec.canonical_bytes.pair Codec.canonical_word).decodeAll decoded]
      rfl
  · obtain ⟨key, decoded, rfl⟩ := Option.map_eq_some_iff.mp read
    refine ⟨by simp [Fits, stamp], ?_⟩
    rw [encode, Codec.canonical_bytes.decodeAll decoded]
  · cases read

/-- Versions that fit a word are ordered as their bytes are, whatever follows. -/
theorem word_append_lt (left : first < 2 ^ 64) (right : second < 2 ^ 64) (rest other : Bytes) :
    word first ++ rest < word second ++ other ↔
      first < second ∨ first = second ∧ rest < other := by
  have compared := Codec.ordered_word.append_lt_iff (UInt64.ofNat first) (UInt64.ofNat second)
    rest other
  rwa [UInt64.toNat_ofNat_of_lt' left, UInt64.toNat_ofNat_of_lt' right] at compared

theorem word_lt (left : first < 2 ^ 64) (right : second < 2 ^ 64) :
    word first < word second ↔ first < second := by
  have compared := word_append_lt left right [] []
  simpa using compared

/-- Comparing encodings is comparing variants, and then the fields from left to right. -/
theorem encode_lt_iff {first second : Key} (left : first.Fits) (right : second.Fits) :
    first.encode < second.encode ↔ first.fields < second.fields := by
  cases first with
  | nextVersion =>
    cases second <;> simp [encode, fields, List.cons_lt_cons_iff, Prod.Lex.toLex_lt_toLex]
  | txnActive held =>
    cases second with
    | txnActive other =>
      simp [encode, fields, Prod.Lex.toLex_lt_toLex,
        word_lt (left held rfl) (right other rfl)]
    | _ => simp [encode, fields, List.cons_lt_cons_iff, Prod.Lex.toLex_lt_toLex]
  | txnActiveSnapshot held =>
    cases second with
    | txnActiveSnapshot other =>
      simp [encode, fields, Prod.Lex.toLex_lt_toLex,
        word_lt (left held rfl) (right other rfl)]
    | _ => simp [encode, fields, List.cons_lt_cons_iff, Prod.Lex.toLex_lt_toLex]
  | txnWrite held key =>
    cases second with
    | txnWrite other =>
      simp [encode, fields, Prod.Lex.toLex_lt_toLex,
        word_append_lt (left held rfl) (right other rfl), Codec.ordered_bytes.encode_lt_iff]
    | _ => simp [encode, fields, List.cons_lt_cons_iff, Prod.Lex.toLex_lt_toLex]
  | version key held =>
    cases second with
    | version found other =>
      simp [encode, fields, Prod.Lex.toLex_lt_toLex,
        word_lt (left held rfl) (right other rfl), Codec.ordered_bytes.append_lt_iff]
    | _ => simp [encode, fields, List.cons_lt_cons_iff, Prod.Lex.toLex_lt_toLex]
  | unversioned key =>
    cases second with
    | unversioned =>
      simp [encode, fields, Prod.Lex.toLex_lt_toLex,
        Codec.ordered_bytes.encode_lt_iff]
    | _ => simp [encode, fields, List.cons_lt_cons_iff, Prod.Lex.toLex_lt_toLex]

end Key

namespace KeyPrefix

/-- The bytes the keys of a group start with. -/
def encode : KeyPrefix → Bytes
  | nextVersion => [0]
  | txnActive => [1]
  | txnActiveSnapshot => [2]
  | txnWrite held => 3 :: Key.word held
  | version key => 4 :: Codec.bytes.encode key
  | unversioned => [5]

/-- The version of a prefix fits a 64-bit word. -/
def Fits : KeyPrefix → Prop
  | txnWrite held => held < 2 ^ 64
  | _ => True

/-- What the versions of the user keys that start with given bytes start with: the prefix
of the versions of that key, without the terminator of the bytes. -/
def scanLead (lead : Bytes) : Bytes :=
  (version lead).encode.take ((version lead).encode.length - 2)

theorem scanLead_eq (lead : Bytes) : scanLead lead = 4 :: Codec.escape lead := by
  have length : (4 :: (Codec.escape lead ++ [0, 0])).length - 2 =
      (4 :: Codec.escape lead).length := by
    simp
  rw [scanLead, encode, Codec.bytes, length, ← List.cons_append, List.take_left]

/-- The keys of a group are those that start with its bytes. -/
theorem isPrefix_encode_iff {group : KeyPrefix} (fits : group.Fits) (fitsKey : key.Fits) :
    group.encode <+: key.encode ↔ group.covers key = true := by
  cases group with
  | txnWrite held =>
    cases key with
    | txnWrite other user =>
      have same : UInt64.ofNat held = UInt64.ofNat other ↔ held = other := by
        rw [← UInt64.toNat_inj, UInt64.toNat_ofNat_of_lt' fits,
          UInt64.toNat_ofNat_of_lt' (fitsKey other rfl)]
      simp [encode, Key.encode, covers, List.cons_prefix_cons, Key.word,
        Codec.isPrefix_encode, same]
    | _ => simp [encode, Key.encode, covers, List.cons_prefix_cons]
  | version user =>
    cases key with
    | version => simp [encode, Key.encode, covers, List.cons_prefix_cons, Codec.isPrefix_encode]
    | _ => simp [encode, Key.encode, covers, List.cons_prefix_cons]
  | _ => cases key <;> simp [encode, Key.encode, covers, List.cons_prefix_cons]

/-- The keys that start with a shortened prefix are the versions of the user keys that
start with its bytes. -/
theorem scanLead_isPrefix_iff (lead : Bytes) (key : Key) :
    scanLead lead <+: key.encode ↔ ∃ user held, key = .version user held ∧ lead <+: user := by
  rw [scanLead_eq]
  cases key with
  | version user held =>
    have shape : (Key.version user held).encode =
        4 :: (Codec.escape user ++ (0 :: 0 :: Key.word held)) := by
      simp [Key.encode, Codec.bytes]
    rw [shape, List.cons_prefix_cons, Codec.escape_isPrefix]
    simp
  | _ => simp [Key.encode, List.cons_prefix_cons]

end KeyPrefix

end Storage.Mvcc

namespace Raft.Log

namespace Key

/-- The bytes of a key. -/
def encode : Key → Bytes
  | entry index => 0 :: Codec.word.encode (UInt64.ofNat index)
  | termVote => [1]
  | commitIndex => [2]

/-- Read a key. -/
def decode : Bytes → Option Key
  | 0 :: rest => (Codec.word.decodeAll rest).map fun index => entry index.toNat
  | [1] => some termVote
  | [2] => some commitIndex
  | _ => none

/-- The index of a key fits a 64-bit word. -/
def Fits : Key → Prop
  | entry index => index < 2 ^ 64
  | _ => True

theorem decode_encode (fits : key.Fits) : decode key.encode = some key := by
  cases key with
  | entry =>
    simp only [encode, decode, Codec.decodeAll_encode, Option.map_some,
      UInt64.toNat_ofNat_of_lt' fits]
  | termVote => rfl
  | commitIndex => rfl

theorem encode_of_decode (read : decode bytes = some key) :
    key.Fits ∧ key.encode = bytes := by
  unfold decode at read
  split at read
  · obtain ⟨index, decoded, rfl⟩ := Option.map_eq_some_iff.mp read
    refine ⟨index.toNat_lt, ?_⟩
    rw [encode, UInt64.ofNat_toNat, Codec.canonical_word.decodeAll decoded]
  · cases read
    exact ⟨trivial, rfl⟩
  · cases read
    exact ⟨trivial, rfl⟩
  · cases read

/-- Comparing encodings is comparing variants, and then the indexes. -/
theorem encode_lt_iff {first second : Key} (left : first.Fits) (right : second.Fits) :
    first.encode < second.encode ↔ first.fields < second.fields := by
  cases first with
  | entry index =>
    cases second with
    | entry other =>
      have compared := Codec.ordered_word.encode_lt_iff (UInt64.ofNat index)
        (UInt64.ofNat other)
      rw [UInt64.toNat_ofNat_of_lt' left, UInt64.toNat_ofNat_of_lt' right] at compared
      simp [encode, fields, Prod.Lex.toLex_lt_toLex, compared]
    | _ => simp [encode, fields, List.cons_lt_cons_iff, Prod.Lex.toLex_lt_toLex]
  | termVote | commitIndex =>
    cases second <;> simp [encode, fields, List.cons_lt_cons_iff, Prod.Lex.toLex_lt_toLex]

end Key

/-- Log key prefixes, used for prefix scans. -/
inductive KeyPrefix where
  | entry
  | termVote
  | commitIndex
  deriving DecidableEq

namespace KeyPrefix

/-- The bytes the keys of a group start with. -/
def encode : KeyPrefix → Bytes
  | entry => [0]
  | termVote => [1]
  | commitIndex => [2]

/-- The keys of a group. -/
def covers : KeyPrefix → Key → Bool
  | entry, .entry _ => true
  | termVote, .termVote => true
  | commitIndex, .commitIndex => true
  | _, _ => false

/-- The keys of a group are those that start with its bytes. -/
theorem isPrefix_encode_iff (group : KeyPrefix) (key : Key) :
    group.encode <+: key.encode ↔ group.covers key = true := by
  cases group <;> cases key <;> simp [encode, Key.encode, covers, List.cons_prefix_cons]

end KeyPrefix

end Raft.Log

namespace Sql

/-- The variant index and the content of a value: its number, or its bytes. -/
def Value.rank : Value → ℕ ×ₗ (ℤ ×ₗ Bytes)
  | .null => toLex (0, toLex (0, []))
  | .boolean value => toLex (1, toLex (if value then 1 else 0, []))
  | .integer value => toLex (2, toLex (value.toInt, []))
  | .float value => toLex (3, toLex (Keycode.place value, []))
  | .string value => toLex (4, toLex (0, Keycode.utf8 value))

theorem Value.canonical : Value.codec.Canonical := by
  intro bytes value rest read
  change Value.decode bytes = some (value, rest) at read
  change bytes = value.encode ++ rest
  unfold Value.decode at read
  split at read
  · cases read
    rfl
  · obtain ⟨found, decoded, same⟩ := Option.map_eq_some_iff.mp read
    cases same
    rw [Codec.canonical_bool decoded]
    rfl
  · obtain ⟨found, decoded, same⟩ := Option.map_eq_some_iff.mp read
    cases same
    rw [Keycode.canonical_integer decoded]
    rfl
  · obtain ⟨found, decoded, same⟩ := Option.map_eq_some_iff.mp read
    cases same
    rw [Keycode.canonical_float decoded]
    rfl
  · obtain ⟨found, decoded, same⟩ := Option.map_eq_some_iff.mp read
    cases same
    rw [Keycode.canonical_string decoded]
    rfl
  · cases read

/-- Values are ordered by variant, and then by their content. -/
theorem Value.encode_lt_iff (first second : Value) :
    first.encode < second.encode ↔ first.rank < second.rank := by
  cases first with
  | null => cases second <;> simp [encode, rank, List.cons_lt_cons_iff, Prod.Lex.toLex_lt_toLex]
  | boolean value =>
    cases second with
    | boolean other =>
      simp only [encode, rank, Prod.Lex.toLex_lt_toLex, List.cons_lt_cons_iff,
        Codec.ordered_bool.encode_lt_iff]
      cases value <;> cases other <;> simp
    | _ => simp [encode, rank, List.cons_lt_cons_iff, Prod.Lex.toLex_lt_toLex]
  | integer =>
    cases second with
    | integer => simp [encode, rank, Prod.Lex.toLex_lt_toLex, Keycode.ordered_integer.encode_lt_iff]
    | _ => simp [encode, rank, List.cons_lt_cons_iff, Prod.Lex.toLex_lt_toLex]
  | float =>
    cases second with
    | float => simp [encode, rank, Prod.Lex.toLex_lt_toLex, Keycode.ordered_float.encode_lt_iff]
    | _ => simp [encode, rank, List.cons_lt_cons_iff, Prod.Lex.toLex_lt_toLex]
  | string =>
    cases second with
    | string => simp [encode, rank, Prod.Lex.toLex_lt_toLex, Keycode.ordered_string.encode_lt_iff]
    | _ => simp [encode, rank, List.cons_lt_cons_iff, Prod.Lex.toLex_lt_toLex]

namespace Key

/-- The variant index and the fields of a key, padded to one shape. -/
def rank : Key → ℕ ×ₗ (Bytes ×ₗ (Bytes ×ₗ (ℕ ×ₗ (ℤ ×ₗ Bytes))))
  | table name =>
    toLex (0, toLex (Keycode.utf8 name, toLex ([], toLex (0, toLex (0, [])))))
  | index name column value =>
    toLex (1, toLex (Keycode.utf8 name, toLex (Keycode.utf8 column, value.rank)))
  | row name id => toLex (2, toLex (Keycode.utf8 name, toLex ([], id.rank)))

theorem encode_of_decode (read : decode bytes = some key) :
    key.encode = bytes := by
  unfold decode at read
  split at read
  · obtain ⟨name, decoded, rfl⟩ := Option.map_eq_some_iff.mp read
    rw [encode, Keycode.canonical_string.decodeAll decoded]
  · obtain ⟨⟨name, column, value⟩, decoded, rfl⟩ := Option.map_eq_some_iff.mp read
    rw [← (Keycode.canonical_string.pair
      (Keycode.canonical_string.pair Value.canonical)).decodeAll decoded]
    rfl
  · obtain ⟨⟨name, id⟩, decoded, rfl⟩ := Option.map_eq_some_iff.mp read
    rw [← (Keycode.canonical_string.pair Value.canonical).decodeAll decoded]
    rfl
  · cases read

/-- Comparing encodings is comparing variants, and then the fields from left to right. -/
theorem encode_lt_iff (first second : Key) :
    first.encode < second.encode ↔ first.rank < second.rank := by
  cases first with
  | table name =>
    cases second with
    | table => simp [encode, rank, Prod.Lex.toLex_lt_toLex, Keycode.ordered_string.encode_lt_iff]
    | _ => simp [encode, rank, List.cons_lt_cons_iff, Prod.Lex.toLex_lt_toLex]
  | index =>
    cases second with
    | index =>
      simp [encode, rank, Prod.Lex.toLex_lt_toLex, Keycode.ordered_string.append_lt_iff,
        Value.encode_lt_iff]
    | _ => simp [encode, rank, List.cons_lt_cons_iff, Prod.Lex.toLex_lt_toLex]
  | row =>
    cases second with
    | row =>
      simp [encode, rank, Prod.Lex.toLex_lt_toLex, Keycode.ordered_string.append_lt_iff,
        Value.encode_lt_iff]
    | _ => simp [encode, rank, List.cons_lt_cons_iff, Prod.Lex.toLex_lt_toLex]

end Key

end Sql

/-- An encoding of keys: it is read back, everything that can be read is an encoding, and
encodings are in the order of the keys' variants and fields. -/
structure Encoding.Faithful {Key Rank : Type} [LinearOrder Rank] (valid : Key → Prop)
    (encode : Key → Bytes) (decode : Bytes → Option Key) (rank : Key → Rank) : Prop where
  read_back : ∀ key, valid key → decode (encode key) = some key
  canonical : ∀ bytes key, decode bytes = some key → valid key ∧ encode key = bytes
  ordered : ∀ first second, valid first → valid second →
    (encode first < encode second ↔ rank first < rank second)

/-- KeyCode is faithful to the keys of the multi-version store, of the Raft log and of the
SQL engine. -/
theorem keycode_faithful :
    Encoding.Faithful Storage.Mvcc.Key.Fits Storage.Mvcc.Key.encode Storage.Mvcc.Key.decode
        Storage.Mvcc.Key.fields ∧
      Encoding.Faithful Raft.Log.Key.Fits Raft.Log.Key.encode Raft.Log.Key.decode
        Raft.Log.Key.fields ∧
      Encoding.Faithful (fun _ => True) Sql.Key.encode Sql.Key.decode Sql.Key.rank := by
  refine ⟨⟨?_, ?_, ?_⟩, ⟨?_, ?_, ?_⟩, ⟨?_, ?_, ?_⟩⟩
  · exact fun _ fits => Storage.Mvcc.Key.decode_encode fits
  · exact fun _ _ read => Storage.Mvcc.Key.encode_of_decode read
  · exact fun _ _ left right => Storage.Mvcc.Key.encode_lt_iff left right
  · exact fun _ fits => Raft.Log.Key.decode_encode fits
  · exact fun _ _ read => Raft.Log.Key.encode_of_decode read
  · exact fun _ _ left right => Raft.Log.Key.encode_lt_iff left right
  · exact fun key _ => Sql.Key.decode_encode key
  · exact fun _ _ read => ⟨trivial, Sql.Key.encode_of_decode read⟩
  · exact fun first second _ _ => Sql.Key.encode_lt_iff first second

/-- A prefix selects a group of keys: its bytes are the beginning of exactly the encodings
of the group's keys, and an engine that scans it returns these and no others. -/
structure Encoding.Selects {Key : Type} (lead : Bytes) (valid : Key → Prop)
    (encode : Key → Bytes) (group : Key → Prop) : Prop where
  isPrefix_iff : ∀ key, valid key → (lead <+: encode key ↔ group key)
  scanned_iff : ∀ key, valid key →
    (((Storage.prefixRange lead).1.starts (encode key) &&
      (Storage.prefixRange lead).2.stops (encode key)) = true ↔ group key)
  ordered : Storage.Bound.inverted (Storage.prefixRange lead).1
    (Storage.prefixRange lead).2 = false

theorem Encoding.selects {Key : Type} {lead : Bytes} {valid : Key → Prop}
    {encode : Key → Bytes} {group : Key → Prop}
    (exact_group : ∀ key, valid key → (lead <+: encode key ↔ group key)) :
    Encoding.Selects lead valid encode group where
  isPrefix_iff := exact_group
  scanned_iff key fits := (Storage.mem_prefixRange lead (encode key)).trans (exact_group key fits)
  ordered := Storage.not_inverted_prefixRange lead

/-- Every key prefix of the multi-version store, of the Raft log and of the SQL engine
selects its group of keys, and so do the shortened prefixes of the multi-version store's
scans, also for the keys of the SQL engine that it stores. -/
theorem prefixes_select :
    (∀ group : Storage.Mvcc.KeyPrefix, group.Fits → Encoding.Selects group.encode
      Storage.Mvcc.Key.Fits Storage.Mvcc.Key.encode fun key => group.covers key = true) ∧
    (∀ lead, Encoding.Selects (Storage.Mvcc.KeyPrefix.scanLead lead) Storage.Mvcc.Key.Fits
      Storage.Mvcc.Key.encode fun key => ∃ user held, key = .version user held ∧ lead <+: user) ∧
    (∀ group : Raft.Log.KeyPrefix, Encoding.Selects group.encode Raft.Log.Key.Fits
      Raft.Log.Key.encode fun key => group.covers key = true) ∧
    (∀ group : Sql.KeyPrefix, Encoding.Selects group.encode (fun _ => True) Sql.Key.encode
      fun key => group.covers key = true) ∧
    ∀ (group : Sql.KeyPrefix) (held : Storage.Mvcc.Version),
      Encoding.Selects (Storage.Mvcc.KeyPrefix.scanLead group.encode) (fun _ => True)
        (fun key => (Storage.Mvcc.Key.version (Sql.Key.encode key) held).encode)
        fun key => group.covers key = true := by
  refine ⟨?_, ?_, ?_, ?_, ?_⟩
  · intro group fits
    exact Encoding.selects fun key fitsKey =>
      Storage.Mvcc.KeyPrefix.isPrefix_encode_iff fits fitsKey
  · intro lead
    exact Encoding.selects fun key _ => Storage.Mvcc.KeyPrefix.scanLead_isPrefix_iff lead key
  · intro group
    exact Encoding.selects fun key _ => Raft.Log.KeyPrefix.isPrefix_encode_iff group key
  · intro group
    exact Encoding.selects fun key _ => Sql.KeyPrefix.isPrefix_encode_iff group key
  · intro group held
    refine Encoding.selects fun key _ => ?_
    rw [Storage.Mvcc.KeyPrefix.scanLead_isPrefix_iff, ← Sql.KeyPrefix.isPrefix_encode_iff]
    simp

/-- The prefix of a transaction's write records. -/
theorem prefixes_select_first :
    Encoding.Selects (Storage.Mvcc.KeyPrefix.txnWrite 1).encode Storage.Mvcc.Key.Fits
      Storage.Mvcc.Key.encode fun key =>
        (Storage.Mvcc.KeyPrefix.txnWrite 1).covers key = true :=
  prefixes_select.1 (.txnWrite 1) (show 1 < 2 ^ 64 by decide)

end Radb
