import Radb.Encoding.Keycode
import Radb.Foundation.Script
import Radb.Sql.Schema

/-! # SQL keys

The keys of the SQL engine and what is stored under them, with their encodings. Keys
are ordered by their encoding. The encoding of the stored values is a self-delimiting
one, in which no list is too long; nothing depends on its other details.
-/

namespace Radb.Sql

open Foundation Radb.Encoding

namespace Value

/-- The bytes of a value: its variant, and then its content. -/
def encode : Value → Bytes
  | null => [0]
  | boolean value => 1 :: Codec.bool.encode value
  | integer value => 2 :: Keycode.integer.encode value
  | float value => 3 :: Keycode.float.encode value
  | string value => 4 :: Keycode.string.encode value

/-- Read a value. -/
def decode : Bytes → Option (Value × Bytes)
  | 0 :: rest => some (null, rest)
  | 1 :: rest => (Codec.bool.decode rest).map fun read => (boolean read.1, read.2)
  | 2 :: rest => (Keycode.integer.decode rest).map fun read => (integer read.1, read.2)
  | 3 :: rest => (Keycode.float.decode rest).map fun read => (float read.1, read.2)
  | 4 :: rest => (Keycode.string.decode rest).map fun read => (string read.1, read.2)
  | _ => none

/-- The format of values. -/
def codec : Codec Value where
  encode := encode
  decode := decode
  decode_encode value rest := by
    cases value with
    | null => rfl
    | boolean | integer | float | string =>
      simp only [encode, List.cons_append, decode, Codec.decode_encode, Option.map_some]

end Value

/-- SQL keys. They use table and column names directly as identifiers. -/
inductive Key where
  /-- A table schema by table name. -/
  | table (name : String)
  /-- An index entry, by table name, index name, and index value. -/
  | index (table column : String) (value : Value)
  /-- A table row, by table name and primary key value. -/
  | row (table : String) (id : Value)
  deriving DecidableEq

namespace Key

/-- The bytes of a key: its variant, and then its fields. -/
def encode : Key → Bytes
  | table name => 0 :: Keycode.string.encode name
  | index name column value =>
    1 :: (Keycode.string.encode name ++ (Keycode.string.encode column ++ value.encode))
  | row name id => 2 :: (Keycode.string.encode name ++ id.encode)

theorem encode_injective : Function.Injective encode := by
  intro first second same
  cases first with
  | table name =>
    cases second with
    | table other => exact congrArg table (Keycode.string.encode_injective (List.cons.inj same).2)
    | _ => exact absurd (List.cons.inj same).1 (by decide)
  | index name column value =>
    cases second with
    | index other found stored =>
      obtain ⟨rfl, fields⟩ := Keycode.string.encode_append_inj (List.cons.inj same).2
      obtain ⟨rfl, last⟩ := Keycode.string.encode_append_inj fields
      rw [Value.codec.encode_injective last]
    | _ => exact absurd (List.cons.inj same).1 (by decide)
  | row name id =>
    cases second with
    | row other stored =>
      obtain ⟨rfl, last⟩ := Keycode.string.encode_append_inj (List.cons.inj same).2
      rw [Value.codec.encode_injective last]
    | _ => exact absurd (List.cons.inj same).1 (by decide)

/-- Read a key. -/
def decode : Bytes → Option Key
  | 0 :: rest => (Keycode.string.decodeAll rest).map table
  | 1 :: rest =>
    ((Keycode.string.pair (Keycode.string.pair Value.codec)).decodeAll rest).map
      fun (name, column, value) => index name column value
  | 2 :: rest =>
    ((Keycode.string.pair Value.codec).decodeAll rest).map fun (name, id) => row name id
  | _ => none

@[simp] theorem decode_encode (key : Key) : decode key.encode = some key := by
  cases key with
  | table name => simp only [encode, decode, Codec.decodeAll_encode, Option.map_some]
  | index name column value =>
    have read := (Keycode.string.pair (Keycode.string.pair Value.codec)).decodeAll_encode
      (name, column, value)
    exact congrArg (Option.map fun (name, column, value) => index name column value) read
  | row name id =>
    have read := (Keycode.string.pair Value.codec).decodeAll_encode (name, id)
    exact congrArg (Option.map fun (name, id) => row name id) read

/-- Keys are ordered as their encodings are. -/
instance : LinearOrder Key := LinearOrder.lift' encode encode_injective

/-- The table a key belongs to. -/
def owner : Key → String
  | table name => name
  | index name _ _ => name
  | row name _ => name

end Key

/-- What is stored under a key: a schema, the primary keys of an index entry, or a
row. -/
@[reducible] def Stored : Key → Type
  | .table _ => Table
  | .index _ _ _ => HashSet
  | .row _ _ => Row

/-- The format of a schema's datatype. -/
def DataType.codec : Codec DataType :=
  Codec.byte.via (fun | .boolean => 0 | .integer => 1 | .float => 2 | .string => 3)
    (fun | 0 => some .boolean | 1 => some .integer | 2 => some .float | 3 => some .string
         | _ => none)
    (by intro datatype; cases datatype <;> rfl)

/-- The format of column schemas: their fields one after the other. -/
def Column.codec : Codec Column :=
  (Keycode.string.pair (DataType.codec.pair (Codec.bool.pair (Codec.bool.pair
    (Value.codec.option.pair (Codec.bool.pair
      (Keycode.string.option.pair Codec.bool))))))).via
    (fun column => (column.name, column.datatype, column.primaryKey, column.nullable,
      column.default, column.unique, column.references, column.index))
    (fun (name, datatype, primaryKey, nullable, default, unique, references, index) =>
      some { name, datatype, primaryKey, nullable, default, unique, references, index })
    (fun _ => rfl)

/-- The format of table schemas. -/
def Table.codec : Codec Table :=
  (Keycode.string.pair Column.codec.list).via (fun table => (table.name, table.columns))
    (fun (name, columns) => some { name, columns }) (fun _ => rfl)

/-- The format of what is stored under a key. -/
def Key.codec : (key : Key) → Codec (Stored key)
  | .table _ => Table.codec
  | .index _ _ _ => Value.codec.list
  | .row _ _ => Value.codec.list

/-- Key prefixes, allowing prefix scans of specific parts of the keyspace. -/
inductive KeyPrefix where
  /-- All table schemas. -/
  | table
  /-- An entire table index, by table and index name. -/
  | index (table column : String)
  /-- An entire table's rows, by table name. -/
  | row (table : String)
  deriving DecidableEq

namespace KeyPrefix

/-- The bytes the keys of a group start with. -/
def encode : KeyPrefix → Bytes
  | table => [0]
  | index name column => 1 :: (Keycode.string.encode name ++ Keycode.string.encode column)
  | row name => 2 :: Keycode.string.encode name

/-- The keys of a group. -/
def covers : KeyPrefix → Key → Bool
  | table, .table _ => true
  | index name column, .index owner other _ => name = owner ∧ column = other
  | row name, .row owner _ => name = owner
  | _, _ => false

/-- The keys of a group are those that start with its bytes. -/
theorem isPrefix_encode_iff (group : KeyPrefix) (key : Key) :
    group.encode <+: key.encode ↔ group.covers key = true := by
  cases group with
  | table => cases key <;> simp [encode, Key.encode, covers, List.cons_prefix_cons]
  | index name column =>
    cases key with
    | index owner other value =>
      simp [encode, Key.encode, covers, List.cons_prefix_cons, Codec.isPrefix_encode_append,
        Codec.isPrefix_encode]
    | _ => simp [encode, Key.encode, covers, List.cons_prefix_cons]
  | row name =>
    cases key with
    | row owner id =>
      simp [encode, Key.encode, covers, List.cons_prefix_cons, Codec.isPrefix_encode]
    | _ => simp [encode, Key.encode, covers, List.cons_prefix_cons]

end KeyPrefix

/-- The visible contents of a database. -/
abbrev Contents := Store Stored

/-- A program of an SQL transaction. -/
abbrev Task (Result : Type) := Script Stored KeyPrefix Fault Result

end Radb.Sql
