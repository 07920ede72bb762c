import Radb.Sql.Engine.Catalog

/-! # Validation

The checks of schemas when a table is created, and of rows when they are written.
References are looked up by key, and unique values are looked for by a scan of the
table.
-/

namespace Radb.Sql

open Foundation Foundation.Script

namespace Column

/-- A primary key is neither nullable nor repeated. -/
def validatePrimaryKey (column : Column) : Task Unit := do
  let name := column.name
  require (¬ (column.primaryKey ∧ column.nullable))
    (.value s!"Primary key {name} cannot be nullable")
  require (¬ (column.primaryKey ∧ ¬ column.unique)) (.value s!"Primary key {name} must be unique")

/-- The default value has the column's datatype, and a nullable column has one. -/
def validateDefault (column : Column) : Task Unit :=
  let name := column.name
  let expected := column.datatype
  match column.default with
  | some default =>
    match default.datatype with
    | some datatype => require (datatype = expected)
        (.value s!"Default value for column {name} has datatype {datatype}, must be {expected}")
    | none => require column.nullable
        (.value s!"Can't use NULL as default value for non-nullable column {name}")
  | none => require (¬ column.nullable)
      (.value s!"Nullable column {name} must have a default value")

/-- The table a column of `table` refers to, which may be the table itself. -/
def referenceTarget (column : Column) (table : Table) (reference : String) : Task Table :=
  if reference = table.name then done table
  else do
    match ← Kv.readTable reference with
    | some target => done target
    | none =>
      let name := column.name
      stop (.value s!"Table {reference} referenced by column {name} does not exist")

/-- A reference has the datatype of the primary key it refers to. -/
def validateReferences (column : Column) (table : Table) : Task Unit :=
  match column.references with
  | none => done ()
  | some reference => do
    let target ← column.referenceTarget table reference
    let primaryKey ← lift target.getPrimaryKey
    let expected := primaryKey.datatype
    let owner := target.name
    let datatype := column.datatype
    let name := column.name
    require (datatype = expected)
      (.value s!"Can't reference {expected} primary key of table {owner} from {datatype} column {name}")

/-- Validates the column schema. -/
def validate (column : Column) (table : Table) : Task Unit := do
  column.validatePrimaryKey
  column.validateDefault
  column.validateReferences table

/-- A value has the column's datatype, or is NULL in a nullable column. -/
def validateDatatype (column : Column) (value : Value) : Task Unit :=
  let name := column.name
  let expected := column.datatype
  match value.datatype with
  | none => require column.nullable (.value s!"NULL value not allowed for column {name}")
  | some datatype => require (datatype = expected)
      (.value s!"Invalid datatype {datatype} for {expected} column {name}")

/-- Strings have a maximal length. -/
def validateLength (value : Value) : Task Unit :=
  match value with
  | .string text => require (text.utf8ByteSize ≤ 1024)
      (.value "Strings cannot be more than 1024 bytes")
  | _ => done ()

/-- A reference is NULL, NaN, the row's own primary key, or an existing primary key. -/
def validateReference (column : Column) (table : Table) (pk value : Value) : Task Unit :=
  match column.references with
  | none => done ()
  | some target =>
    if value = .null ∨ value.isNaN ∨ target = table.name ∧ value.equals pk then done ()
    else do
      let found ← Kv.read target value
      require (found ≠ none)
        (.value s!"Referenced primary key {value} in table {target} does not exist")

/-- Another row of the table does not have the given value. -/
def validateOther (column : Column) (table : Table) (pk value : Value) (index : Nat)
    (item : Except Fault Row) : Task Unit := do
  let row ← lift item
  if (row[index]?.getD .null).equals value then
    let key ← lift (table.getRowKey row)
    let name := column.name
    require (key.equals pk) (.value s!"Unique value {value} already exists for column {name}")

/-- No other row has the value of a unique column, unless it is NULL. Primary keys are
checked by their own key. -/
def validateUnique (column : Column) (table : Table) (pk value : Value) : Task Unit :=
  if column.unique ∧ ¬ column.primaryKey ∧ ¬ value.equals .null then do
    let index ← lift (table.getColumnIndex column.name)
    let rows ← Kv.scan table.name none
    each (column.validateOther table pk value index) rows
  else done ()

/-- Validates a column value. -/
def validateValue (column : Column) (table : Table) (pk value : Value) : Task Unit := do
  column.validateDatatype value
  validateLength value
  column.validateReference table pk value
  column.validateUnique table pk value

theorem reads_validateOther (column : Column) (table : Table) (pk value : Value) (index : Nat)
    (item : Except Fault Row) : (column.validateOther table pk value index item).Reads := by
  refine (reads_lift _).andThen fun row => ?_
  split
  · exact (reads_lift _).andThen fun _ => reads_require _ _
  · trivial

theorem reads_validateValue (column : Column) (table : Table) (pk value : Value) :
    (column.validateValue table pk value).Reads := by
  refine Reads.andThen ?_ fun _ => Reads.andThen ?_ fun _ => Reads.andThen ?_ fun _ => ?_
  · unfold validateDatatype
    split <;> exact reads_require _ _
  · unfold validateLength
    split
    · exact reads_require _ _
    · trivial
  · unfold validateReference
    split
    · trivial
    · split
      · trivial
      · exact (reads_read _).andThen fun _ => reads_require _ _
  · unfold validateUnique
    split
    · exact (reads_lift _).andThen fun _ => (Kv.reads_scan _ _).andThen fun _ =>
        reads_each (reads_validateOther column table pk value _) _
    · trivial

theorem reads_validateReferences (column : Column) (table : Table) :
    (column.validateReferences table).Reads := by
  unfold validateReferences
  split
  · trivial
  · refine Reads.andThen ?_ fun _ => (reads_lift _).andThen fun _ => reads_require _ _
    unfold referenceTarget
    split
    · trivial
    · refine (reads_read _).andThen fun found => ?_
      cases found <;> trivial

end Column

namespace Table

/-- Exactly one column is a primary key. -/
def validatePrimaryKeys (table : Table) : Task Unit :=
  let name := table.name
  match table.columns.countP Column.primaryKey with
  | 1 => done ()
  | 0 => stop (.value s!"No primary key in table {name}")
  | _ => stop (.value s!"Multiple primary keys in table {name}")

/-- Validates the table schema. -/
def validate (table : Table) : Task Unit := do
  let name := table.name
  require (table.columns ≠ []) (.value s!"Table {name} has no columns")
  table.validatePrimaryKeys
  each (fun column => column.validate table) table.columns

/-- Validates a row. -/
def validateRow (table : Table) (row : Row) : Task Unit := do
  let name := table.name
  require (row.length = table.columns.length) (.value s!"Invalid row size for table {name}")
  let pk ← lift (table.getRowKey row)
  each (fun pair => pair.1.validateValue table pk pair.2) (table.columns.zip row)

theorem reads_validateRow (table : Table) (row : Row) : (table.validateRow row).Reads :=
  (reads_require _ _).andThen fun _ => (reads_lift _).andThen fun pk =>
    reads_each (fun pair : Column × Value => Column.reads_validateValue pair.1 table pk pair.2) _

theorem reads_validate (table : Table) : table.validate.Reads := by
  refine (reads_require _ _).andThen fun _ => Reads.andThen ?_ fun _ => reads_each ?_ _
  · unfold validatePrimaryKeys
    split <;> trivial
  · intro column
    refine Reads.andThen ?_ fun _ => Reads.andThen ?_ fun _ => column.reads_validateReferences table
    · exact (reads_require _ _).andThen fun _ => reads_require _ _
    · unfold Column.validateDefault
      split
      · split <;> exact reads_require _ _
      · exact reads_require _ _

end Table

end Radb.Sql
