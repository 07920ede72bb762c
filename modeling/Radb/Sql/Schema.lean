import Radb.Sql.Types.Value

/-! # Schemas

Tables and columns, and how columns and keys are found in them. A column is found by
name, the first of that name if there are several.
-/

namespace Radb.Sql

/-- A table column schema. -/
structure Column where
  /-- Column name. -/
  name : String
  /-- Column datatype. -/
  datatype : DataType
  /-- Whether the column is a primary key. -/
  primaryKey : Bool
  /-- Whether the column allows null values. -/
  nullable : Bool
  /-- The default value of the column. -/
  default : Option Value
  /-- Whether the column should only take unique values. -/
  unique : Bool
  /-- The table which is referenced by this foreign key. -/
  references : Option String
  /-- Whether the column should be indexed. -/
  index : Bool
  deriving DecidableEq

/-- A table schema. -/
structure Table where
  name : String
  columns : List Column
  deriving DecidableEq

namespace Table

/-- Fetches a column by name. -/
def getColumn (table : Table) (name : String) : Except Fault Column :=
  match table.columns.find? fun column => column.name = name with
  | some column => .ok column
  | none =>
    let owner := table.name
    .error (.value s!"Column {name} not found in table {owner}")

/-- Fetches a column index by name. -/
def getColumnIndex (table : Table) (name : String) : Except Fault Nat :=
  match table.columns.findIdx? fun column => column.name = name with
  | some index => .ok index
  | none =>
    let owner := table.name
    .error (.value s!"Column {name} not found in table {owner}")

/-- Returns the primary key column of the table. -/
def getPrimaryKey (table : Table) : Except Fault Column :=
  match table.columns.find? fun column => column.primaryKey with
  | some column => .ok column
  | none =>
    let owner := table.name
    .error (.value s!"Primary key not found in table {owner}")

/-- Returns the primary key value of a row. -/
def getRowKey (table : Table) (row : Row) : Except Fault Value :=
  match table.columns.findIdx? fun column => column.primaryKey with
  | none => .error (.value "Primary key not found")
  | some index =>
    match row[index]? with
    | some value => .ok value
    | none => .error (.value "Primary key value not found for row")

/-- The indexed columns with their positions. -/
def indexes (table : Table) : List (Nat × Column) :=
  (table.columns.zipIdx.filter fun pair => pair.1.index).map fun pair => (pair.2, pair.1)

end Table

end Radb.Sql
