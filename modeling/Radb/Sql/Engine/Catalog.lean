import Radb.Sql.Engine.Key
import Radb.Sql.Types.Expression

/-! # Reading tables and rows

What an SQL transaction over a key-value store reads: schemas, rows and index
entries.
-/

namespace Radb.Sql

open Foundation Foundation.Script

/-- An element of a list, which must be there. -/
def element (row : Row) (index : Nat) : Except Fault Value :=
  match row[index]? with
  | some value => .ok value
  | none => .error (.panic "index out of bounds")

namespace Kv

/-- The schemas among scanned pairs. -/
def tablesOf (pairs : List (Sigma Stored)) : List Table :=
  pairs.filterMap fun
    | ⟨.table _, table⟩ => some table
    | _ => none

/-- The rows among scanned pairs. -/
def rowsOf (pairs : List (Sigma Stored)) : List Row :=
  pairs.filterMap fun
    | ⟨.row _ _, row⟩ => some row
    | _ => none

/-- Reads a table, if it exists. -/
def readTable (name : String) : Task (Option Table) := Script.read (Key.table name)

/-- Iterates over all tables. -/
def scanTables : Task (List Table) := do
  let pairs ← readGroup .table
  done (tablesOf pairs)

/-- Reads a table, and errors if it does not exist. -/
def mustReadTable (name : String) : Task Table := do
  match ← readTable name with
  | some table => done table
  | none => stop (.value s!"Table {name} does not exist")

/-- The names of the columns of a table that reference another one. -/
def referencing (table : Table) (target : String) : List String :=
  (table.columns.filter fun column => column.references = some target).map Column.name

/-- Returns all references to a table, as table and columns pairs. -/
def tableReferences (name : String) (withSelf : Bool) : Task (List (String × List String)) := do
  let tables ← scanTables
  let others := tables.filter fun table => withSelf ∨ table.name ≠ name
  let pairs := others.map fun table => (table.name, referencing table name)
  done (pairs.filter fun pair => pair.2 ≠ [])

/-- Reads a table row, if it exists. -/
def read (table : String) (id : Value) : Task (Option Row) := Script.read (Key.row table id)

/-- Loads an index entry. -/
def indexLoad (table column : String) (value : Value) : Task HashSet := do
  let index ← Script.read (Key.index table column value)
  done (index.getD [])

/-- Reads an index entry, if it exists. -/
def readIndex (table column : String) (value : Value) : Task HashSet := do
  let found ← mustReadTable table
  let schema ← lift (found.getColumn column)
  require schema.index (.value s!"No index on {table}.{column}")
  indexLoad table column value

/-- What a filter makes of a row: nothing, the row, or an error. -/
def filterRow (filter : Option Expression) (row : Row) : Option (Except Fault Row) :=
  match filter with
  | none => some (.ok row)
  | some filter =>
    match filter.evaluate row with
    | .ok (.boolean true) => some (.ok row)
    | .ok (.boolean false) => none
    | .ok .null => none
    | .ok value => some (.error (.value s!"Filter returned {value}, expected boolean"))
    | .error fault => some (.error fault)

/-- Scans a table's rows. -/
def scan (name : String) (filter : Option Expression) : Task (List (Except Fault Row)) := do
  let table ← mustReadTable name
  let pairs ← readGroup (.row table.name)
  done ((rowsOf pairs).filterMap (filterRow filter))

theorem reads_mustReadTable (name : String) : (mustReadTable name).Reads := by
  refine (reads_read _).andThen fun found => ?_
  cases found <;> trivial

theorem reads_indexLoad (table column : String) (value : Value) :
    (indexLoad table column value).Reads :=
  (reads_read _).andThen fun _ => trivial

theorem reads_scan (name : String) (filter : Option Expression) : (scan name filter).Reads :=
  (reads_mustReadTable name).andThen fun _ => (reads_readGroup _).andThen fun _ => trivial

theorem reads_tableReferences (name : String) (withSelf : Bool) :
    (tableReferences name withSelf).Reads :=
  Reads.andThen ((reads_readGroup _).andThen fun _ => trivial) fun _ => trivial

end Kv

end Radb.Sql
