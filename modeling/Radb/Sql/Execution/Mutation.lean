import Radb.Sql.Execution.Query

/-! # Executors that change the database -/

namespace Radb.Sql

open Foundation Foundation.Script

namespace Insert

/-- The values given for columns, by column name. -/
def inputs (table : Table) : List (String × Value) → List (String × Value) →
    Except Fault (List (String × Value))
  | [], given => .ok given
  | (column, value) :: rest, given => do
    let _ ← table.getColumn column
    if given.any fun pair => pair.1 = column then
      .error (.value s!"Column {column} given multiple times")
    else inputs table rest (given ++ [(column, value)])

/-- Builds a row from a set of column names and values, padding it with default values. -/
def makeRow (table : Table) (columns : List String) (values : List Value) : Except Fault Row := do
  if columns.length ≠ values.length then
    .error (.value "Column and value counts do not match")
  else
    let given ← inputs table (columns.zip values) []
    table.columns.mapM fun column =>
      match given.find? fun pair => pair.1 = column.name with
      | some pair => .ok pair.2
      | none =>
        match column.default with
        | some value => .ok value
        | none =>
          let name := column.name
          .error (.value s!"No value given for column {name}")

/-- Pads a row with default values where possible. -/
def padRow (table : Table) (row : Row) : Except Fault Row := do
  let padding ← (table.columns.drop row.length).mapM fun column =>
    match column.default with
    | some value => .ok value
    | none =>
      let name := column.name
      .error (.value s!"No default value for column {name}")
  .ok (row ++ padding)

/-- An INSERT executor. -/
def execute (table : String) (columns : List String) (rows : List (List Expression)) :
    Executor := do
  let found ← Kv.mustReadTable table
  each (fun expressions => do
    let values ← lift (expressions.mapM fun expression => expression.evaluate [])
    let row ← lift (if columns = [] then padRow found values else makeRow found columns values)
    Kv.create found.name row) rows
  done (.create rows.length)

end Insert

namespace Update

/-- Whether a set holds a value, which is hashed unless the set is empty. -/
def contains (set : HashSet) (value : Value) : Except Fault Bool :=
  match set, value with
  | [], _ => .ok false
  | _, .null => .error (.panic "stack overflow")
  | set, value => .ok (set.any fun stored => stored.finds value)

/-- The new values of a row. Every expression is evaluated on the old row. -/
def assign (old : Row) : List (Nat × Option String × Expression) → Row → Except Fault Row
  | [], new => .ok new
  | (field, _, expression) :: rest, new => do
    let value ← expression.evaluate old
    if field < new.length then assign old rest (new.set field value)
    else .error (.panic "index out of bounds")

/-- Update rows, each primary key once, and count them. -/
def updateRows (table : Table) (expressions : List (Nat × Option String × Expression)) :
    Rows → HashSet → Task Nat
  | [], updated => done updated.length
  | item :: items, updated => do
    let row ← lift item
    let id ← lift (table.getRowKey row)
    if ← lift (contains updated id) then updateRows table expressions items updated
    else do
      let new ← lift (assign row expressions row)
      Kv.update table.name id new
      let updated ← lift (updated.insert id)
      updateRows table expressions items updated

/-- An UPDATE executor. -/
def execute (table : String) (source : Executor)
    (expressions : List (Nat × Option String × Expression)) : Executor := do
  match ← source with
  | .query _ rows => do
    let found ← Kv.mustReadTable table
    let count ← updateRows found expressions rows []
    done (.update count)
  | result => stop (.error (.internal ("Unexpected response " ++ result.debug)))

end Update

namespace Delete

/-- A DELETE executor. -/
def execute (table : String) (source : Executor) : Executor := do
  let found ← Kv.mustReadTable table
  match ← source with
  | .query _ rows => do
    each (fun item => do
      let row ← lift item
      let id ← lift (found.getRowKey row)
      Kv.delete found.name id) rows
    done (.delete rows.length)
  | result => stop (.error (.internal ("Unexpected result " ++ result.debug)))

end Delete

namespace CreateTable

/-- A CREATE TABLE executor. -/
def execute (schema : Table) : Executor := do
  Kv.createTable schema
  done (.createTable schema.name)

end CreateTable

namespace DropTable

def drop (table : String) : Executor := do
  Kv.deleteTable table
  done (.dropTable table true)

/-- A DROP TABLE executor. -/
def execute (table : String) (ifExists : Bool) : Executor :=
  if ifExists then do
    match ← Kv.readTable table with
    | none => done (.dropTable table false)
    | some _ => drop table
  else drop table

end DropTable

end Radb.Sql
