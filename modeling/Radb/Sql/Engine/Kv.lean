import Radb.Sql.Validation

/-! # SQL storage operations

The operations of an SQL transaction that change tables, rows and indexes, as scripts
of the underlying key-value transaction.
-/

namespace Radb.Sql.Kv

open Foundation Foundation.Script

variable {allowed : Key → Prop} {table : Table} {column : String} {value : Value}

/-- Saves an index entry. -/
def indexSave (table column : String) (value : Value) (index : HashSet) : Task Unit :=
  if index = [] then perform (.delete (.index table column value))
  else perform (.set (.index table column value) index)

/-- Add a primary key to an index entry. -/
def indexInsert (table column : String) (value id : Value) : Task Unit := do
  let index ← indexLoad table column value
  let index ← lift (index.insert id)
  indexSave table column value index

/-- Remove a primary key from an index entry. -/
def indexRemove (table column : String) (value id : Value) : Task Unit := do
  let index ← indexLoad table column value
  let index ← lift (index.remove id)
  indexSave table column value index

theorem writes_indexSave {table : String} (permitted : allowed (.index table column value))
    (index : HashSet) :
    (indexSave table column value index).Writes allowed := by
  unfold indexSave
  split <;> exact writes_perform permitted

theorem writes_indexInsert {table : String} (permitted : allowed (.index table column value))
    (id : Value) :
    (indexInsert table column value id).Writes allowed :=
  (reads_indexLoad _ _ _).writes.andThen fun _ =>
    (reads_lift _).writes.andThen fun index => writes_indexSave permitted index

theorem writes_indexRemove {table : String} (permitted : allowed (.index table column value))
    (id : Value) :
    (indexRemove table column value id).Writes allowed :=
  (reads_indexLoad _ _ _).writes.andThen fun _ =>
    (reads_lift _).writes.andThen fun index => writes_indexSave permitted index

/-- Add a row to the indexes of its table. -/
def createIndexes (table : Table) (id : Value) (row : Row) : Task Unit :=
  each (fun pair => do
    let value ← lift (element row pair.1)
    indexInsert table.name pair.2.name value id) table.indexes

theorem writes_createIndexes
    (permitted : ∀ column value, allowed (.index table.name column value)) (id : Value)
    (row : Row) : (createIndexes table id row).Writes allowed :=
  writes_each (fun _ => (reads_lift _).writes.andThen fun _ =>
    writes_indexInsert (permitted _ _) id) _

/-- Creates a new table row. -/
def create (name : String) (row : Row) : Task Unit := do
  let table ← mustReadTable name
  table.validateRow row
  let id ← lift (table.getRowKey row)
  let found ← read table.name id
  let owner := table.name
  require (found = none) (.value s!"Primary key {id} already exists for table {owner}")
  perform (.set (.row table.name id) row)
  createIndexes table id row

/-- A column of a row of table `other` does not refer to the row of `table` with the
given primary key, unless it is that row itself. -/
def checkReference (table other : Table) (id : Value) (row : Row) (pair : Nat × String) :
    Task Unit := do
  let value ← lift (element row pair.1)
  let owner := other.name
  let column := pair.2
  let fault := Fault.value s!"Primary key {id} is referenced by table {owner} column {column}"
  if value.equals id then
    if table.name ≠ other.name then stop fault
    else do
      let key ← lift (table.getRowKey row)
      require (id.equals key) fault

/-- No row of a referencing table refers to the given primary key. -/
def checkReferences (table : Table) (id : Value) (reference : String × List String) :
    Task Unit := do
  let other ← mustReadTable reference.1
  let columns ← lift (reference.2.mapM fun column => do
    let index ← other.getColumnIndex column
    .ok (index, column))
  let rows ← scan other.name none
  each (fun item => do
    let row ← lift item
    each (checkReference table other id row) columns) rows

theorem reads_checkReference (table other : Table) (id : Value) (row : Row)
    (pair : Nat × String) : (checkReference table other id row pair).Reads := by
  refine (reads_lift _).andThen fun value => ?_
  split
  · split
    · trivial
    · exact (reads_lift _).andThen fun _ => reads_require _ _
  · trivial

theorem reads_checkReferences (table : Table) (id : Value) (reference : String × List String) :
    (checkReferences table id reference).Reads :=
  (reads_mustReadTable _).andThen fun other => (reads_lift _).andThen fun _ =>
    (reads_scan _ _).andThen fun _ => reads_each (fun _ => (reads_lift _).andThen fun row =>
      reads_each (reads_checkReference table other id row) _) _

/-- Remove a row from the indexes of its table. -/
def deleteIndexes (table : Table) (id : Value) : Task Unit :=
  if table.indexes = [] then done ()
  else do
    match ← read table.name id with
    | none => done ()
    | some row => each (fun pair => do
      let value ← lift (element row pair.1)
      indexRemove table.name pair.2.name value id) table.indexes

theorem writes_deleteIndexes
    (permitted : ∀ column value, allowed (.index table.name column value)) (id : Value) :
    (deleteIndexes table id).Writes allowed := by
  unfold deleteIndexes
  split
  · trivial
  · refine (reads_read _).writes.andThen fun found => ?_
    cases found with
    | none => trivial
    | some row => exact writes_each (fun _ => (reads_lift _).writes.andThen fun _ =>
      writes_indexRemove (permitted _ _) id) _

/-- Deletes a table row. -/
def delete (name : String) (id : Value) : Task Unit := do
  let table ← mustReadTable name
  let references ← tableReferences table.name true
  each (checkReferences table id) references
  deleteIndexes table id
  perform (.delete (.row table.name id))

/-- Move a row to its new entry of one index, unless its value there stays the same. -/
def updateIndex (table : Table) (id : Value) (old row : Row) (pair : Nat × Column) :
    Task Unit := do
  let before ← lift (element old pair.1)
  let after ← lift (element row pair.1)
  if before.equals after then done ()
  else do
    indexRemove table.name pair.2.name before id
    indexInsert table.name pair.2.name after id

/-- Move a row whose primary key stays the same to its new index entries. -/
def updateIndexes (table : Table) (id : Value) (row : Row) : Task Unit :=
  if table.indexes = [] then done ()
  else do
    match ← read table.name id with
    | none => stop (.panic "called Option::unwrap() on a None value")
    | some old => each (updateIndex table id old row) table.indexes

theorem writes_updateIndex {pair : Nat × Column}
    (permitted : ∀ value, allowed (.index table.name pair.2.name value)) (id : Value)
    (old row : Row) : (updateIndex table id old row pair).Writes allowed := by
  refine (reads_lift _).writes.andThen fun before => ?_
  refine (reads_lift _).writes.andThen fun after => ?_
  split
  · trivial
  · exact (writes_indexRemove (permitted _) id).andThen fun _ => writes_indexInsert (permitted _) id

theorem writes_updateIndexes
    (permitted : ∀ column value, allowed (.index table.name column value)) (id : Value)
    (row : Row) : (updateIndexes table id row).Writes allowed := by
  unfold updateIndexes
  split
  · trivial
  · refine (reads_read _).writes.andThen fun found => ?_
    cases found with
    | none => trivial
    | some old =>
      exact writes_each (fun pair => writes_updateIndex (permitted pair.2.name) id old row) _

/-- Updates a table row. If the primary key changes this is a delete and a create,
otherwise the row is replaced. -/
def update (name : String) (id : Value) (row : Row) : Task Unit := do
  let table ← mustReadTable name
  let key ← lift (table.getRowKey row)
  if id.equals key then do
    updateIndexes table id row
    table.validateRow row
    perform (.set (.row table.name id) row)
  else do
    delete table.name id
    create table.name row

/-- Creates a new table. -/
def createTable (table : Table) : Task Unit := do
  let found ← readTable table.name
  let name := table.name
  require (found = none) (.value s!"Table {name} already exists")
  table.validate
  perform (.set (.table table.name) table)

/-- Deletes an existing table, or errors if it does not exist. -/
def deleteTable (name : String) : Task Unit := do
  let table ← mustReadTable name
  let references ← tableReferences table.name false
  let owner := table.name
  match references with
  | (other, column :: _) :: _ =>
    stop (.value s!"Table {owner} is referenced by table {other} column {column}")
  | (_, []) :: _ => stop (.panic "index out of bounds")
  | [] => do
    let rows ← scan table.name none
    each (fun item => do
      let row ← lift item
      let id ← lift (table.getRowKey row)
      delete table.name id) rows
    perform (.delete (.table table.name))

/-- The calls that change the database. -/
inductive Call where
  | createTable (table : Table)
  | deleteTable (name : String)
  | create (table : String) (row : Row)
  | update (table : String) (id : Value) (row : Row)
  | delete (table : String) (id : Value)
  deriving DecidableEq

/-- The script of a call. -/
def Call.script : Call → Task Unit
  | .createTable table => Kv.createTable table
  | .deleteTable name => Kv.deleteTable name
  | .create table row => Kv.create table row
  | .update table id row => Kv.update table id row
  | .delete table id => Kv.delete table id

end Radb.Sql.Kv
