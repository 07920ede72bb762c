import Radb.Sql.Engine.Kv
import Radb.Sql.Plan.Node

/-! # Result sets and row sources

What an executor returns, and the executors that read rows from tables and indexes. A
row iterator is the list of its items, each of them a row or an error.
-/

namespace Radb.Sql

open Foundation Foundation.Script

/-- Whether a predicate is TRUE on a row. -/
def Expression.holds (predicate : Expression) (row : Row) : Bool :=
  predicate.evaluate row = .ok (.boolean true)

theorem Expression.holds_iff {predicate : Expression} {row : Row} :
    predicate.holds row = true ↔ predicate.evaluate row = .ok (.boolean true) :=
  decide_eq_true_iff

/-- The columns of a result set, with their names if they have any. -/
abbrev Columns := List (Option String)

/-- A row iterator. -/
abbrev Rows := List (Except Fault Row)

/-- An executor result set. -/
inductive ResultSet where
  | create (count : Nat)
  | delete (count : Nat)
  | update (count : Nat)
  | createTable (name : String)
  | dropTable (name : String) (existed : Bool)
  | query (columns : Columns) (rows : Rows)
  deriving DecidableEq

/-- A plan executor. -/
abbrev Executor := Task ResultSet

/-- The result columns of a table. -/
def Table.headings (table : Table) : Columns := table.columns.map fun column => some column.name

namespace Scan

/-- A table scan. -/
def execute (table : String) (filter : Option Expression) : Executor := do
  let found ← Kv.mustReadTable table
  let rows ← Kv.scan found.name filter
  done (.query found.headings rows)

end Scan

namespace KeyLookup

/-- A primary key lookup. -/
def execute (table : String) (keys : List Value) : Executor := do
  let found ← Kv.mustReadTable table
  let rows ← gather (Kv.read found.name) keys
  done (.query found.headings (rows.map .ok))

end KeyLookup

namespace IndexLookup

/-- Add the primary keys that an index holds for some values to a set. -/
def extend (table column : String) : List Value → HashSet → Task HashSet
  | [], pks => done pks
  | value :: values, pks => do
    let found ← Kv.readIndex table column value
    let pks ← lift (found.foldlM HashSet.insert pks)
    extend table column values pks

/-- An index value lookup. -/
def execute (table column : String) (values : List Value) : Executor := do
  let found ← Kv.mustReadTable table
  let pks ← extend table column values []
  let rows ← gather (Kv.read found.name) pks
  done (.query found.headings (rows.map .ok))

end IndexLookup

namespace Nothing

/-- A single empty row. -/
def execute : Executor := done (.query [] [.ok []])

end Nothing

end Radb.Sql
