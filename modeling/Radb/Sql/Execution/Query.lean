import Radb.Sql.Execution.Source
import Radb.Sql.Types.Compare

/-! # Filters, projections, sorting and limits -/

namespace Radb.Sql

open Foundation Foundation.Script

namespace ResultSet

/-- The text of a result set in an error message. -/
def debug : ResultSet → String
  | create count => s!"Create \x7b count: {count} \x7d"
  | delete count => s!"Delete \x7b count: {count} \x7d"
  | update count => s!"Update \x7b count: {count} \x7d"
  | createTable name => "CreateTable \x7b name: " ++ name.quote ++ " \x7d"
  | dropTable name existed =>
    "DropTable \x7b name: " ++ name.quote ++ s!", existed: {existed} \x7d"
  | query _ _ => "Query"

end ResultSet

namespace Filter

/-- What a filter makes of an item. -/
def item (predicate : Expression) : Except Fault Row → Option (Except Fault Row)
  | .ok row => Kv.filterRow (some predicate) row
  | .error fault => some (.error fault)

def apply (predicate : Expression) : ResultSet → Except Fault ResultSet
  | .query columns rows => .ok (.query columns (rows.filterMap (item predicate)))
  | _ => .error (.error (.internal "Unexpected result"))

/-- A filter. -/
def execute (source : Executor) (predicate : Expression) : Executor := do
  lift (apply predicate (← source))

end Filter

namespace Projection

/-- The column of a projected expression: its label, the column of the field it is, or
none. -/
def heading (columns : Columns) : Expression × Option String → Option String
  | (_, some label) => some label
  | (.field index _, none) => columns[index]?.getD none
  | (_, none) => none

/-- What a projection makes of a row. -/
def row (expressions : List (Expression × Option String)) (row : Row) : Except Fault Row :=
  expressions.mapM fun expression => expression.1.evaluate row

def apply (expressions : List (Expression × Option String)) : ResultSet → Except Fault ResultSet
  | .query columns rows =>
    .ok (.query (expressions.map (heading columns))
      (rows.map fun item => item >>= row expressions))
  | _ => .error (.error (.internal "Unexpected result"))

/-- A projection. -/
def execute (source : Executor) (expressions : List (Expression × Option String)) : Executor := do
  lift (apply expressions (← source))

end Projection

namespace Order

/-- A row with its evaluated sort keys. -/
def item (orders : List (Expression × Direction)) (row : Row) : Except Fault (Row × List Value) := do
  .ok (row, ← orders.mapM fun order => order.1.evaluate row)

/-- The order of two rows, by the first key in which they are comparable and differ. -/
def compare : List (Expression × Direction) → List Value → List Value → Ordering
  | (_, direction) :: orders, first :: firsts, second :: seconds =>
    match first.partialCmp second with
    | some .eq => compare orders firsts seconds
    | some result => if direction = .ascending then result else result.swap
    | none => compare orders firsts seconds
  | _, _, _ => .eq

def apply (orders : List (Expression × Direction)) : ResultSet → Except Fault ResultSet
  | .query columns rows => do
    let items ← rows.mapM fun row => do item orders (← row)
    let sorted := items.mergeSort fun first second => compare orders first.2 second.2 ≠ .gt
    .ok (.query columns (sorted.map fun item => .ok item.1))
  | result => .error (.error (.internal ("Unexpected result " ++ result.debug)))

/-- An ORDER BY executor. The sort is stable. -/
def execute (source : Executor) (orders : List (Expression × Direction)) : Executor := do
  lift (apply orders (← source))

end Order

namespace Limit

def apply (limit : Nat) : ResultSet → Except Fault ResultSet
  | .query columns rows => .ok (.query columns (rows.take limit))
  | _ => .error (.error (.internal "Unexpected result"))

/-- A LIMIT executor. -/
def execute (source : Executor) (limit : Nat) : Executor := do lift (apply limit (← source))

end Limit

namespace Offset

def apply (offset : Nat) : ResultSet → Except Fault ResultSet
  | .query columns rows => .ok (.query columns (rows.drop offset))
  | _ => .error (.error (.internal "Unexpected result"))

/-- An OFFSET executor. -/
def execute (source : Executor) (offset : Nat) : Executor := do lift (apply offset (← source))

end Offset

end Radb.Sql
