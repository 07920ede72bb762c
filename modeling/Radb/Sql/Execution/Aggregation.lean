import Radb.Sql.Execution.Query

/-! # Aggregation

Rows are grouped by their trailing values, and the leading ones of every group are
accumulated. Groups are kept in a hash table, here in the order in which they appear.
-/

namespace Radb.Sql

open Foundation Foundation.Script

/-- The state of an aggregate function. -/
inductive Accumulator where
  | average (count : Nat) (sum : Option Value)
  | count (count : Nat)
  | max (max : Option Value)
  | min (min : Option Value)
  | sum (sum : Option Value)

namespace Accumulator

/-- The accumulator of an aggregate function. -/
def new : Aggregate → Accumulator
  | .average => average 0 none
  | .count => count 0
  | .max => max none
  | .min => min none
  | .sum => sum none

/-- Count non-null values. -/
def addCount (number : Nat) : Value → Nat
  | .null => number
  | _ => number + 1

/-- Add a value to a sum. Integers overflow with a panic. -/
def addSum : Option Value → Value → Except Fault Value
  | some (.integer total), .integer value => Value.unchecked "add" (total.toInt + value.toInt)
  | some (.float total), .float value => .ok (.float (total.add value))
  | none, .integer value => .ok (.integer value)
  | none, .float value => .ok (.float value)
  | _, _ => .ok .null

/-- The more extreme of two values, where the new one replaces the old one if it
compares as wanted. -/
def extreme (wanted : Ordering) : Option Value → Value → Value
  | none, value => value
  | some old, value =>
    if old.datatype ≠ value.datatype then .null
    else
      match value.partialCmp old with
      | none => .null
      | some order => if order = wanted then value else old

/-- Accumulates a value. -/
def accumulate : Accumulator → Value → Except Fault Accumulator
  | average number total, value => do
    .ok (average (addCount number value) (some (← addSum total value)))
  | count number, value => .ok (count (addCount number value))
  | max greatest, value => .ok (max (some (extreme .gt greatest value)))
  | min least, value => .ok (min (some (extreme .lt least value)))
  | sum total, value => do .ok (sum (some (← addSum total value)))

/-- A count as a value. -/
def ofCount (number : Nat) : Int64 := Int64.ofInt number

/-- Calculates a final aggregate. -/
def aggregate : Accumulator → Value
  | average number total =>
    match total with
    | some (.integer total) => .integer (Int64.ofInt (total.toInt.tdiv (ofCount number).toInt))
    | some (.float total) => .float (total.divide (Value.toFloat (ofCount number)))
    | _ => .null
  | count number => .integer (ofCount number)
  | max greatest => greatest.getD .null
  | min least => least.getD .null
  | sum total => total.getD .null

/-- Accumulates the values of a row, each with its own accumulator. -/
def accumulateAll : List Accumulator → Row → Except Fault (List Accumulator)
  | accumulator :: accumulators, value :: values => do
    let accumulator ← accumulator.accumulate value
    .ok (accumulator :: (← accumulateAll accumulators values))
  | accumulators, _ => .ok accumulators

end Accumulator

namespace Aggregation

/-- The accumulators of the groups. -/
abbrev Groups := List (Row × List Accumulator)

/-- Whether the hash table finds a group under a key. -/
def finds (stored sought : Row) : Bool :=
  stored = sought && sought.all fun value => value.equals value

/-- Accumulate values in the group of a key, which is created if it is not found. -/
def enter (fresh : List Accumulator) (key values : Row) : Groups → Except Fault Groups
  | [] => do .ok [(key, ← Accumulator.accumulateAll fresh values)]
  | (stored, accumulators) :: groups => do
    if finds stored key then
      .ok ((stored, ← Accumulator.accumulateAll accumulators values) :: groups)
    else .ok ((stored, accumulators) :: (← enter fresh key values groups))

/-- Accumulate a row. Hashing NULL never returns. -/
def accumulate (aggregates : List Aggregate) (groups : Groups) (row : Row) : Except Fault Groups :=
  if row.length < aggregates.length then .error (.panic "split index should be <= len")
  else if .null ∈ row.drop aggregates.length then .error (.panic "stack overflow")
  else
    enter (aggregates.map Accumulator.new) (row.drop aggregates.length)
      (row.take aggregates.length) groups

def apply (aggregates : List Aggregate) : ResultSet → Except Fault ResultSet
  | .query columns rows => do
    let groups ← rows.foldlM (fun groups row => do accumulate aggregates groups (← row)) []
    -- without rows and without group columns there is one row of empty accumulators
    let groups :=
      if groups = [] ∧ aggregates.length = columns.length then
        [([], aggregates.map Accumulator.new)]
      else groups
    let headings := List.replicate (min aggregates.length columns.length) none ++
      columns.drop aggregates.length
    .ok (.query headings
      (groups.map fun group => .ok (group.2.map Accumulator.aggregate ++ group.1)))
  | result => .error (.error (.internal ("Unexpected result " ++ result.debug)))

/-- An aggregation. -/
def execute (source : Executor) (aggregates : List Aggregate) : Executor := do
  lift (apply aggregates (← source))

end Aggregation

end Radb.Sql
