import Radb.Sql.Execution.Aggregation
import Radb.Sql.Execution.Join
import Radb.Sql.Execution.Mutation
import Radb.Sql.Engine.Contents

/-! # Executing plans -/

namespace Radb.Sql

open Foundation Foundation.Script

/-- The executor of a plan node. -/
def Executor.build : Node → Executor
  | .aggregation source aggregates => Aggregation.execute (build source) aggregates
  | .createTable schema => CreateTable.execute schema
  | .delete table source => Delete.execute table (build source)
  | .dropTable table ifExists => DropTable.execute table ifExists
  | .filter source predicate => Filter.execute (build source) predicate
  | .hashJoin left leftField right rightField outer =>
    HashJoin.execute (build left) leftField.1 (build right) rightField.1 outer
  | .indexLookup table _ column values => IndexLookup.execute table column values
  | .insert table columns expressions => Insert.execute table columns expressions
  | .keyLookup table _ keys => KeyLookup.execute table keys
  | .limit source limit => Limit.execute (build source) limit
  | .nestedLoopJoin left _ right predicate outer =>
    NestedLoopJoin.execute (build left) (build right) predicate outer
  | .nothing => Nothing.execute
  | .offset source offset => Offset.execute (build source) offset
  | .order source orders => Order.execute (build source) orders
  | .projection source expressions => Projection.execute (build source) expressions
  | .scan table _ filter => Scan.execute table filter
  | .update table source expressions => Update.execute table (build source) expressions

namespace Contents

variable {contents : Contents} {source left right : Executor} {columns rightColumns : Columns}
  {rows rightRows : Rows}

/-- What follows a task that returns. -/
theorem reply_bind {First Second : Type} {task : Task First} {next : First → Task Second}
    {value : First} (returned : contents.reply task = .ok value) :
    contents.reply (task >>= next) = contents.reply (next value) := by
  change (task.andThen next).answer KeyPrefix.covers contents = _
  rw [answer_andThen, show task.answer KeyPrefix.covers contents = .ok value from returned]
  rfl

theorem reply_filter (predicate : Expression)
    (run : contents.reply source = .ok (.query columns rows)) :
    contents.reply (Filter.execute source predicate) =
      .ok (.query columns (rows.filterMap (Filter.item predicate))) := by
  rw [Filter.execute, reply_bind run]
  rfl

theorem reply_nestedLoopJoin (predicate : Option Expression) (outer : Bool)
    (leftRun : contents.reply left = .ok (.query columns rows))
    (rightRun : contents.reply right = .ok (.query rightColumns rightRows)) :
    contents.reply (NestedLoopJoin.execute left right predicate outer) =
      NestedLoopJoin.apply predicate outer (.query columns rows)
        (.query rightColumns rightRows) := by
  rw [NestedLoopJoin.execute, reply_bind leftRun]
  dsimp only
  rw [reply_bind rightRun]
  exact answer_lift _ _ _

theorem reply_hashJoin (leftField rightField : Nat) (outer : Bool)
    (leftRun : contents.reply left = .ok (.query columns rows))
    (rightRun : contents.reply right = .ok (.query rightColumns rightRows)) :
    contents.reply (HashJoin.execute left leftField right rightField outer) =
      HashJoin.apply leftField rightField outer (.query columns rows)
        (.query rightColumns rightRows) := by
  rw [HashJoin.execute, reply_bind leftRun]
  dsimp only
  rw [reply_bind rightRun]
  exact answer_lift _ _ _

end Contents

/-- Two plans return the same rows of a database, in any order. -/
def SameRows (contents : Contents) (first second : Node) : Prop :=
  ∃ (columns : Columns) (rows others : List Row),
    contents.reply (Executor.build first) = .ok (.query columns (rows.map .ok)) ∧
    contents.reply (Executor.build second) = .ok (.query columns (others.map .ok)) ∧
    rows.Perm others

/-- Plans that return are compared by what they return. -/
theorem sameRows_iff_perm {contents : Contents} {first second : Node} {columns : Columns}
    {rows others : List Row}
    (left : contents.reply (Executor.build first) = .ok (.query columns (rows.map .ok)))
    (right : contents.reply (Executor.build second) = .ok (.query columns (others.map .ok))) :
    SameRows contents first second ↔ rows.Perm others := by
  constructor
  · intro ⟨_, one, other, isOne, isOther, same⟩
    have firstItems := (ResultSet.query.inj (Except.ok.inj (left.symm.trans isOne))).2
    have secondItems := (ResultSet.query.inj (Except.ok.inj (right.symm.trans isOther))).2
    obtain rfl := List.map_injective_iff.mpr (fun _ _ equal => Except.ok.inj equal) firstItems
    obtain rfl := List.map_injective_iff.mpr (fun _ _ equal => Except.ok.inj equal) secondItems
    exact same
  · intro same
    exact ⟨columns, rows, others, left, right, same⟩

end Radb.Sql
