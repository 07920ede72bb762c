import Radb.Sql.Schema
import Radb.Sql.Types.Expression

/-! # Plan nodes

The nodes of a query plan, and how an optimizer walks over them. A rewriting that is
applied before descending returns a node whose children are smaller than the node it
was given, so that the walk ends.
-/

namespace Radb.Sql

/-- An aggregate operation. -/
inductive Aggregate where
  | average
  | count
  | max
  | min
  | sum
  deriving DecidableEq

/-- A sort order direction. -/
inductive Direction where
  | ascending
  | descending
  deriving DecidableEq

/-- A plan node. -/
inductive Node where
  | aggregation (source : Node) (aggregates : List Aggregate)
  | createTable (schema : Table)
  | delete (table : String) (source : Node)
  | dropTable (table : String) (ifExists : Bool)
  | filter (source : Node) (predicate : Expression)
  | hashJoin (left : Node) (leftField : Nat × Label) (right : Node) (rightField : Nat × Label)
      (outer : Bool)
  | indexLookup (table : String) (aliased : Option String) (column : String) (values : List Value)
  | insert (table : String) (columns : List String) (expressions : List (List Expression))
  | keyLookup (table : String) (aliased : Option String) (keys : List Value)
  | limit (source : Node) (limit : Nat)
  | nestedLoopJoin (left : Node) (leftSize : Nat) (right : Node) (predicate : Option Expression)
      (outer : Bool)
  | nothing
  | offset (source : Node) (offset : Nat)
  | order (source : Node) (orders : List (Expression × Direction))
  | projection (source : Node) (expressions : List (Expression × Option String))
  | scan (table : String) (aliased : Option String) (filter : Option Expression)
  | update (table : String) (source : Node) (expressions : List (Nat × Option String × Expression))
  deriving DecidableEq

namespace Node

/-- The sources of a node. -/
def children : Node → List Node
  | aggregation source _ => [source]
  | delete _ source => [source]
  | filter source _ => [source]
  | hashJoin left _ right _ _ => [left, right]
  | limit source _ => [source]
  | nestedLoopJoin left _ right _ _ => [left, right]
  | offset source _ => [source]
  | order source _ => [source]
  | projection source _ => [source]
  | update _ source _ => [source]
  | _ => []

/-- The number of nodes of a plan. -/
def size : Node → Nat
  | aggregation source _ => source.size + 1
  | delete _ source => source.size + 1
  | filter source _ => source.size + 1
  | hashJoin left _ right _ _ => left.size + right.size + 1
  | limit source _ => source.size + 1
  | nestedLoopJoin left _ right _ _ => left.size + right.size + 1
  | offset source _ => source.size + 1
  | order source _ => source.size + 1
  | projection source _ => source.size + 1
  | update _ source _ => source.size + 1
  | _ => 1

theorem size_lt_of_mem_children {node child : Node} (member : child ∈ node.children) :
    child.size < node.size := by
  cases node <;> simp only [children, List.mem_cons, List.not_mem_nil, or_false] at member <;>
    (try rcases member with rfl | rfl) <;> simp only [size] <;> omega

/-- A node whose children are smaller than the given one. -/
abbrev Smaller (node : Node) := { next : Node // ∀ child ∈ next.children, child.size < node.size }

/-- A node itself, whose children are smaller. -/
def same (node : Node) : Smaller node := ⟨node, fun _ => size_lt_of_mem_children⟩

variable {m : Type → Type} [Monad m]

/-- Replace the sources of a node, from left to right. -/
def descend (node : Node) (visit : (child : Node) → child ∈ node.children → m Node) : m Node :=
  match node with
  | aggregation source aggregates => do
    return aggregation (← visit source (by simp [children])) aggregates
  | delete table source => do return delete table (← visit source (by simp [children]))
  | filter source predicate => do return filter (← visit source (by simp [children])) predicate
  | hashJoin left leftField right rightField outer => do
    let left ← visit left (by simp [children])
    let right ← visit right (by simp [children])
    return hashJoin left leftField right rightField outer
  | limit source count => do return limit (← visit source (by simp [children])) count
  | nestedLoopJoin left leftSize right predicate outer => do
    let left ← visit left (by simp [children])
    let right ← visit right (by simp [children])
    return nestedLoopJoin left leftSize right predicate outer
  | offset source count => do return offset (← visit source (by simp [children])) count
  | order source orders => do return order (← visit source (by simp [children])) orders
  | projection source expressions => do
    return projection (← visit source (by simp [children])) expressions
  | update table source expressions => do
    return update table (← visit source (by simp [children])) expressions
  | node => return node

/-- Recursively transforms nodes by applying functions before and after descending. -/
def transform (before : (node : Node) → m (Smaller node)) (after : Node → m Node) (node : Node) :
    m Node := do
  let next ← before node
  let result ← next.1.descend fun child _ => transform before after child
  after result
termination_by node.size
decreasing_by exact next.2 _ ‹_›

/-- Transforms all expressions in a node with a given closure, from left to right. -/
def transformExpressions (visit : Expression → m Expression) : Node → m Node
  | filter source predicate => do return filter source (← visit predicate)
  | insert table columns expressions => do
    return insert table columns (← expressions.mapM fun row => row.mapM visit)
  | order source orders => do
    return order source (← orders.mapM fun (expression, direction) => do
      return (← visit expression, direction))
  | nestedLoopJoin left leftSize right (some predicate) outer => do
    return nestedLoopJoin left leftSize right (some (← visit predicate)) outer
  | projection source expressions => do
    return projection source (← expressions.mapM fun (expression, label) => do
      return (← visit expression, label))
  | scan table aliased (some predicate) => do
    return scan table aliased (some (← visit predicate))
  | update table source expressions => do
    return update table source (← expressions.mapM fun (index, label, expression) => do
      return (index, label, ← visit expression))
  | node => return node

end Node

end Radb.Sql
