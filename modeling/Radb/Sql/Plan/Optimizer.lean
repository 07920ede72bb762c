import Radb.Sql.Engine.Kv
import Radb.Sql.Plan.Node
import Radb.Sql.Types.Fields
import Radb.Sql.Types.NormalForm

/-! # Optimizers -/

namespace Radb.Sql

open Foundation Foundation.Script

namespace ConstantFolder

/-- Replace an expression without fields by its value. -/
def fold (expression : Expression) : Except Fault (Expression.Smaller expression) :=
  if !expression.refers fun _ => true then do
    return ⟨.constant (← expression.evaluate []), by simp [Expression.children]⟩
  else .ok expression.same

/-- A constant folding optimizer, which replaces constant expressions with their evaluated
value. -/
def optimize (node : Node) : Except Fault Node :=
  node.transform (fun node => .ok node.same)
    (Node.transformExpressions (Expression.transform fold .ok))

end ConstantFolder

namespace FilterPushdown

/-- A node with as many nodes as another one. -/
abbrev Resized (target : Node) := { node : Node // node.size = target.size }

/-- An expression that is joined in front of a former one, if there is one. -/
def conjoin (expression : Expression) : Option Expression → Expression
  | some former => .and expression former
  | none => expression

/-- Attempts to push an expression down into a target node, returns any remaining
expression. -/
def pushdown (expression : Expression) :
    (target : Node) → Option Expression × Resized target
  | .scan table aliased filter => (none, ⟨.scan table aliased (some (conjoin expression filter)), rfl⟩)
  | .nestedLoopJoin left leftSize right predicate outer =>
    (none, ⟨.nestedLoopJoin left leftSize right (some (conjoin expression predicate)) outer, rfl⟩)
  | .filter source predicate => (none, ⟨.filter source (.and predicate expression), rfl⟩)
  | target => (some expression, ⟨target, rfl⟩)

/-- The conjuncts of a join predicate: those for the left and for the right source, and those
that span both. -/
structure Conjuncts where
  left : List Expression
  right : List Expression
  rest : List Expression

/-- Partition conjuncts into expressions only referencing the left or right sources, leaving
cross-source expressions. -/
def partition (boundary : Nat) (cnf : List Expression) : Conjuncts :=
  let (pushLeft, cnf) := cnf.partition fun expression => !expression.refers (boundary ≤ ·)
  let (pushRight, cnf) := cnf.partition fun expression => !expression.refers (· < boundary)
  ⟨pushLeft, pushRight, cnf⟩

/-- Transfer the constants of the first lookup of a left field to the right field that equals
it, or else those of the first lookup of the right field to the left. -/
def transferBetween (pushed : List Expression × List Expression) (l : Nat) (ln : Label) (r : Nat)
    (rn : Label) : List Expression × List Expression :=
  match pushed.1.findSome? (·.asLookup l) with
  | some values => (pushed.1, pushed.2 ++ [.fromLookup r rn values])
  | none =>
    match pushed.2.findSome? (·.asLookup r) with
    | some values => (pushed.1 ++ [.fromLookup l ln values], pushed.2)
    | none => pushed

/-- Transfer constants between the fields of an equijoin, of which the lower one is on the
left. -/
def transfer (pushed : List Expression × List Expression) :
    Expression → List Expression × List Expression
  | .equal (.field l ln) (.field r rn) =>
    if r < l then transferBetween pushed r rn l ln else transferBetween pushed l ln r rn
  | _ => pushed

/-- Partition a join predicate, and look for equijoins that have constant lookups on either
side, to transfer the constants to the other side of the join as well. -/
def split (boundary : Nat) (predicate : Expression) : Conjuncts :=
  let conjuncts := partition boundary predicate.intoCnfVec
  let (pushLeft, pushRight) := conjuncts.rest.foldl transfer (conjuncts.left, conjuncts.right)
  ⟨pushLeft, pushRight, conjuncts.rest⟩

/-- Push an optional expression down into a target node. -/
def pushdownSome (expression : Option Expression) (target : Node) :
    Option Expression × Resized target :=
  match expression with
  | some expression => pushdown expression target
  | none => (none, ⟨target, rfl⟩)

/-- Attempts to partition a join predicate and push parts of it down into either source,
returning any remaining expression. All field references to the right are shifted left. -/
def pushdownJoin (predicate : Expression) (left right : Node) (boundary : Nat) :
    Except Fault (Option Expression × Resized left × Resized right) := do
  let conjuncts := split boundary predicate
  let (leftRemainder, left) := pushdownSome (Expression.fromCnfVec conjuncts.left) left
  let pushRight ← (Expression.fromCnfVec conjuncts.right).mapM (Expression.shift boundary)
  let (rightRemainder, right) := pushdownSome pushRight right
  return (Expression.fromCnfVec (conjuncts.rest ++ leftRemainder.toList ++ rightRemainder.toList),
    left, right)

/-- Push the predicate of a filter into its source, and that of a join into its sources. A filter
stays in place, if need be with a predicate that is always true. -/
def descend : (node : Node) → Except Fault (Node.Smaller node)
  | .filter source predicate =>
    let (remainder, target) := pushdown predicate source
    .ok ⟨.filter target.1 (remainder.getD (.constant (.boolean true))), by
      have resized := target.2
      simp only [Node.children, List.mem_singleton, forall_eq, Node.size]
      omega⟩
  | .nestedLoopJoin left leftSize right (some predicate) outer => do
    let (predicate, leftTarget, rightTarget) ← pushdownJoin predicate left right leftSize
    return ⟨.nestedLoopJoin leftTarget.1 leftSize rightTarget.1 predicate outer, by
      have leftResized := leftTarget.2
      have rightResized := rightTarget.2
      simp only [Node.children, List.mem_cons, List.not_mem_nil, or_false, forall_eq_or_imp,
        forall_eq, Node.size]
      omega⟩
  | node => .ok node.same

/-- A filter pushdown optimizer, which moves filter predicates into or closer to the source
node. -/
def optimize (node : Node) : Except Fault Node := node.transform descend .ok

end FilterPushdown

namespace IndexLookup

/-- Wraps a node in a filter for the given CNF vector, if any, otherwise returns the bare
node. -/
def wrapCnf (node : Node) (cnf : List Expression) : Node :=
  match Expression.fromCnfVec cnf with
  | some predicate => .filter node predicate
  | none => node

/-- Values that are looked up in the primary key, or in an indexed column at a position. -/
inductive Lookup where
  | key (keys : List Value)
  | index (position : Nat) (column : Column) (values : List Value)

/-- The lookup that a conjunct is: of the primary key, or else of the first indexed column. -/
def asLookup (table : Table) (pk : Nat) (conjunct : Expression) : Option Lookup :=
  match conjunct.asLookup pk with
  | some keys => some (.key keys)
  | none => table.indexes.findSome? fun (position, column) =>
    (conjunct.asLookup position).map (.index position column)

/-- The first conjunct that is a lookup, and the others. -/
def choose (table : Table) (pk : Nat) :
    List Expression → Option (Lookup × Expression × List Expression)
  | [] => none
  | conjunct :: cnf =>
    match asLookup table pk conjunct with
    | some lookup => some (lookup, conjunct, cnf)
    | none => (choose table pk cnf).map fun (lookup, chosen, others) =>
      (lookup, chosen, conjunct :: others)

/-- The node of a lookup. -/
def Lookup.node (table : String) (aliased : Option String) : Lookup → Node
  | .key keys => .keyLookup table aliased keys
  | .index _ column values => .indexLookup table aliased column.name values

/-- If a lookup is found in the filter of a scan, return a lookup node and then apply the
remaining conjunctions as a filter node, if any. -/
def replace : Node → Task Node
  | .scan table aliased (some filter) => do
    let found ← Kv.mustReadTable table
    match found.columns.findIdx? fun column => column.primaryKey with
    | none => stop (.panic "called `Option::unwrap()` on a `None` value")
    | some pk =>
      match choose found pk filter.intoCnfVec with
      | some (lookup, _, cnf) => done (wrapCnf (lookup.node table aliased) cnf)
      | none => done (.scan table aliased (some filter))
  | node => done node

/-- An index lookup optimizer, which converts table scans to index lookups. -/
def optimize (node : Node) : Task Node := node.transform (fun node => done node.same) replace

end IndexLookup

namespace JoinType

/-- Replace a nested-loop equijoin by a hash join. The field that is not on the left is
taken to be on the right. -/
def replace : (node : Node) → Except Fault (Node.Smaller node)
  | .nestedLoopJoin left leftSize right (some (.equal (.field a aLabel) (.field b bLabel))) outer =>
    if a < leftSize then
      if b < leftSize then .error (.panic "attempt to subtract with overflow")
      else .ok ⟨.hashJoin left (a, aLabel) right (b - leftSize, bLabel) outer,
        fun _ inside => (Node.nestedLoopJoin ..).size_lt_of_mem_children inside⟩
    else .ok ⟨.hashJoin left (b, bLabel) right (a - leftSize, aLabel) outer,
      fun _ inside => (Node.nestedLoopJoin ..).size_lt_of_mem_children inside⟩
  | node => .ok node.same

/-- Optimizes join types, by swapping nested-loop joins with hash joins where
appropriate. -/
def optimize (node : Node) : Except Fault Node := node.transform replace .ok

end JoinType

end Radb.Sql
