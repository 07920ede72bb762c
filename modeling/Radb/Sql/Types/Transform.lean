import Radb.Foundation.Script
import Radb.Sql.Types.Expression

/-! # Walking over expressions

How expressions are searched and transformed. A rewriting that is applied before
descending returns an expression whose operands are smaller than the one it was given,
so that the walk ends.
-/

namespace Radb.Sql

open Foundation

variable {expression : Expression} {visitor : Expression → Bool} {visit : Expression → Expression}

namespace Expression

/-- The operands of an expression. -/
def children : Expression → List Expression
  | constant _ => []
  | field _ _ => []
  | and left right => [left, right]
  | not operand => [operand]
  | or left right => [left, right]
  | equal left right => [left, right]
  | greaterThan left right => [left, right]
  | isNull operand => [operand]
  | lessThan left right => [left, right]
  | add left right => [left, right]
  | assert operand => [operand]
  | divide left right => [left, right]
  | exponentiate left right => [left, right]
  | factorial operand => [operand]
  | modulo left right => [left, right]
  | multiply left right => [left, right]
  | negate operand => [operand]
  | subtract left right => [left, right]
  | like left right => [left, right]

/-- The number of operators, constants and fields of an expression. -/
def size : Expression → Nat
  | constant _ => 1
  | field _ _ => 1
  | and left right => left.size + right.size + 1
  | not operand => operand.size + 1
  | or left right => left.size + right.size + 1
  | equal left right => left.size + right.size + 1
  | greaterThan left right => left.size + right.size + 1
  | isNull operand => operand.size + 1
  | lessThan left right => left.size + right.size + 1
  | add left right => left.size + right.size + 1
  | assert operand => operand.size + 1
  | divide left right => left.size + right.size + 1
  | exponentiate left right => left.size + right.size + 1
  | factorial operand => operand.size + 1
  | modulo left right => left.size + right.size + 1
  | multiply left right => left.size + right.size + 1
  | negate operand => operand.size + 1
  | subtract left right => left.size + right.size + 1
  | like left right => left.size + right.size + 1

theorem size_lt_of_mem_children {child : Expression} (member : child ∈ expression.children) :
    child.size < expression.size := by
  cases expression <;>
    simp only [children, List.mem_cons, List.not_mem_nil, or_false] at member <;>
    (try rcases member with rfl | rfl) <;> simp only [size] <;> omega

/-- An induction over the operands of an expression. -/
theorem induction_on_children {motive : Expression → Prop}
    (step : ∀ expression, (∀ child ∈ expression.children, motive child) → motive expression)
    (expression : Expression) : motive expression := by
  induction measured : expression.size using Nat.strong_induction_on generalizing expression with
  | _ size ih =>
    subst measured
    exact step expression fun child inside =>
      ih child.size (size_lt_of_mem_children inside) child rfl

/-- An expression whose operands are smaller than the given one. -/
abbrev Smaller (expression : Expression) :=
  { next : Expression // ∀ child ∈ next.children, child.size < expression.size }

/-- An expression itself, whose operands are smaller. -/
def same (expression : Expression) : Smaller expression :=
  ⟨expression, fun _ => size_lt_of_mem_children⟩

/-- Walks the expression tree, calling a closure for every node. Halts if closure returns
false. -/
def walk (visitor : Expression → Bool) (expression : Expression) : Bool :=
  visitor expression && expression.children.attach.all fun child => walk visitor child.1
termination_by expression.size
decreasing_by exact size_lt_of_mem_children child.2

/-- Walks the expression tree while calling a closure. Returns true as soon as the closure
returns true. -/
def contains (visitor : Expression → Bool) (expression : Expression) : Bool :=
  !expression.walk fun other => !visitor other

theorem walk_iff :
    expression.walk visitor = true ↔ visitor expression = true ∧
      ∀ child ∈ expression.children, child.walk visitor = true := by
  rw [walk]
  simp

/-- A closure holds somewhere in an expression exactly if it holds at its root or in an
operand. -/
theorem contains_iff :
    expression.contains visitor = true ↔ visitor expression = true ∨
      ∃ child ∈ expression.children, child.contains visitor = true := by
  constructor
  · intro found
    by_contra neither
    obtain ⟨here, below⟩ := not_or.mp neither
    have walked : expression.walk (fun other => !visitor other) = true := by
      refine walk_iff.mpr ⟨by simpa using here, fun child inside => ?_⟩
      by_contra stopped
      exact below ⟨child, inside, by simpa [contains] using stopped⟩
    rw [contains, walked] at found
    cases found
  · intro either
    by_contra missed
    have walked : expression.walk (fun other => !visitor other) = true := by
      simpa [contains] using missed
    obtain ⟨here, below⟩ := walk_iff.mp walked
    rcases either with found | ⟨child, inside, found⟩
    · simp [found] at here
    · simp [contains, below child inside] at found

variable {m : Type → Type} [Monad m]

/-- Replace the operands of an expression, from left to right. -/
def descend (expression : Expression)
    (visit : (child : Expression) → child ∈ expression.children → m Expression) : m Expression :=
  match expression with
  | constant value => return constant value
  | field index label => return field index label
  | and left right => do
    return and (← visit left (by simp [children])) (← visit right (by simp [children]))
  | not operand => do return not (← visit operand (by simp [children]))
  | or left right => do
    return or (← visit left (by simp [children])) (← visit right (by simp [children]))
  | equal left right => do
    return equal (← visit left (by simp [children])) (← visit right (by simp [children]))
  | greaterThan left right => do
    return greaterThan (← visit left (by simp [children])) (← visit right (by simp [children]))
  | isNull operand => do return isNull (← visit operand (by simp [children]))
  | lessThan left right => do
    return lessThan (← visit left (by simp [children])) (← visit right (by simp [children]))
  | add left right => do
    return add (← visit left (by simp [children])) (← visit right (by simp [children]))
  | assert operand => do return assert (← visit operand (by simp [children]))
  | divide left right => do
    return divide (← visit left (by simp [children])) (← visit right (by simp [children]))
  | exponentiate left right => do
    return exponentiate (← visit left (by simp [children])) (← visit right (by simp [children]))
  | factorial operand => do return factorial (← visit operand (by simp [children]))
  | modulo left right => do
    return modulo (← visit left (by simp [children])) (← visit right (by simp [children]))
  | multiply left right => do
    return multiply (← visit left (by simp [children])) (← visit right (by simp [children]))
  | negate operand => do return negate (← visit operand (by simp [children]))
  | subtract left right => do
    return subtract (← visit left (by simp [children])) (← visit right (by simp [children]))
  | like left right => do
    return like (← visit left (by simp [children])) (← visit right (by simp [children]))

/-- Transforms the expression tree by applying a closure before and after descending. -/
def transform (before : (expression : Expression) → m (Smaller expression))
    (after : Expression → m Expression) (expression : Expression) : m Expression := do
  let next ← before expression
  let result ← next.1.descend fun child _ => transform before after child
  after result
termination_by expression.size
decreasing_by exact next.2 _ ‹_›

/-- Transforms the expression tree by closures that never fail. -/
def rewrite (before : (expression : Expression) → Smaller expression)
    (after : Expression → Expression) (expression : Expression) : Expression :=
  Id.run (expression.transform (fun expression => pure (before expression)) fun expression =>
    pure (after expression))

theorem rewrite_eq (before : (expression : Expression) → Smaller expression)
    (after : Expression → Expression) (expression : Expression) :
    expression.rewrite before after =
      after (Id.run ((before expression).1.descend fun child _ =>
        pure (child.rewrite before after))) := by
  rw [rewrite, transform]
  rfl

theorem children_descend (expression : Expression) :
    (Id.run (expression.descend fun child _ => pure (visit child))).children =
      expression.children.map visit := by
  cases expression <;> rfl

/-- An expression returns at least the values of another one on a row. -/
def Refines (row : Row) (first second : Expression) : Prop :=
  ∀ value, first.evaluate row = .ok value → second.evaluate row = .ok value

variable {row : Row}

theorem Refines.trans {first second third : Expression} (left : first.Refines row second)
    (right : second.Refines row third) : first.Refines row third :=
  fun value returned => right value (left value returned)

theorem returns_unary {operation : Value → Except Fault Value} {operand replaced : Expression}
    {value : Value} (better : operand.Refines row replaced)
    (returned : (operand.evaluate row >>= operation) = .ok value) :
    (replaced.evaluate row >>= operation) = .ok value := by
  obtain ⟨argument, evaluated, result⟩ := bind_eq_ok.mp returned
  exact bind_eq_ok.mpr ⟨argument, better argument evaluated, result⟩

theorem returns_binary {operation : Value → Value → Except Fault Value}
    {left right leftReplaced rightReplaced : Expression} {value : Value}
    (leftBetter : left.Refines row leftReplaced) (rightBetter : right.Refines row rightReplaced)
    (returned : (do operation (← left.evaluate row) (← right.evaluate row)) = .ok value) :
    (do operation (← leftReplaced.evaluate row) (← rightReplaced.evaluate row)) = .ok value := by
  obtain ⟨first, evaluated, rest⟩ := bind_eq_ok.mp returned
  obtain ⟨second, also, result⟩ := bind_eq_ok.mp rest
  exact bind_eq_ok.mpr ⟨first, leftBetter first evaluated,
    bind_eq_ok.mpr ⟨second, rightBetter second also, result⟩⟩

/-- Operands may be replaced by ones that return at least their values. -/
theorem Refines.descend (each : ∀ child ∈ expression.children, child.Refines row (visit child)) :
    expression.Refines row (Id.run (expression.descend fun child _ => pure (visit child))) := by
  intro value returned
  cases expression <;>
    first
      | exact returned
      | exact returns_unary (each _ (by simp [children])) returned
      | exact returns_binary (each _ (by simp [children])) (each _ (by simp [children])) returned

/-- A rewriting whose steps keep the values of an expression keeps them as a whole. -/
theorem Refines.rewrite {before : (expression : Expression) → Smaller expression}
    (keeps : ∀ expression : Expression, expression.Refines row (before expression).1)
    (expression : Expression) : expression.Refines row (expression.rewrite before id) := by
  induction measured : expression.size using Nat.strong_induction_on generalizing expression with
  | _ size ih =>
    subst measured
    rw [rewrite_eq]
    apply (keeps expression).trans
    apply Refines.descend
    intro child inside
    exact ih child.size ((before expression).2 child inside) child rfl

end Expression

end Radb.Sql
