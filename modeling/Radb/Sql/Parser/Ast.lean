import Radb.Sql.Types.Value

/-! # Syntax trees

The expressions that SQL text is parsed into. A literal has the variants of a
value. Operators with one and with two operands are told apart by what they compute.
-/

namespace Radb.Sql.Ast

/-- An operation on one operand. -/
inductive UnaryOperation where
  | not
  | isNull
  | assert
  | factorial
  | negate
  deriving DecidableEq

/-- An operation on two operands. -/
inductive BinaryOperation where
  | and
  | or
  | equal
  | greaterThan
  | greaterThanOrEqual
  | lessThan
  | lessThanOrEqual
  | notEqual
  | add
  | divide
  | exponentiate
  | modulo
  | multiply
  | subtract
  | like
  deriving DecidableEq

/-- Expressions. A column is only used during plan building, to break off expression
subtrees. -/
inductive Expression where
  | field (table : Option String) (name : String)
  | column (index : Nat)
  | literal (value : Value)
  | function (name : String) (arguments : List Expression)
  | unary (operation : UnaryOperation) (operand : Expression)
  | binary (operation : BinaryOperation) (left right : Expression)

end Radb.Sql.Ast
