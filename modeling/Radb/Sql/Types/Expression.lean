import Radb.Sql.Types.Like
import Radb.Sql.Types.Value

/-! # Expressions

Expressions and their evaluation over a row. Logical operators are three-valued and
evaluate both operands; comparisons with NULL are NULL. Arithmetic on 64-bit
integers is checked, except that negation, factorials and the quotient of the
smallest integer by minus one overflow with a panic.
-/

namespace Radb.Sql

open Foundation

/-- A column label, qualified by a table name when available. -/
abbrev Label := Option (Option String × String)

/-- An expression, made up of constants and operations. -/
inductive Expression where
  | constant (value : Value)
  | field (index : Nat) (label : Label)
  | and (left right : Expression)
  | not (operand : Expression)
  | or (left right : Expression)
  | equal (left right : Expression)
  | greaterThan (left right : Expression)
  | isNull (operand : Expression)
  | lessThan (left right : Expression)
  | add (left right : Expression)
  | assert (operand : Expression)
  | divide (left right : Expression)
  | exponentiate (left right : Expression)
  | factorial (operand : Expression)
  | modulo (left right : Expression)
  | multiply (left right : Expression)
  | negate (operand : Expression)
  | subtract (left right : Expression)
  | like (left right : Expression)
  deriving DecidableEq

namespace Value

/-- An integer result, or an error if it does not fit. -/
def checked (result : Int) : Except Fault Value :=
  if Int64.minValue.toInt ≤ result ∧ result ≤ Int64.maxValue.toInt then
    .ok (integer (Int64.ofInt result))
  else
    .error (.value "Integer overflow")

/-- An integer result, or a panic if it does not fit. -/
def unchecked (operation : String) (result : Int) : Except Fault Value :=
  if Int64.minValue.toInt ≤ result ∧ result ≤ Int64.maxValue.toInt then
    .ok (integer (Int64.ofInt result))
  else
    .error (.panic s!"attempt to {operation} with overflow")

/-- An integer as a float. -/
def toFloat (number : Int64) : Binary64 := Binary64.ofInt number.toInt

/-- Conjunction. -/
def and : Value → Value → Except Fault Value
  | boolean left, boolean right => .ok (boolean (left && right))
  | boolean left, null => .ok (if left then null else boolean false)
  | null, boolean right => .ok (if right then null else boolean false)
  | null, null => .ok null
  | left, right => .error (.value s!"Can't and {left} and {right}")

/-- Disjunction. -/
def or : Value → Value → Except Fault Value
  | boolean left, boolean right => .ok (boolean (left || right))
  | boolean left, null => .ok (if left then boolean true else null)
  | null, boolean right => .ok (if right then boolean true else null)
  | null, null => .ok null
  | left, right => .error (.value s!"Can't or {left} and {right}")

/-- Logical negation. -/
def not : Value → Except Fault Value
  | boolean value => .ok (boolean !value)
  | null => .ok null
  | value => .error (.value s!"Can't negate {value}")

/-- A comparison, given the comparison of each datatype. Integers are compared with
floats as floats. -/
def compare (booleans : Bool → Bool → Bool) (integers : Int64 → Int64 → Bool)
    (floats : Binary64 → Binary64 → Bool) (strings : String → String → Bool) :
    Value → Value → Except Fault Value
  | boolean left, boolean right => .ok (boolean (booleans left right))
  | integer left, integer right => .ok (boolean (integers left right))
  | integer left, float right => .ok (boolean (floats (toFloat left) right))
  | float left, integer right => .ok (boolean (floats left (toFloat right)))
  | float left, float right => .ok (boolean (floats left right))
  | string left, string right => .ok (boolean (strings left right))
  | null, _ => .ok null
  | _, null => .ok null
  | left, right => .error (.value s!"Can't compare {left} and {right}")

def equal : Value → Value → Except Fault Value :=
  compare (fun left right => left = right) (fun left right => left = right) Binary64.equals
    (fun left right => left = right)

def greaterThan : Value → Value → Except Fault Value :=
  compare (fun left right => right < left) (fun left right => right < left)
    (fun left right => right.below left) (fun left right => right < left)

def lessThan : Value → Value → Except Fault Value :=
  compare (fun left right => left < right) (fun left right => left < right) Binary64.below
    (fun left right => left < right)

def isNull : Value → Value
  | null => boolean true
  | _ => boolean false

/-- An arithmetic operation, given its integer and its float form. Integers are
converted when the other operand is a float. -/
def arithmetic (phrase : String) (integers : Int64 → Int64 → Except Fault Value)
    (floats : Binary64 → Binary64 → Binary64) : Value → Value → Except Fault Value
  | integer left, integer right => integers left right
  | integer left, float right => .ok (float (floats (toFloat left) right))
  | integer _, null => .ok null
  | float left, integer right => .ok (float (floats left (toFloat right)))
  | float left, float right => .ok (float (floats left right))
  | float _, null => .ok null
  | null, float _ => .ok null
  | null, integer _ => .ok null
  | null, null => .ok null
  | left, right => .error (.value s!"Can't {phrase} {left} and {right}")

def add : Value → Value → Except Fault Value :=
  arithmetic "add" (fun left right => checked (left.toInt + right.toInt)) Binary64.add

def subtract : Value → Value → Except Fault Value :=
  arithmetic "subtract" (fun left right => checked (left.toInt - right.toInt)) Binary64.subtract

def multiply : Value → Value → Except Fault Value :=
  arithmetic "multiply" (fun left right => checked (left.toInt * right.toInt)) Binary64.multiply

/-- Division truncates. -/
def divide : Value → Value → Except Fault Value :=
  arithmetic "divide"
    (fun left right =>
      if right = 0 then .error (.value "Can't divide by zero")
      else unchecked "divide" (left.toInt.tdiv right.toInt))
    Binary64.divide

/-- The remainder has the sign of the dividend. Its overflow is that of the
quotient. -/
def modulo : Value → Value → Except Fault Value :=
  arithmetic "take modulo of"
    (fun left right =>
      if right = 0 then .error (.value "Can't divide by zero")
      else do
        let _ ← unchecked "calculate the remainder" (left.toInt.tdiv right.toInt)
        .ok (integer (Int64.ofInt (left.toInt.tmod right.toInt))))
    Binary64.remainder

/-- Powers. Integer exponents are truncated to 32 bits. -/
def exponentiate : Value → Value → Except Fault Value
  | integer left, integer right =>
    if 0 ≤ right.toInt then checked (left.toInt ^ (right.toInt.toNat % 2 ^ 32))
    else .ok (float ((toFloat left).power (toFloat right)))
  | integer left, float right => .ok (float ((toFloat left).power right))
  | integer _, null => .ok null
  | float left, integer right =>
    .ok (float (left.power (Binary64.ofInt (Int32.ofInt right.toInt).toInt)))
  | float left, float right => .ok (float (left.power right))
  | float _, null => .ok null
  | null, float _ => .ok null
  | null, integer _ => .ok null
  | null, null => .ok null
  | left, right => .error (.value s!"Can't exponentiate {left} and {right}")

/-- The identity on numbers. -/
def assert : Value → Except Fault Value
  | float value => .ok (float value)
  | integer value => .ok (integer value)
  | null => .ok null
  | value => .error (.value s!"Can't take the positive of {value}")

/-- The opposite number. -/
def negate : Value → Except Fault Value
  | integer value => unchecked "negate" (-value.toInt)
  | float value => .ok (float value.negate)
  | null => .ok null
  | value => .error (.value s!"Can't negate {value}")

/-- The product of the integers up to a number, which stops at the first product
that does not fit. -/
def product : Nat → Except Fault Value
  | 0 => .ok (integer 1)
  | number + 1 => do
    match ← product number with
    | integer value => unchecked "multiply" (value.toInt * (number + 1))
    | value => .ok value

def factorial : Value → Except Fault Value
  | integer value =>
    if value.toInt < 0 then .error (.value "Can't take factorial of negative number")
    else product value.toInt.toNat
  | null => .ok null
  | value => .error (.value s!"Can't take factorial of {value}")

def like : Value → Value → Except Fault Value
  | string left, string right => .ok (boolean (isLike left right))
  | string _, null => .ok null
  | null, string _ => .ok null
  | left, right => .error (.value s!"Can't LIKE {left} and {right}")

end Value

namespace Expression

/-- Evaluates an expression to a value, given a row. -/
def evaluate (row : Row) : Expression → Except Fault Value
  | constant value => .ok value
  | field index _ => .ok (row[index]?.getD .null)
  | and left right => do Value.and (← left.evaluate row) (← right.evaluate row)
  | not operand => do Value.not (← operand.evaluate row)
  | or left right => do Value.or (← left.evaluate row) (← right.evaluate row)
  | equal left right => do Value.equal (← left.evaluate row) (← right.evaluate row)
  | greaterThan left right => do Value.greaterThan (← left.evaluate row) (← right.evaluate row)
  | lessThan left right => do Value.lessThan (← left.evaluate row) (← right.evaluate row)
  | isNull operand => do .ok (Value.isNull (← operand.evaluate row))
  | add left right => do Value.add (← left.evaluate row) (← right.evaluate row)
  | assert operand => do Value.assert (← operand.evaluate row)
  | divide left right => do Value.divide (← left.evaluate row) (← right.evaluate row)
  | exponentiate left right => do Value.exponentiate (← left.evaluate row) (← right.evaluate row)
  | factorial operand => do Value.factorial (← operand.evaluate row)
  | modulo left right => do Value.modulo (← left.evaluate row) (← right.evaluate row)
  | multiply left right => do Value.multiply (← left.evaluate row) (← right.evaluate row)
  | negate operand => do Value.negate (← operand.evaluate row)
  | subtract left right => do Value.subtract (← left.evaluate row) (← right.evaluate row)
  | like left right => do Value.like (← left.evaluate row) (← right.evaluate row)

end Expression

end Radb.Sql
