import Radb.Foundation.Numeral
import Radb.Sql.Parser.Ast
import Radb.Sql.Parser.Token

/-! # Parsing expressions

A parser takes tokens from the front of what the lexer yields. Expressions are parsed by
precedence climbing. A recursion takes at least one token, so a depth that grows with the number
of tokens is never reached.
-/

namespace Radb.Sql

open Foundation Ast

/-- What the lexer yields: tokens, and an error where it stops. -/
abbrev Tokens := List (Except Fault Token)

/-- An SQL parser. -/
abbrev Parser (α : Type) := StateT Tokens (Except Fault) α

namespace Parser

/-- A parse error. -/
def fail {α : Type} (message : String) : Parser α := throw (.error (.parse message))

/-- Grabs the next lexer token, or throws an error if none is found. -/
def next : Parser Token
  | [] => fail "Unexpected end of input" []
  | .error fault :: _ => throw fault
  | .ok token :: rest => .ok (token, rest)

/-- Peeks the next lexer token if any. -/
def peek : Parser (Option Token)
  | [] => .ok (none, [])
  | .error fault :: _ => throw fault
  | .ok token :: rest => .ok (some token, .ok token :: rest)

/-- Peeks the next lexer token if any, which an error is not. -/
def peekToken : Parser (Option Token)
  | .ok token :: rest => .ok (some token, .ok token :: rest)
  | tokens => .ok (none, tokens)

/-- Grabs the next lexer token, and returns it if it was expected or otherwise throws an
error. -/
def nextExpect : Option Token → Parser (Option Token)
  | some expected => do
    let token ← next
    if token = expected then return some token
    else fail s!"Expected token {expected}, found {token}"
  | none => do
    match ← peek with
    | some token => fail s!"Unexpected token {token}"
    | none => return none

/-- Grabs the next identifier, or errors if not found. -/
def nextIdent : Parser String := do
  match ← next with
  | .ident name => return name
  | token => fail s!"Expected identifier, got {token}"

/-- Grabs the next lexer token if it satisfies the predicate function. -/
def nextIf (predicate : Token → Bool) : Parser (Option Token) := do
  match (← peekToken).filter predicate with
  | some _ => return some (← next)
  | none => return none

/-- Grabs the next lexer token if it is a given token. -/
def nextIfToken (token : Token) : Parser (Option Token) := nextIf fun other => other = token

/-- An operator, to help with parsing of operators. -/
class Operator (O : Type) where
  /-- Looks up the corresponding operator for a token, if one exists. -/
  ofToken : Token → Option O
  /-- Augments an operator by allowing it to parse any modifiers. -/
  augment : O → Parser O
  /-- Returns the operator's associativity. -/
  assoc : O → Nat
  /-- Returns the operator's precedence. -/
  prec : O → Nat

/-- Grabs the next operator if it satisfies the type and precedence. -/
def nextIfOperator (O : Type) [Operator O] (minPrec : Nat) : Parser (Option O) := do
  match ((← peekToken).bind Operator.ofToken).filter fun operator : O =>
      minPrec ≤ Operator.prec operator with
  | some operator => do
    let _ ← next
    return some (← Operator.augment operator)
  | none => return none

def assocLeft : Nat := 1
def assocRight : Nat := 0

/-- Prefix operators. -/
inductive PrefixOperator where
  | minus
  | not
  | plus

namespace PrefixOperator

def build : PrefixOperator → Expression → Expression
  | plus => .unary .assert
  | minus => .unary .negate
  | not => .unary .not

def ofToken : Token → Option PrefixOperator
  | .keyword .not => some not
  | .minus => some minus
  | .plus => some plus
  | _ => none

instance : Operator PrefixOperator where
  ofToken := ofToken
  augment operator := return operator
  assoc _ := assocRight
  prec _ := 9

end PrefixOperator

/-- Infix operators. -/
inductive InfixOperator where
  | add | and | divide | equal | exponentiate | greaterThan | greaterThanOrEqual | lessThan
  | lessThanOrEqual | like | modulo | multiply | notEqual | or | subtract

namespace InfixOperator

/-- The operation of an infix operator. -/
def operation : InfixOperator → BinaryOperation
  | add => .add
  | and => .and
  | divide => .divide
  | equal => .equal
  | exponentiate => .exponentiate
  | greaterThan => .greaterThan
  | greaterThanOrEqual => .greaterThanOrEqual
  | lessThan => .lessThan
  | lessThanOrEqual => .lessThanOrEqual
  | like => .like
  | modulo => .modulo
  | multiply => .multiply
  | notEqual => .notEqual
  | or => .or
  | subtract => .subtract

def build (operator : InfixOperator) (lhs rhs : Expression) : Expression :=
  .binary operator.operation lhs rhs

def ofToken : Token → Option InfixOperator
  | .asterisk => some multiply
  | .caret => some exponentiate
  | .equal => some equal
  | .greaterThan => some greaterThan
  | .greaterThanOrEqual => some greaterThanOrEqual
  | .keyword .and => some and
  | .keyword .like => some like
  | .keyword .or => some or
  | .lessOrGreaterThan => some notEqual
  | .lessThan => some lessThan
  | .lessThanOrEqual => some lessThanOrEqual
  | .minus => some subtract
  | .notEqual => some notEqual
  | .percent => some modulo
  | .plus => some add
  | .slash => some divide
  | _ => none

def assoc : InfixOperator → Nat
  | exponentiate => assocRight
  | _ => assocLeft

def prec : InfixOperator → Nat
  | or => 1
  | and => 2
  | equal | notEqual | like => 3
  | greaterThan | greaterThanOrEqual | lessThan | lessThanOrEqual => 4
  | add | subtract => 5
  | multiply | divide | modulo => 6
  | exponentiate => 7

instance : Operator InfixOperator where
  ofToken := ofToken
  augment operator := return operator
  assoc := assoc
  prec := prec

end InfixOperator

/-- Postfix operators. -/
inductive PostfixOperator where
  | factorial
  | isNull (not : Bool)

namespace PostfixOperator

def build : PostfixOperator → Expression → Expression
  | isNull true, lhs => .unary .not (.unary .isNull lhs)
  | isNull false, lhs => .unary .isNull lhs
  | factorial, lhs => .unary .factorial lhs

def ofToken : Token → Option PostfixOperator
  | .exclamation => some factorial
  | .keyword .is => some (isNull false)
  | _ => none

def augment : PostfixOperator → Parser PostfixOperator
  | isNull not => do
    let not := not || (← nextIfToken Keyword.not).isSome
    let _ ← nextExpect (some Keyword.null)
    return isNull not
  | operator => return operator

instance : Operator PostfixOperator where
  ofToken := ofToken
  augment := augment
  assoc _ := assocLeft
  prec _ := 8

end PostfixOperator

/-- The literal of a number token: an integer if it has only digits. -/
def literalOfNumber (text : String) : Parser Expression :=
  if text.toList.all Char.isDigit then
    let number := Binary64.ofDigits text.toList
    if text = "" then fail "cannot parse integer from empty string"
    else if (number : Int) ≤ Int64.maxValue.toInt then
      return .literal (.integer (Int64.ofNat number))
    else fail "number too large to fit in target type"
  else
    match Binary64.ofText? text.toList with
    | some number => return .literal (.float number)
    | none => fail "invalid float literal"

/-- Positive infinity. -/
def infinity : Binary64 := .ofMagnitude false Binary64.infinite

/-- The number that is not a number. -/
def nan : Binary64 := .ofMagnitude false (Binary64.infinite + 2 ^ 51)

/-- Parses any number of postfix operators behind an expression. -/
def parsePostfixOperators : Nat → Nat → Expression → Parser Expression
  | 0, _, _ => throw (.panic "stack overflow")
  | depth + 1, minPrec, lhs => do
    match ← nextIfOperator PostfixOperator minPrec with
    | some operator => parsePostfixOperators depth minPrec (operator.build lhs)
    | none => return lhs

mutual

/-- Parses an expression consisting of at least one atom operated on by any number of operators,
using the precedence climbing algorithm, up to a depth. -/
def parseExpressionWithin : Nat → Nat → Parser Expression
  | 0, _ => throw (.panic "stack overflow")
  | depth + 1, minPrec => do
    let lhs ← match ← nextIfOperator PrefixOperator minPrec with
      | some operator => do
        let rhs ← parseExpressionWithin depth (Operator.prec operator + Operator.assoc operator)
        pure (operator.build rhs)
      | none => parseExpressionAtom depth
    let lhs ← parsePostfixOperators depth minPrec lhs
    parseInfixOperators depth minPrec lhs

/-- Parses any number of infix operators, with their right operands, behind an expression. -/
def parseInfixOperators : Nat → Nat → Expression → Parser Expression
  | 0, _, _ => throw (.panic "stack overflow")
  | depth + 1, minPrec, lhs => do
    match ← nextIfOperator InfixOperator minPrec with
    | some operator => do
      let rhs ← parseExpressionWithin depth (Operator.prec operator + Operator.assoc operator)
      parseInfixOperators depth minPrec (operator.build lhs rhs)
    | none => return lhs

/-- Parses an expression atom. -/
def parseExpressionAtom : Nat → Parser Expression
  | 0 => throw (.panic "stack overflow")
  | depth + 1 => do
    match ← next with
    | .ident name =>
      if (← nextIfToken .openParen).isSome then
        return .function name (← parseArguments depth name [])
      else if (← nextIfToken .period).isSome then
        return .field (some name) (← nextIdent)
      else
        return .field none name
    | .number text => literalOfNumber text
    | .openParen => do
      let expression ← parseExpressionWithin depth 0
      let _ ← nextExpect (some .closeParen)
      return expression
    | .string text => return .literal (.string text)
    | .keyword .false => return .literal (.boolean false)
    | .keyword .infinity => return .literal (.float infinity)
    | .keyword .nan => return .literal (.float nan)
    | .keyword .null => return .literal .null
    | .keyword .true => return .literal (.boolean true)
    | token => fail s!"Expected expression atom, found {token}"

/-- Parses the arguments of a function, up to the closing parenthesis. -/
def parseArguments : Nat → String → List Expression → Parser (List Expression)
  | 0, _, _ => throw (.panic "stack overflow")
  | depth + 1, name, arguments => do
    if (← nextIfToken .closeParen).isSome then
      return arguments
    else
      if !arguments.isEmpty then
        let _ ← nextExpect (some .comma)
      -- COUNT(*) counts a constant.
      let star ← if name = "count" then nextIfToken .asterisk else pure none
      let argument ← match star with
        | some _ => pure (.literal (.boolean true))
        | none => parseExpressionWithin depth 0
      parseArguments depth name (arguments ++ [argument])

end

/-- Parses an expression. -/
def parseExpression (minPrec : Nat) : Parser Expression := fun tokens =>
  parseExpressionWithin (2 * tokens.length + 2) minPrec tokens

end Parser

end Radb.Sql
