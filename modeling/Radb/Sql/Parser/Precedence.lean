import Radb.Sql.Parser.Expression

/-! # Operator precedence

Expression trees are written out with parentheses only where the documented precedence and
associativity of operators require them. Such a text is parsed into the tree it was written from.

An operator binds its operands by the level it is documented at. What is written with an outermost
operator of some precedence is parsed in one go, and leaves the parser at the loops that look for
further operators.
-/

namespace Radb.Sql

open Foundation Ast

variable {value : Value} {least higher depth total precedence : Nat} {former : List Expression}

namespace Ast

/-- The side on which operators of the same precedence are grouped. -/
inductive Associativity where
  | left
  | right

/-- A row of the documented table of operators. -/
structure Level where
  precedence : Nat
  associativity : Associativity

namespace Level

/-- The least precedence of a left operand without parentheses. -/
def leftOperand (level : Level) : Nat :=
  match level.associativity with
  | .left => level.precedence
  | .right => level.precedence + 1

/-- The least precedence of a right operand without parentheses. -/
def rightOperand (level : Level) : Nat :=
  match level.associativity with
  | .left => level.precedence + 1
  | .right => level.precedence

end Level

/-- The level of operators in front of their operand. -/
def prefixLevel : Level := ⟨9, .right⟩

/-- The level of operators behind their operand. -/
def postfixLevel : Level := ⟨8, .left⟩

/-- The level of operators between their operands. -/
def BinaryOperation.level : BinaryOperation → Level
  | exponentiate => ⟨7, .right⟩
  | multiply | divide | modulo => ⟨6, .left⟩
  | add | subtract => ⟨5, .left⟩
  | greaterThan | greaterThanOrEqual | lessThan | lessThanOrEqual => ⟨4, .left⟩
  | equal | notEqual | like => ⟨3, .left⟩
  | and => ⟨2, .left⟩
  | or => ⟨1, .left⟩

/-- The tokens that stand for an operation between its operands. -/
def BinaryOperation.symbols : BinaryOperation → List Token
  | exponentiate => [.caret]
  | multiply => [.asterisk]
  | divide => [.slash]
  | modulo => [.percent]
  | add => [.plus]
  | subtract => [.minus]
  | greaterThan => [.greaterThan]
  | greaterThanOrEqual => [.greaterThanOrEqual]
  | lessThan => [.lessThan]
  | lessThanOrEqual => [.lessThanOrEqual]
  | equal => [.equal]
  | notEqual => [.notEqual, .lessOrGreaterThan]
  | like => [Keyword.like]
  | and => [Keyword.and]
  | or => [Keyword.or]

/-- The token of an operation in front of its operand. -/
def UnaryOperation.sign : UnaryOperation → Option Token
  | assert => some .plus
  | negate => some .minus
  | not => some Keyword.not
  | _ => none

/-- The tokens of an operation behind its operand. -/
def UnaryOperation.suffix : UnaryOperation → Option (List Token)
  | factorial => some [.exclamation]
  | isNull => some [Keyword.is, Keyword.null]
  | _ => none

/-- A token that writes a literal. -/
inductive Spells : Token → Value → Prop where
  | null : Spells Keyword.null .null
  | true : Spells Keyword.true (.boolean true)
  | false : Spells Keyword.false (.boolean false)
  | infinity : Spells Keyword.infinity (.float Parser.infinity)
  | nan : Spells Keyword.nan (.float Parser.nan)
  | string (text : String) : Spells (.string text) (.string text)
  | integer {text : String} {number : Int64} (some : text ≠ "")
      (digits : text.toList.all Char.isDigit = true)
      (value : (Binary64.ofDigits text.toList : Int) = number.toInt) :
      Spells (.number text) (.integer number)
  | float {text : String} {number : Binary64} (mixed : text.toList.all Char.isDigit = false)
      (value : Binary64.ofText? text.toList = some number) : Spells (.number text) (.float number)

/-- Put parentheses around what is written with too low a precedence. -/
def enclosed (least precedence : Nat) (tokens : List Token) : List Token :=
  if least ≤ precedence then tokens else .openParen :: (tokens ++ [.closeParen])

/-- What is written with the given outermost precedence, as an argument of a function. -/
structure Written.Argument where
  precedence : Nat
  expression : Expression
  tokens : List Token

/-- The tokens that an expression is written as, and the precedence of the outermost operator.
Without an operator, an expression binds more tightly than any operator does. -/
inductive Written : Nat → Expression → List Token → Prop where
  | field (name : String) : Written 10 (.field none name) [.ident name]
  | qualified (table name : String) :
      Written 10 (.field (some table) name) [.ident table, .period, .ident name]
  | literal {token : Token} {value : Value} (spells : Spells token value) :
      Written 10 (.literal value) [token]
  | function (name : String) (arguments : List Written.Argument)
      (each : ∀ argument ∈ arguments,
        Written argument.precedence argument.expression argument.tokens) :
      Written 10 (.function name (arguments.map (·.expression)))
        (.ident name :: .openParen ::
          ([Token.comma].intercalate (arguments.map (·.tokens)) ++ [.closeParen]))
  | sign {operation : UnaryOperation} {token : Token} {precedence : Nat} {operand : Expression}
      {tokens : List Token} (symbol : operation.sign = some token)
      (written : Written precedence operand tokens) :
      Written prefixLevel.precedence (.unary operation operand)
        (token :: enclosed prefixLevel.rightOperand precedence tokens)
  | suffix {operation : UnaryOperation} {symbols : List Token} {precedence : Nat}
      {operand : Expression} {tokens : List Token} (symbol : operation.suffix = some symbols)
      (written : Written precedence operand tokens) :
      Written postfixLevel.precedence (.unary operation operand)
        (enclosed postfixLevel.leftOperand precedence tokens ++ symbols)
  | isNotNull {precedence : Nat} {operand : Expression} {tokens : List Token}
      (written : Written precedence operand tokens) :
      Written postfixLevel.precedence (.unary .not (.unary .isNull operand))
        (enclosed postfixLevel.leftOperand precedence tokens ++
          [(Keyword.is : Token), Keyword.not, Keyword.null])
  | binary {operation : BinaryOperation} {token : Token} {leftPrecedence rightPrecedence : Nat}
      {left right : Expression} {leftTokens rightTokens : List Token}
      (symbol : token ∈ operation.symbols) (leftWritten : Written leftPrecedence left leftTokens)
      (rightWritten : Written rightPrecedence right rightTokens) :
      Written operation.level.precedence (.binary operation left right)
        (enclosed operation.level.leftOperand leftPrecedence leftTokens ++
          token :: enclosed operation.level.rightOperand rightPrecedence rightTokens)

/-- A literal that can be written: a number without a sign, a string or a keyword. -/
def Literal.Writable : Value → Prop
  | .integer number => 0 ≤ number.toInt
  | .float number => number = Parser.infinity ∨ number = Parser.nan ∨
      number.isNegative = false ∧ number.magnitude < Binary64.infinite
  | _ => True

/-- An expression that can be written. -/
inductive Expression.Writable : Expression → Prop where
  | field (table : Option String) (name : String) : Writable (.field table name)
  | literal {value : Value} (writable : Literal.Writable value) : Writable (.literal value)
  | function (name : String) {arguments : List Expression}
      (each : ∀ argument ∈ arguments, Writable argument) : Writable (.function name arguments)
  | unary (operation : UnaryOperation) {operand : Expression} (writable : Writable operand) :
      Writable (.unary operation operand)
  | binary (operation : BinaryOperation) {left right : Expression} (leftWritable : Writable left)
      (rightWritable : Writable right) : Writable (.binary operation left right)

/-- Every literal without a sign has a token. -/
theorem exists_spells (writable : Literal.Writable value) :
    ∃ token, Spells token value := by
  cases value with
  | null => exact ⟨_, .null⟩
  | boolean value => cases value with
    | false => exact ⟨_, .false⟩
    | true => exact ⟨_, .true⟩
  | integer number =>
    refine ⟨.number (String.ofList (Nat.toDigits 10 number.toInt.toNat)), .integer ?_ ?_ ?_⟩
    · intro empty
      have := congrArg String.toList empty
      simp [Nat.toDigits_ne_nil] at this
    · simp only [String.toList_ofList, List.all_eq_true]
      exact fun char inside => Nat.isDigit_of_mem_toDigits (by decide) (by decide) inside
    · simp only [String.toList_ofList, Nat.ofDigitChars_ten_toDigits]
      exact Int.toNat_of_nonneg writable
  | float number =>
    obtain rfl | rfl | ⟨positive, finite⟩ := writable
    · exact ⟨_, .infinity⟩
    · exact ⟨_, .nan⟩
    · exact ⟨.number (String.ofList (Binary64.numeral number.magnitude)),
        .float (by simpa using Binary64.all_isDigit_numeral _)
          (by simpa using Binary64.ofText?_numeral finite positive)⟩
  | string text => exact ⟨_, .string text⟩

theorem exists_written {tree : Expression} (writable : tree.Writable) :
    ∃ precedence tokens, Written precedence tree tokens := by
  induction writable with
  | field table name =>
    cases table with
    | none => exact ⟨_, _, .field name⟩
    | some table => exact ⟨_, _, .qualified table name⟩
  | literal writable =>
    obtain ⟨token, spells⟩ := exists_spells writable
    exact ⟨_, _, .literal spells⟩
  | @function name arguments each ih =>
    have chosen : ∃ written : List Written.Argument,
        written.map (·.expression) = arguments ∧ ∀ argument ∈ written,
          Written argument.precedence argument.expression argument.tokens := by
      clear each
      induction arguments with
      | nil => exact ⟨[], rfl, by simp⟩
      | cons first rest restIh =>
        obtain ⟨precedence, tokens, written⟩ := ih first (by simp)
        obtain ⟨others, same, each⟩ :=
          restIh fun argument inside => ih argument (List.mem_cons_of_mem _ inside)
        refine ⟨⟨precedence, first, tokens⟩ :: others, by simp [same], ?_⟩
        simpa using ⟨written, each⟩
    obtain ⟨written, rfl, all⟩ := chosen
    exact ⟨_, _, .function name written all⟩
  | unary operation writable ih =>
    obtain ⟨precedence, tokens, written⟩ := ih
    cases operation with
    | not | assert | negate => exact ⟨_, _, .sign rfl written⟩
    | isNull | factorial => exact ⟨_, _, .suffix rfl written⟩
  | binary operation leftWritable rightWritable leftIh rightIh =>
    obtain ⟨leftPrecedence, leftTokens, left⟩ := leftIh
    obtain ⟨rightPrecedence, rightTokens, right⟩ := rightIh
    obtain ⟨token, symbol⟩ : ∃ token, token ∈ operation.symbols := by
      cases operation <;> exact ⟨_, List.mem_cons_self⟩
    exact ⟨_, _, .binary symbol left right⟩

end Ast

namespace Parser

variable {rest : Tokens} {tree : Expression} {arguments : List Written.Argument}
  {operation : BinaryOperation}

section Steps

variable {α β : Type} {tokens rest : Tokens}

theorem bind_of_ok {first : Parser α} {value : α} (run : first tokens = .ok (value, rest))
    (then_ : α → Parser β) : (first >>= then_) tokens = then_ value rest := by
  simp only [bind, StateT.bind, run, Except.bind]

/-- The next token, unless the lexer has stopped. -/
def ahead (tokens : Tokens) : Option Token := tokens.head?.bind Except.toOption

theorem peekToken_eq (tokens : Tokens) : peekToken tokens =
    .ok (ahead tokens, tokens) := by
  cases tokens with
  | nil => rfl
  | cons first rest => cases first <;> rfl

@[simp] theorem ahead_nil : ahead [] = none := rfl

@[simp] theorem ahead_cons (token : Token) (rest : Tokens) :
    ahead (.ok token :: rest) = some token := rfl

theorem nextIfToken_same (token : Token) (rest : Tokens) :
    nextIfToken token (.ok token :: rest) = .ok (some token, rest) := by
  rw [nextIfToken, nextIf, bind_of_ok (peekToken_eq _)]
  simp only [ahead_cons, Option.filter_some, decide_true, ↓reduceIte]
  rfl

theorem nextIfToken_other {token : Token} (other : ahead tokens ≠ some token) :
    nextIfToken token tokens = .ok (none, tokens) := by
  have absent : (ahead tokens).filter (fun found => decide (found = token)) = none := by
    cases found : ahead tokens with
    | none => rfl
    | some found' =>
      have : found' ≠ token := fun same => other (found.trans (congrArg some same))
      simp [Option.filter_some, this]
  rw [nextIfToken, nextIf, bind_of_ok (peekToken_eq _)]
  rw [absent]
  rfl

theorem nextExpect_same (token : Token) (rest : Tokens) :
    nextExpect (some token) (.ok token :: rest) = .ok (some token, rest) := by
  rw [nextExpect, bind_of_ok (show next (.ok token :: rest) = .ok (token, rest) from rfl)]
  simp only [↓reduceIte]
  rfl

variable {O : Type} [Operator O] {least : Nat}

/-- A token that is no operator of enough precedence is left in place. -/
theorem nextIfOperator_none
    (weak : ∀ token operator, ahead tokens = some token →
      Operator.ofToken token = some (operator : O) → Operator.prec operator < least) :
    nextIfOperator O least tokens = .ok (none, tokens) := by
  have absent : ((ahead tokens).bind Operator.ofToken).filter
      (fun operator : O => decide (least ≤ Operator.prec operator)) = none := by
    cases found : ahead tokens with
    | none => rfl
    | some token =>
      cases known : (Operator.ofToken token : Option O) with
      | none => simp [known]
      | some operator => simp [known, Option.filter_some, weak token operator found known]
  rw [nextIfOperator, bind_of_ok (peekToken_eq _)]
  rw [absent]
  rfl

/-- An operator of enough precedence is taken, with its modifiers. -/
theorem nextIfOperator_some {token : Token} {operator augmented : O} {after : Tokens}
    (known : Operator.ofToken token = some operator) (strong : least ≤ Operator.prec operator)
    (modifiers : Operator.augment operator rest = .ok (augmented, after)) :
    nextIfOperator O least (.ok token :: rest) = .ok (some augmented, after) := by
  have present : ((ahead (.ok token :: rest)).bind Operator.ofToken).filter
      (fun operator : O => decide (least ≤ Operator.prec operator)) = some operator := by
    simp [known, Option.filter_some, strong]
  rw [nextIfOperator, bind_of_ok (peekToken_eq _)]
  rw [present]
  dsimp only
  rw [bind_of_ok (show next (.ok token :: rest) = .ok (token, rest) from rfl),
    bind_of_ok modifiers]
  rfl

end Steps

/-- The loops that look for operators behind an expression. -/
def parseOperators (postfixDepth infixDepth least : Nat) (lhs : Expression) :
    Parser Expression := do
  let lhs ← parsePostfixOperators postfixDepth least lhs
  parseInfixOperators infixDepth least lhs

/-- The token ahead does not turn a name into a function or a relation. -/
def Separate (rest : Tokens) : Prop :=
  ahead rest ≠ some .openParen ∧ ahead rest ≠ some .period

/-- The token ahead is no operator that takes a left operand at the given level. -/
structure Stops (least : Nat) (rest : Tokens) : Prop where
  suffix : ∀ token operator, ahead rest = some token →
    PostfixOperator.ofToken token = some operator → 8 < least
  binary : ∀ token operator, ahead rest = some token →
    InfixOperator.ofToken token = some operator → operator.prec < least

theorem Stops.mono (stops : Stops least rest) (below : least ≤ higher) :
    Stops higher rest where
  suffix token operator found known := (stops.suffix token operator found known).trans_le below
  binary token operator found known := (stops.binary token operator found known).trans_le below

theorem parsePostfixOperators_stops (weak : ∀ token operator, ahead rest = some token →
      PostfixOperator.ofToken token = some operator → 8 < least) (some : 1 ≤ depth)
    (lhs : Expression) : parsePostfixOperators depth least lhs rest = .ok (lhs, rest) := by
  obtain ⟨depth, rfl⟩ := Nat.exists_eq_add_of_le' some
  rw [parsePostfixOperators, bind_of_ok (nextIfOperator_none weak)]
  rfl

theorem parseInfixOperators_stops (stops : Stops least rest) (some : 1 ≤ depth) (lhs : Expression) :
    parseInfixOperators depth least lhs rest = .ok (lhs, rest) := by
  obtain ⟨depth, rfl⟩ := Nat.exists_eq_add_of_le' some
  rw [parseInfixOperators, bind_of_ok (nextIfOperator_none stops.binary)]
  rfl

/-- The least precedence of the last operand of an infix operator. -/
def closing (precedence : Nat) : Nat := if precedence = 7 then 7 else precedence + 1

/-- Parsing what is written for an expression comes to the loop for postfix operators. -/
def Tight (precedence : Nat) (tree : Expression) (tokens : List Token) : Prop :=
  ∀ least ≤ precedence, ∀ rest, Separate rest → ∀ depth result,
    (∀ first ≥ depth, ∀ second ≥ depth, parseOperators first second least tree rest = result) →
    ∀ total ≥ depth + 2 * tokens.length,
      parseExpressionWithin total least (tokens.map .ok ++ rest) = result

/-- Parsing what is written for an expression comes to the loop for infix operators, unless the
token ahead belongs to its last operand. -/
def Loose (precedence : Nat) (tree : Expression) (tokens : List Token) : Prop :=
  ∀ least ≤ precedence, ∀ rest, Separate rest → Stops (closing precedence) rest →
    ∀ depth result, (∀ first ≥ depth, parseInfixOperators first least tree rest = result) →
    ∀ total ≥ depth + 2 * tokens.length,
      parseExpressionWithin total least (tokens.map .ok ++ rest) = result

/-- What is written for an expression is parsed as that expression, as far as the loop for the
operators that may follow it. -/
structure Parses (precedence : Nat) (tree : Expression) (tokens : List Token) : Prop where
  tight : 8 ≤ precedence → Tight precedence tree tokens
  loose : precedence < 8 → Loose precedence tree tokens
  starts : ∃ token rest, tokens = token :: rest ∧ token ≠ .closeParen ∧ token ≠ .asterisk

namespace Parses

variable {precedence least depth : Nat} {tree : Expression} {tokens : List Token} {rest : Tokens}

theorem parse_infix (parses : Parses precedence tree tokens) (allowed : least ≤ precedence)
    (separate : Separate rest) (outside : precedence < 8 → Stops (closing precedence) rest)
    (noSuffix : ∀ token operator, ahead rest = some token →
      PostfixOperator.ofToken token = some operator → 8 < least) (some : 1 ≤ depth)
    {result : Except Fault (Expression × Tokens)}
    (continued : ∀ first ≥ depth, parseInfixOperators first least tree rest = result)
    (enough : depth + 2 * tokens.length ≤ total) :
    parseExpressionWithin total least (tokens.map .ok ++ rest) = result := by
  by_cases bound : 8 ≤ precedence
  · refine parses.tight bound least allowed rest separate depth result ?_ total enough
    intro first firstEnough second secondEnough
    rw [parseOperators,
      bind_of_ok (parsePostfixOperators_stops noSuffix (some.trans firstEnough) tree)]
    exact continued second secondEnough
  · have low : precedence < 8 := by omega
    exact parses.loose low least allowed rest separate (outside low) depth result continued total
      enough

theorem le_closing (precedence : Nat) : precedence ≤ closing precedence := by
  unfold closing
  split <;> omega

theorem complete (parses : Parses precedence tree tokens) (allowed : least ≤ precedence)
    (separate : Separate rest) (stops : Stops least rest) (enough : 1 + 2 * tokens.length ≤ total) :
    parseExpressionWithin total least (tokens.map .ok ++ rest) = .ok (tree, rest) :=
  parses.parse_infix allowed separate
    (fun _ => stops.mono (allowed.trans (le_closing precedence))) stops.suffix le_rfl
    (fun _ enough => parseInfixOperators_stops stops enough tree) enough

end Parses

theorem tight_of_atom {token : Token} {others : List Token}
    (plain : PrefixOperator.ofToken token = none)
    (atom : ∀ rest, Separate rest → ∀ depth ≥ 2 * others.length + 1,
      parseExpressionAtom depth (.ok token :: (others.map .ok ++ rest)) = .ok (tree, rest)) :
    Tight precedence tree (token :: others) := by
  intro least allowed rest separate depth result continued total enough
  rw [List.length_cons] at enough
  obtain ⟨total, rfl⟩ : ∃ smaller, total = smaller + 1 := ⟨total - 1, by omega⟩
  have noSign : nextIfOperator PrefixOperator least (.ok token :: (others.map .ok ++ rest)) =
      .ok (none, .ok token :: (others.map .ok ++ rest)) := by
    apply nextIfOperator_none
    intro other operator found known
    cases found
    rw [show (Operator.ofToken token : Option PrefixOperator) = none from plain] at known
    cases known
  rw [List.map_cons, List.cons_append, parseExpressionWithin, bind_of_ok noSign]
  dsimp only
  rw [bind_of_ok (atom rest separate total (by omega))]
  exact continued total (by omega) total (by omega)

theorem separate_cons {token : Token} (noCall : token ≠ .openParen) (noRelation : token ≠ .period) :
    Separate (.ok token :: rest) :=
  ⟨fun found => noCall (Option.some.inj found), fun found => noRelation (Option.some.inj found)⟩

theorem stops_cons {token : Token} (noSuffix : PostfixOperator.ofToken token = none)
    (noInfix : InfixOperator.ofToken token = none) : Stops least (.ok token :: rest) where
  suffix other operator found known := by
    cases found
    rw [noSuffix] at known
    cases known
  binary other operator found known := by
    cases found
    rw [noInfix] at known
    cases known

namespace Parses

variable {precedence : Nat} {tree : Expression} {tokens : List Token}

theorem parenthesised (parses : Parses precedence tree tokens) :
    Parses 10 tree (.openParen :: (tokens ++ [.closeParen])) where
  tight _ := by
    apply tight_of_atom rfl
    intro rest separate depth enough
    rw [List.length_append, List.length_singleton] at enough
    obtain ⟨depth, rfl⟩ : ∃ smaller, depth = smaller + 1 := ⟨depth - 1, by omega⟩
    have inside : parseExpressionWithin depth 0
        (tokens.map .ok ++ .ok .closeParen :: rest) = .ok (tree, .ok .closeParen :: rest) :=
      parses.complete (Nat.zero_le _) (separate_cons (by decide) (by decide))
        (stops_cons rfl rfl) (by omega)
    rw [List.map_append, List.append_assoc, parseExpressionAtom,
      bind_of_ok (show next (.ok .openParen :: _) = .ok (.openParen, _) from rfl)]
    dsimp only
    rw [List.map_singleton, List.singleton_append, bind_of_ok inside,
      bind_of_ok (nextExpect_same _ _)]
    rfl
  loose low := absurd low (by decide)
  starts := ⟨_, _, rfl, by decide, by decide⟩

/-- An operand is parsed with a precedence that is at least the one it needs. -/
theorem enclosed (parses : Parses precedence tree tokens) (least : Nat) :
    ∃ higher ≥ min least 10, Parses higher tree (enclosed least precedence tokens) := by
  unfold Ast.enclosed
  split
  · exact ⟨precedence, by omega, parses⟩
  · exact ⟨10, by omega, parses.parenthesised⟩

theorem single {token : Token} (plain : PrefixOperator.ofToken token = none)
    (opens : token ≠ .closeParen) (symbol : token ≠ .asterisk)
    (atom : ∀ rest, Separate rest → ∀ depth,
      parseExpressionAtom (depth + 1) (.ok token :: rest) = .ok (tree, rest)) :
    Parses 10 tree [token] where
  tight _ := by
    apply tight_of_atom plain
    intro rest separate depth enough
    obtain ⟨depth, rfl⟩ : ∃ smaller, depth = smaller + 1 := ⟨depth - 1, by omega⟩
    exact atom rest separate depth
  loose low := absurd low (by decide)
  starts := ⟨token, [], rfl, opens, symbol⟩

end Parses

theorem parses_field (name : String) : Parses 10 (.field none name) [.ident name] := by
  apply Parses.single rfl Token.noConfusion Token.noConfusion
  intro rest separate depth
  rw [parseExpressionAtom, bind_of_ok (show next (.ok _ :: rest) = .ok (_, rest) from rfl)]
  dsimp only
  rw [bind_of_ok (nextIfToken_other separate.1)]
  simp only [Option.isSome_none, Bool.false_eq_true, ↓reduceIte]
  rw [bind_of_ok (nextIfToken_other separate.2)]
  rfl

theorem parses_qualified (table name : String) :
    Parses 10 (.field (some table) name) [.ident table, .period, .ident name] where
  tight _ := by
    apply tight_of_atom rfl
    intro rest separate depth enough
    obtain ⟨depth, rfl⟩ : ∃ smaller, depth = smaller + 1 := ⟨depth - 1, by omega⟩
    have noCall : ahead (.ok .period :: .ok (.ident name) :: rest) ≠ some .openParen := by simp
    rw [parseExpressionAtom]
    simp only [List.map_cons, List.map_nil, List.cons_append, List.nil_append]
    rw [bind_of_ok (show next (.ok _ :: _) = .ok (_, _) from rfl)]
    dsimp only
    rw [bind_of_ok (nextIfToken_other noCall)]
    simp only [Option.isSome_none, Bool.false_eq_true, ↓reduceIte]
    rw [bind_of_ok (nextIfToken_same _ _)]
    rfl
  loose low := absurd low (by decide)
  starts := ⟨_, _, rfl, Token.noConfusion, Token.noConfusion⟩

theorem literalOfNumber_integer {text : String} {number : Int64} (some : text ≠ "")
    (digits : text.toList.all Char.isDigit = true)
    (value : (Binary64.ofDigits text.toList : Int) = number.toInt) (rest : Tokens) :
    literalOfNumber text rest = .ok (.literal (.integer number), rest) := by
  have bound := number.toInt_le
  have same : Int64.ofNat (Binary64.ofDigits text.toList) = number := by
    rw [← Int64.ofInt_toInt number, ← value]
    rfl
  rw [literalOfNumber, if_pos digits, if_neg some, if_pos (by omega), same]
  rfl

theorem parses_literal {token : Token} (spells : Spells token value) :
    Parses 10 (.literal value) [token] := by
  cases spells with
  | integer some digits value =>
    apply Parses.single rfl Token.noConfusion Token.noConfusion
    intro rest separate depth
    rw [parseExpressionAtom, bind_of_ok (show next (.ok _ :: rest) = .ok (_, rest) from rfl)]
    exact literalOfNumber_integer some digits value rest
  | float mixed value =>
    apply Parses.single rfl Token.noConfusion Token.noConfusion
    intro rest separate depth
    rw [parseExpressionAtom, bind_of_ok (show next (.ok _ :: rest) = .ok (_, rest) from rfl)]
    dsimp only
    rw [literalOfNumber, mixed, value]
    rfl
  | _ =>
    apply Parses.single rfl Token.noConfusion Token.noConfusion
    intro rest separate depth
    rw [parseExpressionAtom]
    rfl

section Arguments

variable {name : String} {depth : Nat}

theorem parseArguments_next {tokens : List Token} (parses : Parses precedence tree tokens)
    {before : Tokens} (separate : Separate rest) (stops : Stops 0 rest)
    (enough : 1 + 2 * tokens.length ≤ depth) (open_ : ahead before ≠ some .closeParen)
    (comma : before = if former.isEmpty then tokens.map .ok ++ rest
      else .ok .comma :: (tokens.map .ok ++ rest)) :
    parseArguments (depth + 1) name former before =
      parseArguments depth name (former ++ [tree]) rest := by
  have noStar : ahead (tokens.map .ok ++ rest) ≠ some .asterisk := by
    obtain ⟨token, others, rfl, _, symbol⟩ := parses.starts
    simpa using symbol
  have parsed := parses.complete (Nat.zero_le _) separate stops enough
  rw [parseArguments, bind_of_ok (nextIfToken_other open_)]
  simp only [Option.isSome_none, Bool.false_eq_true, ↓reduceIte, pure_bind]
  cases former with
  | nil =>
    simp only [List.isEmpty_nil, ↓reduceIte] at comma
    simp only [List.isEmpty_nil, Bool.not_true, Bool.false_eq_true, ↓reduceIte, comma]
    split
    · rw [bind_of_ok (nextIfToken_other noStar)]
      exact bind_of_ok parsed _
    · exact bind_of_ok parsed _
  | cons first others =>
    simp only [List.isEmpty_cons, Bool.false_eq_true, ↓reduceIte] at comma
    simp only [List.isEmpty_cons, Bool.not_false, ↓reduceIte, comma]
    rw [bind_of_ok (nextExpect_same _ _)]
    split
    · rw [bind_of_ok (nextIfToken_other noStar)]
      exact bind_of_ok parsed _
    · exact bind_of_ok parsed _

/-- The tokens of further arguments, each behind a comma. -/
abbrev further (arguments : List Written.Argument) : List Token :=
  arguments.flatMap fun argument => .comma :: argument.tokens

theorem intercalate_arguments (first : Written.Argument) (others : List Written.Argument) :
    [Token.comma].intercalate ((first :: others).map (·.tokens)) =
      first.tokens ++ further others := by
  induction others generalizing first with
  | nil => simp [List.intercalate, further]
  | cons second others ih =>
    have := ih second
    simp only [List.intercalate, List.map_cons, further, List.flatMap_cons] at this ⊢
    simp [List.intersperse, this]

/-- Behind an argument there is a comma or the closing parenthesis. -/
theorem exists_further (arguments : List Written.Argument) (rest : Tokens) :
    ∃ token tokens, (further arguments).map .ok ++ .ok .closeParen :: rest = .ok token :: tokens ∧
      (token = .comma ∨ token = .closeParen) := by
  cases arguments with
  | nil => exact ⟨_, _, rfl, .inr rfl⟩
  | cons first others => exact ⟨_, _, rfl, .inl rfl⟩

theorem separate_further (arguments : List Written.Argument) (rest : Tokens) :
    Separate ((further arguments).map .ok ++ .ok .closeParen :: rest) := by
  obtain ⟨token, tokens, same, rfl | rfl⟩ := exists_further arguments rest <;> rw [same]
  · exact separate_cons (by decide) (by decide)
  · exact separate_cons (by decide) (by decide)

theorem stops_further (arguments : List Written.Argument) (rest : Tokens) :
    Stops 0 ((further arguments).map .ok ++ .ok .closeParen :: rest) := by
  obtain ⟨token, tokens, same, rfl | rfl⟩ := exists_further arguments rest <;> rw [same]
  · exact stops_cons rfl rfl
  · exact stops_cons rfl rfl

theorem parseArguments_further (each : ∀ argument ∈ arguments,
      Parses argument.precedence argument.expression argument.tokens) (some : former ≠ [])
    (enough : 1 + 2 * (further arguments).length ≤ depth) (rest : Tokens) :
    parseArguments depth name former ((further arguments).map .ok ++ .ok .closeParen :: rest) =
      .ok (former ++ arguments.map (·.expression), rest) := by
  induction arguments generalizing former depth with
  | nil =>
    obtain ⟨depth, rfl⟩ := Nat.exists_eq_add_of_le' (show 1 ≤ depth by omega)
    simp only [further, List.flatMap_nil, List.map_nil, List.nil_append, List.append_nil]
    rw [parseArguments, bind_of_ok (nextIfToken_same _ _)]
    rfl
  | cons first others ih =>
    have total : (further (first :: others)).length =
        first.tokens.length + 1 + (further others).length := by
      simp only [further, List.flatMap_cons, List.length_append, List.length_cons]
    obtain ⟨depth, rfl⟩ : ∃ smaller, depth = smaller + 1 := ⟨depth - 1, by omega⟩
    have step : parseArguments (depth + 1) name former
          ((further (first :: others)).map .ok ++ .ok .closeParen :: rest) =
        parseArguments depth name (former ++ [first.expression])
          ((further others).map .ok ++ .ok .closeParen :: rest) :=
      parseArguments_next (each first List.mem_cons_self) (separate_further others rest)
        (stops_further others rest) (by omega) (by simp [further]) (by simp [further, some])
    rw [step, ih (fun argument inside => each argument (List.mem_cons_of_mem _ inside))
      (by simp) (by omega)]
    simp

theorem parseArguments_written (each : ∀ argument ∈ arguments,
      Parses argument.precedence argument.expression argument.tokens)
    (enough : 2 + 2 * ([Token.comma].intercalate (arguments.map (·.tokens))).length ≤ depth)
    (rest : Tokens) :
    parseArguments depth name []
        (([Token.comma].intercalate (arguments.map (·.tokens))).map .ok ++
          .ok .closeParen :: rest) =
      .ok (arguments.map (·.expression), rest) := by
  obtain ⟨depth, rfl⟩ : ∃ smaller, depth = smaller + 1 := ⟨depth - 1, by omega⟩
  cases arguments with
  | nil =>
    simp only [List.intercalate, List.map_nil, List.intersperse, List.flatten_nil,
      List.nil_append]
    rw [parseArguments, bind_of_ok (nextIfToken_same _ _)]
    rfl
  | cons first others =>
    rw [intercalate_arguments] at enough ⊢
    rw [List.length_append] at enough
    have opens : ahead (first.tokens.map .ok ++ ((further others).map .ok ++
        .ok .closeParen :: rest)) ≠ some .closeParen := by
      obtain ⟨token, tokens, same, opens, _⟩ := (each first List.mem_cons_self).starts
      simpa [same] using opens
    rw [List.map_append, List.append_assoc,
      parseArguments_next (each first List.mem_cons_self) (separate_further others rest)
        (stops_further others rest) (by omega) opens rfl,
      parseArguments_further (fun argument inside => each argument
        (List.mem_cons_of_mem _ inside)) (by simp) (by omega)]
    simp

end Arguments

theorem parses_function (name : String) (each : ∀ argument ∈ arguments,
      Parses argument.precedence argument.expression argument.tokens) :
    Parses 10 (.function name (arguments.map (·.expression)))
      (.ident name :: .openParen ::
        ([Token.comma].intercalate (arguments.map (·.tokens)) ++ [.closeParen])) where
  tight _ := by
    apply tight_of_atom rfl
    intro rest separate depth enough
    simp only [List.length_cons, List.length_append, List.length_nil] at enough
    obtain ⟨depth, rfl⟩ : ∃ smaller, depth = smaller + 1 := ⟨depth - 1, by omega⟩
    rw [List.map_cons, List.map_append, List.map_singleton, List.cons_append, List.append_assoc,
      List.singleton_append, parseExpressionAtom,
      bind_of_ok (show next (.ok (.ident name) :: _) = .ok (.ident name, _) from rfl)]
    dsimp only
    rw [bind_of_ok (nextIfToken_same _ _)]
    simp only [Option.isSome_some, ↓reduceIte]
    rw [bind_of_ok (parseArguments_written each (by omega) rest)]
    rfl
  loose low := absurd low (by decide)
  starts := ⟨_, _, rfl, Token.noConfusion, Token.noConfusion⟩

variable {precedence : Nat} {operand : Expression} {tokens : List Token}

/-- An operator in front of its operand takes nothing behind it. -/
theorem stops_prefixLevel (rest : Tokens) : Stops prefixLevel.rightOperand rest where
  suffix _ _ _ _ := by decide
  binary _ operator _ _ := by
    cases operator <;> decide

theorem parses_sign {operation : UnaryOperation} {token : Token}
    (symbol : operation.sign = some token) (parses : Parses precedence operand tokens)
    (allowed : prefixLevel.rightOperand ≤ precedence) :
    Parses prefixLevel.precedence (.unary operation operand) (token :: tokens) where
  tight _ := by
    intro least below rest separate depth result continued total enough
    rw [List.length_cons] at enough
    obtain ⟨total, rfl⟩ : ∃ smaller, total = smaller + 1 := ⟨total - 1, by omega⟩
    obtain ⟨operator, known, built⟩ : ∃ operator, PrefixOperator.ofToken token = some operator ∧
        operator.build operand = .unary operation operand := by
      cases operation <;> cases symbol <;> exact ⟨_, rfl, rfl⟩
    have taken : nextIfOperator PrefixOperator least (.ok token :: (tokens.map .ok ++ rest)) =
        .ok (some operator, tokens.map .ok ++ rest) :=
      nextIfOperator_some known below rfl
    have parsed : parseExpressionWithin total
        (Operator.prec operator + Operator.assoc operator) (tokens.map .ok ++ rest) =
          .ok (operand, rest) :=
      parses.complete allowed separate (stops_prefixLevel rest) (by omega)
    rw [List.map_cons, List.cons_append, parseExpressionWithin, bind_of_ok taken]
    dsimp only
    rw [bind_of_ok parsed, pure_bind, built]
    exact continued total (by omega) total (by omega)
  loose low := absurd low (by decide)
  starts := ⟨token, tokens, rfl, by
    cases operation <;> cases symbol <;> exact ⟨Token.noConfusion, Token.noConfusion⟩⟩

/-- An operator behind its operand is taken by the loop for postfix operators. -/
theorem parses_afterwards {operator augmented : PostfixOperator} {token : Token}
    {modifiers : List Token} (known : PostfixOperator.ofToken token = some operator)
    (augments : ∀ rest, operator.augment (modifiers.map .ok ++ rest) = .ok (augmented, rest))
    (parses : Parses precedence operand tokens) (allowed : postfixLevel.leftOperand ≤ precedence) :
    Parses postfixLevel.precedence (augmented.build operand) (tokens ++ token :: modifiers) where
  tight _ := by
    intro least below rest separate depth result continued total enough
    have tokenSeparate : Separate (.ok token :: (modifiers.map .ok ++ rest)) := by
      apply separate_cons
      · rintro rfl
        cases known
      · rintro rfl
        cases known
    rw [List.map_append, List.append_assoc, List.map_cons, List.cons_append]
    rw [List.length_append, List.length_cons] at enough
    refine parses.tight allowed least (below.trans allowed) _ tokenSeparate (depth + 1) result ?_
      total (by omega)
    intro first firstEnough second secondEnough
    obtain ⟨first, rfl⟩ : ∃ smaller, first = smaller + 1 := ⟨first - 1, by omega⟩
    have taken : nextIfOperator PostfixOperator least
        (.ok token :: (modifiers.map .ok ++ rest)) = .ok (some augmented, rest) :=
      nextIfOperator_some known below (augments rest)
    have unfolded := continued first (by omega) second (by omega)
    rw [← unfolded, parseOperators, parseOperators, parsePostfixOperators]
    simp only [bind_assoc]
    rw [bind_of_ok taken]
  loose low := absurd low (by decide)
  starts := by
    obtain ⟨first, rest, rfl, opens, symbol⟩ := parses.starts
    exact ⟨first, rest ++ token :: modifiers, rfl, opens, symbol⟩

theorem parses_suffix {operation : UnaryOperation} {symbols : List Token}
    (symbol : operation.suffix = some symbols) (parses : Parses precedence operand tokens)
    (allowed : postfixLevel.leftOperand ≤ precedence) :
    Parses postfixLevel.precedence (.unary operation operand) (tokens ++ symbols) := by
  cases operation with
  | factorial =>
    cases symbol
    exact @parses_afterwards _ _ _ .factorial .factorial _ _ rfl (fun _ => rfl) parses allowed
  | isNull =>
    cases symbol
    exact @parses_afterwards _ _ _ (.isNull false) (.isNull false) _ _ rfl (fun _ => rfl) parses
      allowed
  | _ => cases symbol

theorem parses_isNotNull (parses : Parses precedence operand tokens)
    (allowed : postfixLevel.leftOperand ≤ precedence) :
    Parses postfixLevel.precedence (.unary .not (.unary .isNull operand))
      (tokens ++ [(Keyword.is : Token), Keyword.not, Keyword.null]) :=
  @parses_afterwards _ _ _ (.isNull false) (.isNull true) _ _ rfl (fun _ => rfl) parses allowed

/-- The parser knows an operator between operands by the level it is documented at. -/
theorem exists_infix {token : Token} (symbol : token ∈ operation.symbols) :
    ∃ operator, InfixOperator.ofToken token = some operator ∧
      operator.operation = operation ∧ operator.prec = operation.level.precedence ∧
      operator.prec + operator.assoc = operation.level.rightOperand := by
  cases operation with
  | notEqual =>
    simp only [BinaryOperation.symbols, List.mem_cons, List.not_mem_nil, or_false] at symbol
    rcases symbol with rfl | rfl <;> exact ⟨_, rfl, rfl, rfl, rfl⟩
  | _ =>
    rw [List.mem_singleton.mp symbol]
    exact ⟨_, rfl, rfl, rfl, rfl⟩

/-- An operator between operands is neither behind its operand nor part of a name. -/
theorem infix_only {token : Token} {operator : InfixOperator}
    (known : InfixOperator.ofToken token = some operator) :
    PostfixOperator.ofToken token = none ∧ token ≠ .openParen ∧ token ≠ .period := by
  unfold InfixOperator.ofToken at known
  split at known <;> cases known <;> exact ⟨rfl, by decide, by decide⟩

theorem closing_precedence (operation : BinaryOperation) :
    closing operation.level.precedence = operation.level.rightOperand := by
  cases operation <;> rfl

/-- An operator does not belong to the last operand of its left operand. -/
theorem precedence_lt_closing (allowed : operation.level.leftOperand ≤ higher) (low : higher < 8) :
    operation.level.precedence < closing higher := by
  cases operation <;>
    simp only [BinaryOperation.level, Level.leftOperand, closing] at allowed ⊢ <;> split <;> omega

theorem precedence_le_leftOperand (level : Level) : level.precedence ≤ level.leftOperand := by
  unfold Level.leftOperand
  split <;> omega

theorem parses_binary {token : Token} {leftPrecedence rightPrecedence : Nat}
    {left right : Expression} {leftTokens rightTokens : List Token}
    (symbol : token ∈ operation.symbols) (leftParses : Parses leftPrecedence left leftTokens)
    (rightParses : Parses rightPrecedence right rightTokens)
    (leftAllowed : operation.level.leftOperand ≤ leftPrecedence)
    (rightAllowed : operation.level.rightOperand ≤ rightPrecedence) :
    Parses operation.level.precedence (.binary operation left right)
      (leftTokens ++ token :: rightTokens) where
  tight high := by
    cases operation <;> exact absurd high (by decide)
  loose _ := by
    intro least below rest separate stops depth result continued total enough
    obtain ⟨operator, known, computes, prec, climb⟩ := exists_infix symbol
    obtain ⟨noSuffix, noCall, noRelation⟩ := infix_only known
    rw [closing_precedence] at stops
    rw [List.length_append, List.length_cons] at enough
    rw [List.map_append, List.append_assoc, List.map_cons, List.cons_append]
    have notSuffix {least : Nat} : ∀ other operator,
        ahead (.ok token :: (rightTokens.map .ok ++ rest)) = some other →
          PostfixOperator.ofToken other = some operator → 8 < least := by
      intro other operator' found known'
      cases found
      rw [noSuffix] at known'
      cases known'
    refine leftParses.parse_infix (below.trans ((precedence_le_leftOperand _).trans leftAllowed))
      (separate_cons noCall noRelation) (fun low => ⟨notSuffix, ?_⟩) notSuffix
      (show 1 ≤ depth + 2 * rightTokens.length + 2 by omega) ?_ (by omega)
    · intro other operator' found known'
      cases found
      cases known.symm.trans known'
      rw [prec]
      exact precedence_lt_closing leftAllowed low
    · intro first firstEnough
      obtain ⟨first, rfl⟩ : ∃ smaller, first = smaller + 1 := ⟨first - 1, by omega⟩
      have taken : nextIfOperator InfixOperator least
          (.ok token :: (rightTokens.map .ok ++ rest)) =
            .ok (some operator, rightTokens.map .ok ++ rest) :=
        nextIfOperator_some known (below.trans_eq prec.symm) rfl
      have parsed : parseExpressionWithin first
          (Operator.prec operator + Operator.assoc operator) (rightTokens.map .ok ++ rest) =
            .ok (right, rest) := by
        rw [show Operator.prec operator + Operator.assoc operator = _ from climb]
        exact rightParses.complete rightAllowed separate stops (by omega)
      rw [parseInfixOperators, bind_of_ok taken]
      dsimp only
      rw [bind_of_ok parsed, InfixOperator.build, computes]
      exact continued first (by omega)
  starts := by
    obtain ⟨first, rest, rfl, opens, symbol⟩ := leftParses.starts
    exact ⟨first, rest ++ token :: rightTokens, rfl, opens, symbol⟩

theorem parses_of_written (written : Written precedence tree tokens) :
    Parses precedence tree tokens := by
  induction written with
  | field name => exact parses_field name
  | qualified table name => exact parses_qualified table name
  | literal spells => exact parses_literal spells
  | function name arguments each ih => exact parses_function name ih
  | sign symbol written ih =>
    obtain ⟨higher, allowed, parses⟩ := ih.enclosed prefixLevel.rightOperand
    exact parses_sign symbol parses allowed
  | suffix symbol written ih =>
    obtain ⟨higher, allowed, parses⟩ := ih.enclosed postfixLevel.leftOperand
    exact parses_suffix symbol parses allowed
  | isNotNull written ih =>
    obtain ⟨higher, allowed, parses⟩ := ih.enclosed postfixLevel.leftOperand
    exact parses_isNotNull parses allowed
  | @binary operation _ _ _ _ _ _ _ symbol _ _ leftIh rightIh =>
    obtain ⟨leftHigher, leftAllowed, left⟩ := leftIh.enclosed operation.level.leftOperand
    obtain ⟨rightHigher, rightAllowed, right⟩ := rightIh.enclosed operation.level.rightOperand
    refine parses_binary symbol left right ?_ ?_
    · exact le_trans (by cases operation <;> decide) leftAllowed
    · exact le_trans (by cases operation <;> decide) rightAllowed

/-- The token ahead cannot continue an expression: it is no operator behind or between operands,
and no call or relation. -/
def Ends (rest : Tokens) : Prop :=
  ∀ token, ahead rest = some token → PostfixOperator.ofToken token = none ∧
    InfixOperator.ofToken token = none ∧ token ≠ .openParen ∧ token ≠ .period

/-- Every expression tree can be written out with parentheses only where the documented table of
operators requires them, and however it is written so, it is parsed as the same tree, taking
exactly the tokens it was written as. -/
theorem parseExpression_written {tree : Expression} (writable : tree.Writable) :
    (∃ precedence tokens, Written precedence tree tokens) ∧
      ∀ precedence tokens, Written precedence tree tokens → ∀ rest, Ends rest →
        parseExpression 0 (tokens.map .ok ++ rest) = .ok (tree, rest) := by
  refine ⟨exists_written writable, ?_⟩
  intro precedence tokens written rest ends
  have separate : Separate rest :=
    ⟨fun found => (ends _ found).2.2.1 rfl, fun found => (ends _ found).2.2.2 rfl⟩
  have stops : Stops 0 rest := by
    constructor
    · intro token operator found known
      rw [(ends token found).1] at known
      cases known
    · intro token operator found known
      rw [(ends token found).2.1] at known
      cases known
  refine (parses_of_written written).complete (Nat.zero_le _) separate stops ?_
  simp only [List.length_append, List.length_map]
  omega

/-- `(1 + x) * 2` is written with parentheses, as its left operand binds less tightly. -/
theorem parseExpression_product :
    parseExpression 0 ([Token.openParen, .number "1", .plus, .ident "x", .closeParen, .asterisk,
        .number "2"].map .ok ++ [.ok .comma]) =
      .ok (.binary .multiply (.binary .add (.literal (.integer 1)) (.field none "x"))
        (.literal (.integer 2)), [.ok .comma]) := by
  have one : Spells (.number "1") (.integer 1) := .integer (by decide) (by decide) (by decide)
  have two : Spells (.number "2") (.integer 2) := .integer (by decide) (by decide) (by decide)
  have plus : Token.plus ∈ BinaryOperation.add.symbols := by decide
  have times : Token.asterisk ∈ BinaryOperation.multiply.symbols := by decide
  have sum : Written 5 (.binary .add (.literal (.integer 1)) (.field none "x"))
      [.number "1", .plus, .ident "x"] :=
    .binary plus (.literal one) (.field "x")
  have product : Written 6 (.binary .multiply
      (.binary .add (.literal (.integer 1)) (.field none "x")) (.literal (.integer 2)))
      [.openParen, .number "1", .plus, .ident "x", .closeParen, .asterisk, .number "2"] :=
    .binary times sum (.literal two)
  have writable : Expression.Writable (.binary .multiply
      (.binary .add (.literal (.integer 1)) (.field none "x")) (.literal (.integer 2))) :=
    .binary _ (.binary _ (.literal (show (0 : Int) ≤ 1 by decide)) (.field _ _))
      (.literal (show (0 : Int) ≤ 2 by decide))
  refine (parseExpression_written writable).2 6 _ product [.ok .comma] ?_
  intro token found
  cases found
  exact ⟨rfl, rfl, by decide, by decide⟩

end Parser

end Radb.Sql
