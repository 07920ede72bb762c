import Radb.Sql.Types.Transform

/-! # Exact arithmetic

What an arithmetic expression over integers stands for, if all intermediate results are integers of
64 bits. Evaluation agrees with it, part by part, unless an operator is given operands whose
overflow it does not check.
-/

namespace Radb.Sql

open Foundation

variable {expression : Expression} {result : Int} {row : Row}

/-- An integer of 64 bits. -/
def InRange (number : Int) : Prop :=
  Int64.minValue.toInt ≤ number ∧ number ≤ Int64.maxValue.toInt

instance (number : Int) : Decidable (InRange number) := inferInstanceAs (Decidable (_ ∧ _))

theorem inRange_iff : InRange number ↔ -2 ^ 63 ≤ number ∧ number < 2 ^ 63 := by
  change _ ≤ number ∧ number ≤ 2 ^ 63 - 1 ↔ _
  exact and_congr_right' Int.le_sub_one_iff

theorem toInt_ofInt (fits : InRange number) :
    (Int64.ofInt number).toInt = number :=
  Int64.toInt_ofInt_of_le (inRange_iff.mp fits).1 (inRange_iff.mp fits).2

theorem inRange_toInt (number : Int64) : InRange number.toInt :=
  ⟨Int64.minValue_le_toInt number, Int64.toInt_le number⟩

/-- An intermediate result. -/
def fit (number : Int) : Option Int := if InRange number then some number else none

/-- A result is the given integer, or an error if there is none. -/
def Agrees (result : Except Fault Value) : Option Int → Prop
  | some number => result = .ok (.integer (Int64.ofInt number))
  | none => ∃ error, result = .error (.error error)

theorem fit_of_inRange (fits : InRange number) : fit number = some number :=
  if_pos fits

theorem fit_of_not_inRange (exceeds : ¬InRange number) : fit number = none :=
  if_neg exceeds

theorem agrees_checked_iff :
    Agrees (Value.checked number) (fit other) ↔ fit number = fit other := by
  by_cases fits : InRange number
  · rw [show Value.checked number = _ from if_pos fits, fit_of_inRange fits]
    by_cases alsoFits : InRange other
    · rw [fit_of_inRange alsoFits, Option.some.injEq]
      constructor
      · intro same
        have same := congrArg Int64.toInt (Value.integer.inj (Except.ok.inj same))
        rwa [toInt_ofInt fits, toInt_ofInt alsoFits] at same
      · rintro rfl
        rfl
    · rw [fit_of_not_inRange alsoFits]
      exact iff_of_false (by rintro ⟨_, wrong⟩; cases wrong) (by simp)
  · rw [show Value.checked number = _ from if_neg fits, fit_of_not_inRange fits]
    by_cases alsoFits : InRange other
    · rw [fit_of_inRange alsoFits]
      exact iff_of_false (by rintro ⟨⟩) (by simp)
    · rw [fit_of_not_inRange alsoFits]
      exact iff_of_true ⟨_, rfl⟩ rfl

/-- An overflow that is not checked is not an error. -/
theorem agrees_unchecked_iff (operation : String) (number : Int) :
    Agrees (Value.unchecked operation number) (fit number) ↔ InRange number := by
  by_cases fits : InRange number
  · rw [show Value.unchecked operation number = _ from if_pos fits, fit_of_inRange fits]
    exact iff_of_true rfl fits
  · rw [show Value.unchecked operation number = _ from if_neg fits, fit_of_not_inRange fits]
    exact iff_of_false (by rintro ⟨_, wrong⟩; cases wrong) fits

variable {first second : Except Fault Value} {left right : Option Int}

/-- An operation on results that agree. -/
theorem agrees_bind_iff {operation : Value → Except Fault Value} {exact : Int → Option Int}
    (agrees : Agrees first left) : Agrees (first >>= operation) (left >>= exact) ↔
      ∀ number ∈ left, Agrees (operation (.integer (Int64.ofInt number))) (exact number) := by
  cases left with
  | none =>
    obtain ⟨error, rfl⟩ := agrees
    exact iff_of_true ⟨error, rfl⟩ (by simp)
  | some number =>
    rw [show first = _ from agrees]
    simp [bind, Except.bind]

theorem agrees_bind₂_iff {operation : Value → Value → Except Fault Value}
    {exact : Int → Int → Option Int} (leftAgrees : Agrees first left)
    (rightAgrees : Agrees second right) :
    Agrees (do operation (← first) (← second)) (do exact (← left) (← right)) ↔
      ∀ number ∈ left, ∀ other ∈ right, Agrees
        (operation (.integer (Int64.ofInt number)) (.integer (Int64.ofInt other)))
        (exact number other) := by
  rw [agrees_bind_iff leftAgrees]
  exact forall₂_congr fun number _ => agrees_bind_iff rightAgrees

namespace Exact

/-- The quotient or remainder, if it is defined. -/
def quotient (operation : Int → Int → Int) (number other : Int) : Option Int :=
  if other = 0 then none else fit (operation number other)

/-- A power with a natural exponent. -/
def power (number other : Int) : Option Int := fit (number ^ other.toNat)

def factorial (number : Int) : Option Int :=
  if number < 0 then none else fit number.toNat.factorial

/-- Powers whose exponent can be cut to 32 bits. -/
def Plain (number other : Int) : Prop :=
  other < 2 ^ 32 ∨ number = 1 ∨ number = -1 ∨ number = 0 ∧ other.toNat % 2 ^ 32 ≠ 0 ∨
    ¬InRange (number ^ (other.toNat % 2 ^ 32))

/-- A power with a large exponent is out of range, unless the base is zero or a unit. -/
theorem not_inRange_pow {exponent : Nat} (base : 2 ≤ number.natAbs) (large : 64 ≤ exponent) :
    ¬InRange (number ^ exponent) := by
  have powers : 2 ^ 64 ≤ (number ^ exponent).natAbs := by
    rw [Int.natAbs_pow]
    exact (Nat.pow_le_pow_left base 64).trans (Nat.pow_le_pow_right (by omega) large)
  rw [inRange_iff]
  omega

/-- An exponent may be cut to 32 bits exactly where the power is plain. -/
theorem fit_power_iff :
    fit (number ^ (other.toNat % 2 ^ 32)) = fit (number ^ other.toNat) ↔ Plain number other := by
  unfold Plain
  by_cases short : other < 2 ^ 32
  · rw [Nat.mod_eq_of_lt (by omega)]
    exact iff_of_true rfl (.inl short)
  · rw [or_iff_right short]
    have split := Nat.div_add_mod other.toNat (2 ^ 32)
    by_cases one : number = 1
    · simp [one]
    · by_cases minusOne : number = -1
      · have same : (-1 : Int) ^ other.toNat = (-1) ^ (other.toNat % 2 ^ 32) := by
          rw [← split, pow_add, pow_mul, Even.neg_one_pow (by decide), one_pow, one_mul, split]
        simp [minusOne, same]
      · by_cases zero : number = 0
        · subst zero
          rw [zero_pow (show other.toNat ≠ 0 by omega)]
          by_cases cut : other.toNat % 2 ^ 32 = 0
          · rw [cut, pow_zero]
            exact iff_of_false (by decide) (by simp [show InRange 1 by decide])
          · rw [zero_pow cut]
            exact iff_of_true rfl (.inr (.inr (.inl ⟨rfl, cut⟩)))
        · have exceeds : ¬InRange (number ^ other.toNat) :=
            not_inRange_pow (by omega) (by omega)
          rw [fit_of_not_inRange exceeds]
          simp [fit, one, minusOne, zero]

theorem inRange_factorial {number : Nat} (small : number ≤ 20) :
    InRange (number.factorial : Int) := by
  have bound := Nat.factorial_le small
  have last : Nat.factorial 20 < 2 ^ 63 := by decide
  rw [inRange_iff]
  omega

theorem product_eq {number : Nat} (small : number ≤ 20) :
    Value.product number = .ok (.integer (Int64.ofInt number.factorial)) := by
  induction number with
  | zero => rfl
  | succ number ih =>
    have fits := inRange_factorial small
    rw [Nat.factorial_succ, Nat.mul_comm, Nat.cast_mul, Nat.cast_succ] at fits ⊢
    rw [Value.product, ih (by omega)]
    change Value.unchecked _ ((Int64.ofInt number.factorial).toInt * _) = _
    rw [toInt_ofInt (inRange_factorial (by omega))]
    exact if_pos fits

theorem product_panics {number : Nat} (large : 21 ≤ number) :
    ∃ text, Value.product number = .error (.panic text) := by
  induction number, large using Nat.le_induction with
  | base => exact ⟨_, by rw [Value.product, product_eq (Nat.le_refl 20)]; rfl⟩
  | succ number _ ih =>
    obtain ⟨text, panics⟩ := ih
    exact ⟨text, by rw [Value.product, panics]; rfl⟩

theorem ofInt_eq_zero_iff (fits : InRange number) :
    Int64.ofInt number = 0 ↔ number = 0 := by
  constructor
  · intro zero
    have same := congrArg Int64.toInt zero
    rwa [toInt_ofInt fits] at same
  · rintro rfl
    rfl

section Operators

variable {number other : Int} (fits : InRange number) (alsoFits : InRange other)
include fits

theorem agrees_negate_iff : Agrees (Value.negate (.integer (Int64.ofInt number))) (fit (-number)) ↔
    number ≠ -2 ^ 63 := by
  unfold Value.negate
  dsimp only
  rw [toInt_ofInt fits, agrees_unchecked_iff, inRange_iff]
  rw [inRange_iff] at fits
  omega

include alsoFits

omit alsoFits in
theorem inRange_tdiv_iff (nonzero : other ≠ 0) :
    InRange (number.tdiv other) ↔ ¬(number = -2 ^ 63 ∧ other = -1) := by
  rw [inRange_iff] at fits ⊢
  have size : (number.tdiv other).natAbs = number.natAbs / other.natAbs := Int.natAbs_tdiv ..
  by_cases unit : other.natAbs = 1
  · obtain rfl | rfl := Int.natAbs_eq_iff.mp unit
    · rw [Nat.cast_one, Int.tdiv_one]
      omega
    · rw [Nat.cast_one, Int.tdiv_neg, Int.tdiv_one]
      omega
  · have half : number.natAbs / other.natAbs ≤ number.natAbs / 2 :=
      Nat.div_le_div_left (by omega) (by omega)
    omega

theorem agrees_divide_iff : Agrees (Value.divide (.integer (Int64.ofInt number))
    (.integer (Int64.ofInt other))) (quotient Int.tdiv number other) ↔
      ¬(number = -2 ^ 63 ∧ other = -1) := by
  have zero : Int64.ofInt other = 0 ↔ other = 0 := ofInt_eq_zero_iff alsoFits
  unfold Value.divide Value.arithmetic
  dsimp only
  rw [quotient, toInt_ofInt fits, toInt_ofInt alsoFits]
  by_cases isZero : other = 0
  · rw [if_pos (zero.mpr isZero), if_pos isZero]
    exact iff_of_true ⟨_, rfl⟩ (by omega)
  · rw [if_neg (mt zero.mp isZero), if_neg isZero, agrees_unchecked_iff,
      inRange_tdiv_iff fits isZero]

theorem agrees_modulo_iff : Agrees (Value.modulo (.integer (Int64.ofInt number))
    (.integer (Int64.ofInt other))) (quotient Int.tmod number other) ↔
      ¬(number = -2 ^ 63 ∧ other = -1) := by
  have zero : Int64.ofInt other = 0 ↔ other = 0 := ofInt_eq_zero_iff alsoFits
  unfold Value.modulo Value.arithmetic
  dsimp only
  rw [quotient, toInt_ofInt fits, toInt_ofInt alsoFits]
  by_cases isZero : other = 0
  · rw [if_pos (zero.mpr isZero), if_pos isZero]
    exact iff_of_true ⟨_, rfl⟩ (by omega)
  · have remains : InRange (number.tmod other) := by
      have size := Int.natAbs_tmod number other
      have less := Nat.mod_lt number.natAbs (Int.natAbs_pos.mpr isZero)
      rw [inRange_iff] at alsoFits ⊢
      omega
    rw [if_neg (mt zero.mp isZero), if_neg isZero, fit_of_inRange remains]
    have quotient := inRange_tdiv_iff fits isZero
    by_cases divides : InRange (number.tdiv other)
    · rw [show Value.unchecked _ (number.tdiv other) = _ from if_pos divides]
      exact iff_of_true rfl (quotient.mp divides)
    · rw [show Value.unchecked _ (number.tdiv other) = _ from if_neg divides]
      exact iff_of_false (by rintro ⟨⟩) (mt quotient.mpr divides)

theorem agrees_exponentiate_iff (natural : 0 ≤ other) :
    Agrees (Value.exponentiate (.integer (Int64.ofInt number)) (.integer (Int64.ofInt other)))
      (power number other) ↔ Plain number other := by
  unfold Value.exponentiate
  dsimp only
  rw [toInt_ofInt fits, toInt_ofInt alsoFits, if_pos natural, power,
    agrees_checked_iff]
  exact fit_power_iff

end Operators

theorem agrees_factorial_iff (fits : InRange number) :
    Agrees (Value.factorial (.integer (Int64.ofInt number))) (factorial number) ↔ number ≤ 20 := by
  unfold Value.factorial
  dsimp only
  rw [toInt_ofInt fits, factorial]
  by_cases negative : number < 0
  · rw [if_pos negative, if_pos negative]
    exact iff_of_true ⟨_, rfl⟩ (by omega)
  · rw [if_neg negative, if_neg negative]
    by_cases small : number ≤ 20
    · rw [product_eq (by omega), fit_of_inRange (inRange_factorial (by omega))]
      exact iff_of_true rfl small
    · obtain ⟨text, panics⟩ := product_panics (show 21 ≤ number.toNat by omega)
      rw [panics]
      refine iff_of_false ?_ small
      intro agrees
      unfold Agrees at agrees
      split at agrees
      · cases agrees
      · obtain ⟨_, wrong⟩ := agrees
        cases wrong

end Exact

namespace Expression

open Exact

/-- Arithmetic over integer constants and over fields that are integers in a row. -/
def isArithmetic (row : Row) : Expression → Bool
  | constant (.integer _) => true
  | field index _ =>
    match row[index]? with
    | some (.integer _) => true
    | _ => false
  | add left right | subtract left right | multiply left right | divide left right
  | modulo left right | exponentiate left right => left.isArithmetic row && right.isArithmetic row
  | factorial operand | negate operand => operand.isArithmetic row
  | _ => false

/-- The integer that an arithmetic expression stands for, if all intermediate results are defined
and integers of 64 bits. -/
def exact (row : Row) : Expression → Option Int
  | constant (.integer number) => some number.toInt
  | field index _ =>
    match row[index]? with
    | some (.integer number) => some number.toInt
    | _ => none
  | add left right => do fit ((← left.exact row) + (← right.exact row))
  | subtract left right => do fit ((← left.exact row) - (← right.exact row))
  | multiply left right => do fit ((← left.exact row) * (← right.exact row))
  | divide left right => do quotient Int.tdiv (← left.exact row) (← right.exact row)
  | modulo left right => do quotient Int.tmod (← left.exact row) (← right.exact row)
  | exponentiate left right => do power (← left.exact row) (← right.exact row)
  | factorial operand => do Exact.factorial (← operand.exact row)
  | negate operand => do fit (-(← operand.exact row))
  | _ => none

/-- A property of an expression and of all its parts. -/
inductive Everywhere (property : Expression → Prop) : Expression → Prop
  | intro {expression : Expression} (here : property expression)
      (below : ∀ child ∈ expression.children, Everywhere property child) :
      Everywhere property expression

theorem Everywhere.here {property : Expression → Prop} :
    expression.Everywhere property → property expression
  | .intro here _ => here

theorem Everywhere.of_leaf {property : Expression → Prop} (leaf : expression.children = [])
    (here : property expression) :
    expression.Everywhere property :=
  .intro here (by simp [leaf])

/-- The exponents of powers are not negative. -/
def Natural (row : Row) : Expression → Prop
  | exponentiate _ right => ∀ other ∈ right.exact row, 0 ≤ other
  | _ => True

/-- An operator is not given operands whose overflow it does not check. -/
def Tame (row : Row) : Expression → Prop
  | divide left right | modulo left right =>
    ¬(left.exact row = some (-2 ^ 63) ∧ right.exact row = some (-1))
  | exponentiate left right =>
    ∀ number ∈ left.exact row, ∀ other ∈ right.exact row, Plain number other
  | factorial operand => ∀ number ∈ operand.exact row, number ≤ 20
  | negate operand => operand.exact row ≠ some (-2 ^ 63)
  | _ => True

/-- An expression returns the integer it stands for, or an error if there is none. -/
def IsExact (row : Row) (expression : Expression) : Prop :=
  Agrees (expression.evaluate row) (expression.exact row)

theorem inRange_of_fit (found : fit number = some result) :
    InRange result := by
  unfold fit at found
  split at found
  · next fits => exact Option.some.inj found ▸ fits
  · cases found

theorem inRange_of_quotient {operation : Int → Int → Int}
    (found : quotient operation number other = some result) : InRange result := by
  unfold quotient at found
  split at found
  · cases found
  · exact inRange_of_fit found

theorem inRange_of_factorial (found : Exact.factorial number = some result) : InRange result := by
  unfold Exact.factorial at found
  split at found
  · cases found
  · exact inRange_of_fit found

theorem inRange_exact (found : expression.exact row = some number) : InRange number := by
  unfold exact at found
  split at found
  case h_1 => exact Option.some.inj found ▸ inRange_toInt _
  case h_2 =>
    split at found
    · exact Option.some.inj found ▸ inRange_toInt _
    · cases found
  case h_11 => cases found
  all_goals obtain ⟨_, _, found⟩ := Option.bind_eq_some_iff.mp found
  case h_9 => exact inRange_of_factorial found
  case h_10 => exact inRange_of_fit found
  all_goals obtain ⟨_, _, found⟩ := Option.bind_eq_some_iff.mp found
  case h_6 | h_7 => exact inRange_of_quotient found
  all_goals exact inRange_of_fit found

theorem isExact_iff (arithmetic : expression.isArithmetic row = true)
    (natural : expression.Natural row)
    (operands : ∀ child ∈ expression.children, child.IsExact row) :
    expression.IsExact row ↔ expression.Tame row := by
  have inside {operand : Expression} {number : Int} (found : number ∈ operand.exact row) :
      InRange number := inRange_exact found
  -- The checked operators and the quotients share the treatment of their operands.
  have checked {left right : Expression} {operation : Value → Value → Except Fault Value}
      {result : Int → Int → Int} (leftExact : left.IsExact row) (rightExact : right.IsExact row)
      (computes : ∀ number other : Int64, operation (.integer number) (.integer other) =
        Value.checked (result number.toInt other.toInt)) :
      Agrees (do operation (← left.evaluate row) (← right.evaluate row))
        (do fit (result (← left.exact row) (← right.exact row))) := by
    rw [agrees_bind₂_iff leftExact rightExact]
    intro number isLeft other isRight
    rw [computes, toInt_ofInt (inside isLeft), toInt_ofInt (inside isRight), agrees_checked_iff]
  have divided {left right : Expression} {operation : Value → Value → Except Fault Value}
      {result : Int → Int → Int} (leftExact : left.IsExact row) (rightExact : right.IsExact row)
      (agrees : ∀ {number other : Int}, InRange number → InRange other →
        (Agrees (operation (.integer (Int64.ofInt number)) (.integer (Int64.ofInt other)))
          (quotient result number other) ↔ ¬(number = -2 ^ 63 ∧ other = -1))) :
      Agrees (do operation (← left.evaluate row) (← right.evaluate row))
        (do quotient result (← left.exact row) (← right.exact row)) ↔
        ¬(left.exact row = some (-2 ^ 63) ∧ right.exact row = some (-1)) := by
    rw [agrees_bind₂_iff leftExact rightExact]
    constructor
    · intro every least
      exact (agrees (inside least.1) (inside least.2)).mp (every _ least.1 _ least.2) ⟨rfl, rfl⟩
    · intro other number isLeft divisor isRight
      refine (agrees (inside isLeft) (inside isRight)).mpr ?_
      rintro ⟨rfl, rfl⟩
      exact other ⟨isLeft, isRight⟩
  cases expression with
  | constant value =>
    cases value with
    | integer number =>
      exact iff_of_true (congrArg (Except.ok ∘ Value.integer) (Int64.ofInt_toInt number).symm)
        trivial
    | _ => cases arithmetic
  | field index label =>
    unfold isArithmetic at arithmetic
    split at arithmetic
    · next number found =>
      refine iff_of_true ?_ trivial
      simp [IsExact, evaluate, exact, found, Agrees]
    · cases arithmetic
  | add left right | subtract left right | multiply left right =>
    exact iff_of_true (checked (operands left (by simp [children]))
      (operands right (by simp [children])) fun _ _ => rfl) trivial
  | divide left right =>
    exact divided (operands left (by simp [children])) (operands right (by simp [children]))
      agrees_divide_iff
  | modulo left right =>
    exact divided (operands left (by simp [children])) (operands right (by simp [children]))
      agrees_modulo_iff
  | exponentiate left right =>
    refine (agrees_bind₂_iff (operands left (by simp [children]))
      (operands right (by simp [children]))).trans ?_
    exact forall₄_congr fun number isLeft other isRight =>
      agrees_exponentiate_iff (inside isLeft) (inside isRight) (natural other isRight)
  | factorial operand =>
    refine (agrees_bind_iff (operands operand (by simp [children]))).trans ?_
    exact forall₂_congr fun number isOperand => agrees_factorial_iff (inside isOperand)
  | negate operand =>
    refine (agrees_bind_iff (operands operand (by simp [children]))).trans ?_
    constructor
    · intro every least
      exact (agrees_negate_iff (inside least)).mp (every _ least) rfl
    · intro other number isOperand
      refine (agrees_negate_iff (inside isOperand)).mpr ?_
      rintro rfl
      exact other isOperand
  | _ => cases arithmetic

theorem isArithmetic_of_mem_children {child : Expression}
    (arithmetic : expression.isArithmetic row = true) (inside : child ∈ expression.children) :
    child.isArithmetic row = true := by
  cases expression <;> simp_all [isArithmetic, children] <;> grind

end Expression

end Radb.Sql
