import Radb.Foundation.Kleene
import Radb.Sql.Types.Transform

/-! # Normal forms

Negation, conjunctive and disjunctive normal form, and lookups of a field. The
conversions keep the value of every expression that has one, in three-valued logic.
-/

namespace Radb.Sql

open Foundation

namespace Value

/-- A truth value of three-valued logic, where NULL is the unknown one. -/
def ofTruth : Kleene → Value
  | none => null
  | some truth => boolean truth

theorem ofTruth_injective : Function.Injective ofTruth := by
  intro first second same
  cases first <;> cases second <;> simp_all [ofTruth]

variable {first second result : Value}

/-- Conjunction is that of three-valued logic, and defined on truth values only. -/
theorem and_eq_ok : and first second = .ok result ↔ ∃ left right, first = ofTruth left ∧
    second = ofTruth right ∧ result = ofTruth (left.conj right) := by
  constructor
  · intro returned
    cases first with
    | null => cases second with
      | null => exact ⟨none, none, rfl, rfl, by simpa [and, Kleene.conj, ofTruth] using returned.symm⟩
      | boolean right =>
        refine ⟨none, some right, rfl, rfl, ?_⟩
        cases right <;> simpa [and, Kleene.conj, ofTruth] using returned.symm
      | integer | float | string => simp [and] at returned
    | boolean left => cases second with
      | null =>
        refine ⟨some left, none, rfl, rfl, ?_⟩
        cases left <;> simpa [and, Kleene.conj, ofTruth] using returned.symm
      | boolean right =>
        refine ⟨some left, some right, rfl, rfl, ?_⟩
        cases left <;> cases right <;> simpa [and, Kleene.conj, ofTruth] using returned.symm
      | integer | float | string => simp [and] at returned
    | integer | float | string => cases second <;> simp [and] at returned
  · intro ⟨left, right, isFirst, isSecond, isResult⟩
    subst isFirst isSecond isResult
    rcases left with _ | _ | _ <;> rcases right with _ | _ | _ <;> rfl

/-- Disjunction is that of three-valued logic, and defined on truth values only. -/
theorem or_eq_ok : or first second = .ok result ↔ ∃ left right, first = ofTruth left ∧
    second = ofTruth right ∧ result = ofTruth (left.disj right) := by
  constructor
  · intro returned
    cases first with
    | null => cases second with
      | null => exact ⟨none, none, rfl, rfl, by simpa [or, Kleene.disj, ofTruth] using returned.symm⟩
      | boolean right =>
        refine ⟨none, some right, rfl, rfl, ?_⟩
        cases right <;> simpa [or, Kleene.disj, ofTruth] using returned.symm
      | integer | float | string => simp [or] at returned
    | boolean left => cases second with
      | null =>
        refine ⟨some left, none, rfl, rfl, ?_⟩
        cases left <;> simpa [or, Kleene.disj, ofTruth] using returned.symm
      | boolean right =>
        refine ⟨some left, some right, rfl, rfl, ?_⟩
        cases left <;> cases right <;> simpa [or, Kleene.disj, ofTruth] using returned.symm
      | integer | float | string => simp [or] at returned
    | integer | float | string => cases second <;> simp [or] at returned
  · intro ⟨left, right, isFirst, isSecond, isResult⟩
    subst isFirst isSecond isResult
    rcases left with _ | _ | _ <;> rcases right with _ | _ | _ <;> rfl

/-- Negation is that of three-valued logic, and defined on truth values only. -/
theorem not_eq_ok :
    not first = .ok result ↔ ∃ truth, first = ofTruth truth ∧ result = ofTruth truth.neg := by
  constructor
  · intro returned
    cases first with
    | null => exact ⟨none, rfl, by simpa [not, Kleene.neg, ofTruth] using returned.symm⟩
    | boolean truth =>
      exact ⟨some truth, rfl, by simpa [not, Kleene.neg, ofTruth] using returned.symm⟩
    | integer | float | string => simp [not] at returned
  · intro ⟨truth, isFirst, isResult⟩
    subst isFirst isResult
    rcases truth with _ | _ | _ <;> rfl

end Value

namespace Expression

variable {first second : Expression}

section Truth

variable {row : Row} {left right operand : Expression} {value : Value}

theorem evaluate_and_eq_ok : (and left right).evaluate row = .ok value ↔ ∃ first second,
    left.evaluate row = .ok (.ofTruth first) ∧ right.evaluate row = .ok (.ofTruth second) ∧
      value = .ofTruth (first.conj second) := by
  constructor
  · intro returned
    obtain ⟨first, evaluated, rest⟩ := bind_eq_ok.mp returned
    obtain ⟨second, also, result⟩ := bind_eq_ok.mp rest
    obtain ⟨truth, other, isTruth, isOther, isValue⟩ := Value.and_eq_ok.mp result
    subst isTruth isOther
    exact ⟨truth, other, evaluated, also, isValue⟩
  · intro ⟨first, second, evaluated, also, isValue⟩
    exact bind_eq_ok.mpr ⟨_, evaluated, bind_eq_ok.mpr ⟨_, also,
      Value.and_eq_ok.mpr ⟨first, second, rfl, rfl, isValue⟩⟩⟩

theorem evaluate_or_eq_ok : (or left right).evaluate row = .ok value ↔ ∃ first second,
    left.evaluate row = .ok (.ofTruth first) ∧ right.evaluate row = .ok (.ofTruth second) ∧
      value = .ofTruth (first.disj second) := by
  constructor
  · intro returned
    obtain ⟨first, evaluated, rest⟩ := bind_eq_ok.mp returned
    obtain ⟨second, also, result⟩ := bind_eq_ok.mp rest
    obtain ⟨truth, other, isTruth, isOther, isValue⟩ := Value.or_eq_ok.mp result
    subst isTruth isOther
    exact ⟨truth, other, evaluated, also, isValue⟩
  · intro ⟨first, second, evaluated, also, isValue⟩
    exact bind_eq_ok.mpr ⟨_, evaluated, bind_eq_ok.mpr ⟨_, also,
      Value.or_eq_ok.mpr ⟨first, second, rfl, rfl, isValue⟩⟩⟩

theorem evaluate_not_eq_ok : (not operand).evaluate row = .ok value ↔ ∃ truth,
    operand.evaluate row = .ok (.ofTruth truth) ∧ value = .ofTruth truth.neg := by
  constructor
  · intro returned
    obtain ⟨inner, evaluated, result⟩ := bind_eq_ok.mp returned
    obtain ⟨truth, isTruth, isValue⟩ := Value.not_eq_ok.mp result
    subst isTruth
    exact ⟨truth, evaluated, isValue⟩
  · intro ⟨truth, evaluated, isValue⟩
    exact bind_eq_ok.mpr ⟨_, evaluated, Value.not_eq_ok.mpr ⟨truth, rfl, isValue⟩⟩

end Truth

/-- Push a negation one step into its operand. -/
def nnfStep : (expression : Expression) → Smaller expression
  | not (and left right) => ⟨or (not left) (not right), by simp [children, size] <;> omega⟩
  | not (or left right) => ⟨and (not left) (not right), by simp [children, size] <;> omega⟩
  | not (not inner) => ⟨inner, fun child inside => by
    have smaller := size_lt_of_mem_children inside
    simp only [size]
    omega⟩
  | expression => expression.same

theorem Refines.nnfStep (row : Row) (expression : Expression) :
    expression.Refines row expression.nnfStep.1 := by
  intro value returned
  unfold Expression.nnfStep
  split
  · obtain ⟨truth, inner, isValue⟩ := evaluate_not_eq_ok.mp returned
    obtain ⟨first, second, evaluated, also, isTruth⟩ := evaluate_and_eq_ok.mp inner
    rw [isValue, Value.ofTruth_injective isTruth, Kleene.neg_conj]
    exact evaluate_or_eq_ok.mpr ⟨_, _, evaluate_not_eq_ok.mpr ⟨first, evaluated, rfl⟩,
      evaluate_not_eq_ok.mpr ⟨second, also, rfl⟩, rfl⟩
  · obtain ⟨truth, inner, isValue⟩ := evaluate_not_eq_ok.mp returned
    obtain ⟨first, second, evaluated, also, isTruth⟩ := evaluate_or_eq_ok.mp inner
    rw [isValue, Value.ofTruth_injective isTruth, Kleene.neg_disj]
    exact evaluate_and_eq_ok.mpr ⟨_, _, evaluate_not_eq_ok.mpr ⟨first, evaluated, rfl⟩,
      evaluate_not_eq_ok.mpr ⟨second, also, rfl⟩, rfl⟩
  · obtain ⟨truth, negated, isValue⟩ := evaluate_not_eq_ok.mp returned
    obtain ⟨first, evaluated, isTruth⟩ := evaluate_not_eq_ok.mp negated
    rw [isValue, Value.ofTruth_injective isTruth, Kleene.neg_neg]
    exact evaluated
  · exact returned

/-- Converts the expression into its negation normal form, by De Morgan's laws. -/
def intoNnf (expression : Expression) : Expression := expression.rewrite nnfStep id

theorem intoNnf_and {left right : Expression} :
    (and left right).intoNnf = and left.intoNnf right.intoNnf := by
  rw [intoNnf, rewrite_eq]
  rfl

/-- Distribute a disjunction over a conjunction that is one of its operands. -/
def cnfStep : (expression : Expression) → Smaller expression
  | or (and first second) right =>
    ⟨and (or first right) (or second right), by simp [children, size] <;> omega⟩
  | or left (and first second) =>
    ⟨and (or left first) (or left second), by simp [children, size] <;> omega⟩
  | expression => expression.same

theorem Refines.cnfStep (row : Row) (expression : Expression) :
    expression.Refines row expression.cnfStep.1 := by
  intro value returned
  unfold Expression.cnfStep
  split
  · obtain ⟨truth, third, inner, evaluated, isValue⟩ := evaluate_or_eq_ok.mp returned
    obtain ⟨first, second, isLeft, isRight, isTruth⟩ := evaluate_and_eq_ok.mp inner
    rw [isValue, Value.ofTruth_injective isTruth, Kleene.disj_conj_left]
    exact evaluate_and_eq_ok.mpr ⟨_, _, evaluate_or_eq_ok.mpr ⟨_, _, isLeft, evaluated, rfl⟩,
      evaluate_or_eq_ok.mpr ⟨_, _, isRight, evaluated, rfl⟩, rfl⟩
  · obtain ⟨third, truth, evaluated, inner, isValue⟩ := evaluate_or_eq_ok.mp returned
    obtain ⟨first, second, isLeft, isRight, isTruth⟩ := evaluate_and_eq_ok.mp inner
    rw [isValue, Value.ofTruth_injective isTruth, Kleene.disj_conj_right]
    exact evaluate_and_eq_ok.mpr ⟨_, _, evaluate_or_eq_ok.mpr ⟨_, _, evaluated, isLeft, rfl⟩,
      evaluate_or_eq_ok.mpr ⟨_, _, evaluated, isRight, rfl⟩, rfl⟩
  · exact returned

/-- Converts the expression into conjunctive normal form, an AND of ORs. -/
def intoCnf (expression : Expression) : Expression := expression.intoNnf.rewrite cnfStep id

/-- Distribute a conjunction over a disjunction that is one of its operands. -/
def dnfStep : (expression : Expression) → Smaller expression
  | and (or first second) right =>
    ⟨or (and first right) (and second right), by simp [children, size] <;> omega⟩
  | and left (or first second) =>
    ⟨or (and left first) (and left second), by simp [children, size] <;> omega⟩
  | expression => expression.same

theorem Refines.dnfStep (row : Row) (expression : Expression) :
    expression.Refines row expression.dnfStep.1 := by
  intro value returned
  unfold Expression.dnfStep
  split
  · obtain ⟨truth, third, inner, evaluated, isValue⟩ := evaluate_and_eq_ok.mp returned
    obtain ⟨first, second, isLeft, isRight, isTruth⟩ := evaluate_or_eq_ok.mp inner
    rw [isValue, Value.ofTruth_injective isTruth, Kleene.conj_disj_left]
    exact evaluate_or_eq_ok.mpr ⟨_, _, evaluate_and_eq_ok.mpr ⟨_, _, isLeft, evaluated, rfl⟩,
      evaluate_and_eq_ok.mpr ⟨_, _, isRight, evaluated, rfl⟩, rfl⟩
  · obtain ⟨third, truth, evaluated, inner, isValue⟩ := evaluate_and_eq_ok.mp returned
    obtain ⟨first, second, isLeft, isRight, isTruth⟩ := evaluate_or_eq_ok.mp inner
    rw [isValue, Value.ofTruth_injective isTruth, Kleene.conj_disj_right]
    exact evaluate_or_eq_ok.mpr ⟨_, _, evaluate_and_eq_ok.mpr ⟨_, _, evaluated, isLeft, rfl⟩,
      evaluate_and_eq_ok.mpr ⟨_, _, evaluated, isRight, rfl⟩, rfl⟩
  · exact returned

/-- Converts the expression into disjunctive normal form, an OR of ANDs. -/
def intoDnf (expression : Expression) : Expression := expression.intoNnf.rewrite dnfStep id

/-- The number of nodes on a stack of expressions. -/
def stackSize (stack : List Expression) : Nat := (stack.map size).sum

theorem size_pos (expression : Expression) : 0 < expression.size := by
  cases expression <;> simp only [size] <;> omega

/-- Take the conjunctions on a stack apart, from left to right. -/
def conjuncts : List Expression → List Expression
  | [] => []
  | and left right :: stack => conjuncts (left :: right :: stack)
  | expression :: stack => expression :: conjuncts stack
termination_by stack => stackSize stack
decreasing_by
  · simp [stackSize, size]
    omega
  · have positive := expression.size_pos
    simp [stackSize, positive]

/-- Converts the expression into conjunctive normal form as a vector. -/
def intoCnfVec (expression : Expression) : List Expression := conjuncts [expression.intoCnf]

/-- Take the disjunctions on a stack apart, from left to right. -/
def disjuncts : List Expression → List Expression
  | [] => []
  | or left right :: stack => disjuncts (left :: right :: stack)
  | expression :: stack => expression :: disjuncts stack
termination_by stack => stackSize stack
decreasing_by
  · simp [stackSize, size]
    omega
  · have positive := expression.size_pos
    simp [stackSize, positive]

/-- Converts the expression into disjunctive normal form as a vector. -/
def intoDnfVec (expression : Expression) : List Expression := disjuncts [expression.intoDnf]

/-- Creates an expression by joining a vector in conjunctive normal form as an And. -/
def fromCnfVec : List Expression → Option Expression
  | [] => none
  | first :: rest => some (rest.foldl and first)

/-- Creates an expression by joining a vector in disjunctive normal form as an Or. -/
def fromDnfVec : List Expression → Option Expression
  | [] => none
  | first :: rest => some (rest.foldl or first)

section Vectors

variable {row : Row}

theorem Refines.foldl {connect : Expression → Expression → Expression}
    (congruent : ∀ {first second : Expression} (third : Expression), first.Refines row second →
      (connect first third).Refines row (connect second third)) (stack : List Expression)
    (better : first.Refines row second) :
    (stack.foldl connect first).Refines row (stack.foldl connect second) := by
  induction stack generalizing first second with
  | nil => exact better
  | cons next rest ih => exact ih (congruent next better)

theorem Refines.and_left (third : Expression) (better : first.Refines row second) :
    (and first third).Refines row (and second third) :=
  fun _ returned => returns_binary better (fun _ => id) returned

theorem Refines.or_left (third : Expression) (better : first.Refines row second) :
    (or first third).Refines row (or second third) :=
  fun _ returned => returns_binary better (fun _ => id) returned

theorem Refines.and_assoc (first second third : Expression) :
    (and first (and second third)).Refines row (and (and first second) third) := by
  intro value returned
  obtain ⟨truth, other, evaluated, inner, isValue⟩ := evaluate_and_eq_ok.mp returned
  obtain ⟨left, right, isLeft, isRight, isOther⟩ := evaluate_and_eq_ok.mp inner
  rw [isValue, Value.ofTruth_injective isOther, ← Kleene.conj_assoc]
  exact evaluate_and_eq_ok.mpr
    ⟨_, _, evaluate_and_eq_ok.mpr ⟨_, _, evaluated, isLeft, rfl⟩, isRight, rfl⟩

theorem Refines.or_assoc (first second third : Expression) :
    (or first (or second third)).Refines row (or (or first second) third) := by
  intro value returned
  obtain ⟨truth, other, evaluated, inner, isValue⟩ := evaluate_or_eq_ok.mp returned
  obtain ⟨left, right, isLeft, isRight, isOther⟩ := evaluate_or_eq_ok.mp inner
  rw [isValue, Value.ofTruth_injective isOther, ← Kleene.disj_assoc]
  exact evaluate_or_eq_ok.mpr
    ⟨_, _, evaluate_or_eq_ok.mpr ⟨_, _, evaluated, isLeft, rfl⟩, isRight, rfl⟩

/-- Behind a first conjunct, a stack may be taken apart before it is joined. -/
theorem Refines.conjuncts (stack : List Expression) (first : Expression) :
    (stack.foldl and first).Refines row ((conjuncts stack).foldl and first) := by
  fun_induction Expression.conjuncts stack generalizing first with
  | case1 => exact fun _ => id
  | case2 left right stack ih =>
    exact (Refines.foldl Refines.and_left stack (Refines.and_assoc first left right)).trans
      (ih first)
  | case3 expression stack _ ih => exact ih (and first expression)

/-- Behind a first disjunct, a stack may be taken apart before it is joined. -/
theorem Refines.disjuncts (stack : List Expression) (first : Expression) :
    (stack.foldl or first).Refines row ((disjuncts stack).foldl or first) := by
  fun_induction Expression.disjuncts stack generalizing first with
  | case1 => exact fun _ => id
  | case2 left right stack ih =>
    exact (Refines.foldl Refines.or_left stack (Refines.or_assoc first left right)).trans
      (ih first)
  | case3 expression stack _ ih => exact ih (or first expression)

/-- Joining a stack with AND and joining its conjuncts returns the same values: a leading
conjunction is read the same way whether or not it is taken apart. -/
theorem Refines.fromCnfVec (first : Expression) (stack : List Expression) :
    ∃ joined, Expression.fromCnfVec (Expression.conjuncts (first :: stack)) = some joined ∧
      (stack.foldl and first).Refines row joined := by
  induction measured : first.size using Nat.strong_induction_on generalizing first stack with
  | _ size ih =>
    subst measured
    unfold Expression.conjuncts
    split
    · rename_i empty
      cases empty
    · rename_i left right rest same
      obtain ⟨isFirst, isRest⟩ := List.cons.inj same
      subst isFirst isRest
      exact ih left.size (by simp only [size]; omega) left (right :: stack) rfl
    · rename_i expression rest _ same
      obtain ⟨isFirst, isRest⟩ := List.cons.inj same
      subst isFirst isRest
      exact ⟨_, rfl, Refines.conjuncts stack first⟩

/-- Joining a stack with OR and joining its disjuncts returns the same values. -/
theorem Refines.fromDnfVec (first : Expression) (stack : List Expression) :
    ∃ joined, Expression.fromDnfVec (Expression.disjuncts (first :: stack)) = some joined ∧
      (stack.foldl or first).Refines row joined := by
  induction measured : first.size using Nat.strong_induction_on generalizing first stack with
  | _ size ih =>
    subst measured
    unfold Expression.disjuncts
    split
    · rename_i empty
      cases empty
    · rename_i left right rest same
      obtain ⟨isFirst, isRest⟩ := List.cons.inj same
      subst isFirst isRest
      exact ih left.size (by simp only [size]; omega) left (right :: stack) rfl
    · rename_i expression rest _ same
      obtain ⟨isFirst, isRest⟩ := List.cons.inj same
      subst isFirst isRest
      exact ⟨_, rfl, Refines.disjuncts stack first⟩

section

variable (expression : Expression)

theorem Refines.intoNnf : expression.Refines row expression.intoNnf :=
  Refines.rewrite (Refines.nnfStep row) expression

theorem Refines.intoCnf : expression.Refines row expression.intoCnf :=
  (Refines.intoNnf expression).trans (Refines.rewrite (Refines.cnfStep row) expression.intoNnf)

theorem Refines.intoDnf : expression.Refines row expression.intoDnf :=
  (Refines.intoNnf expression).trans (Refines.rewrite (Refines.dnfStep row) expression.intoNnf)

theorem Refines.intoCnfVec :
    ∃ joined, Expression.fromCnfVec expression.intoCnfVec = some joined ∧
      expression.Refines row joined := by
  obtain ⟨joined, isJoined, better⟩ := Refines.fromCnfVec expression.intoCnf []
  exact ⟨joined, isJoined, (Refines.intoCnf expression).trans better⟩

theorem Refines.intoDnfVec :
    ∃ joined, Expression.fromDnfVec expression.intoDnfVec = some joined ∧
      expression.Refines row joined := by
  obtain ⟨joined, isJoined, better⟩ := Refines.fromDnfVec expression.intoDnf []
  exact ⟨joined, isJoined, (Refines.intoDnf expression).trans better⟩

end

end Vectors

/-- **Normal forms keep three-valued meaning**. Whatever an expression evaluates to on a row
(or without one, where every field is NULL), its negation, conjunctive and disjunctive normal
forms evaluate to, and so do the vectors of the latter two when joined again. -/
theorem normalForms_keep_value (expression : Expression) (row : Option Row) (value : Value)
    (returned : expression.evaluate (row.getD []) = .ok value) :
    expression.intoNnf.evaluate (row.getD []) = .ok value ∧
      expression.intoCnf.evaluate (row.getD []) = .ok value ∧
      expression.intoDnf.evaluate (row.getD []) = .ok value ∧
      (fromCnfVec expression.intoCnfVec).map (evaluate (row.getD [])) = some (.ok value) ∧
      (fromDnfVec expression.intoDnfVec).map (evaluate (row.getD [])) = some (.ok value) := by
  obtain ⟨conjunction, isConjunction, asConjunction⟩ := Refines.intoCnfVec expression
  obtain ⟨disjunction, isDisjunction, asDisjunction⟩ := Refines.intoDnfVec expression
  refine ⟨Refines.intoNnf expression value returned, Refines.intoCnf expression value returned,
    Refines.intoDnf expression value returned, ?_, ?_⟩
  · rw [isConjunction, Option.map_some, asConjunction value returned]
  · rw [isDisjunction, Option.map_some, asDisjunction value returned]

theorem normalForms_keep_null :
    (not (and (constant (.boolean true)) (field 0 none))).evaluate [] = .ok .null ∧
      (not (and (constant (.boolean true)) (field 0 none))).intoCnf.evaluate [] = .ok .null := by
  have kept := normalForms_keep_value (not (and (constant (.boolean true)) (field 0 none))) none
    .null rfl
  exact ⟨rfl, kept.2.1⟩

/-- Checks if the expression is a field lookup, and returns the list of values looked up.
Expressions must be a combination of =, IS NULL, OR to be converted. -/
def asLookup (sought : Nat) : Expression → Option (List Value)
  | equal (field index _) (constant value) => if index = sought then some [value] else none
  | equal (constant value) (field index _) => if index = sought then some [value] else none
  | isNull (field index _) => if index = sought then some [.null] else none
  | or left right =>
    match left.asLookup sought, right.asLookup sought with
    | some first, some second => some (first ++ second)
    | _, _ => none
  | _ => none

/-- Creates an expression from a list of field lookup values. -/
def fromLookup (index : Nat) (label : Label) : List Value → Expression
  | [] => equal (field index label) (constant .null)
  | first :: rest =>
    (rest.map fun value => equal (field index label) (constant value)).foldl or
      (equal (field index label) (constant first))

end Expression

end Radb.Sql
