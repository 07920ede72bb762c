import Radb.Foundation.Skeleton
import Radb.Sql.Types.NormalForm

/-! # The shape of normal forms

Every rewriting of a conversion is applied once at each visited node, after which the walk goes
on to the operands of the result. So a double negation is removed without looking at what it
uncovers, and a disjunction that a distribution leaves is visited but one whose operand only
then becomes a conjunction is not. The conversions have the promised shape exactly if neither
happens.
-/

namespace Radb.Sql

open Foundation

variable {expression left right : Expression}

namespace Expression

/-- The logical operators. -/
def isLogical : Expression → Bool
  | and _ _ => true
  | or _ _ => true
  | not _ => true
  | _ => false

/-- A negation of a logical operator. -/
def negatesLogical : Expression → Bool
  | not operand => operand.isLogical
  | _ => false

/-- The tree of conjunctions and disjunctions at the root of an expression. -/
def skeleton : Expression → Skeleton
  | and left right => .conj left.skeleton right.skeleton
  | or left right => .disj left.skeleton right.skeleton
  | _ => .leaf

section Walk

variable {visit : Expression → Expression}

theorem isLogical_descend (expression : Expression) :
    (Id.run (expression.descend fun child _ => pure (visit child))).isLogical =
      expression.isLogical := by
  cases expression <;> rfl

end Walk

section NegationNormalForm

variable {left right operand expression : Expression}

theorem intoNnf_or : (or left right).intoNnf = or left.intoNnf right.intoNnf := by
  rw [intoNnf, rewrite_eq]
  rfl

theorem intoNnf_not_and :
    (not (and left right)).intoNnf = or (not left).intoNnf (not right).intoNnf := by
  rw [intoNnf, rewrite_eq]
  rfl

theorem intoNnf_not_or :
    (not (or left right)).intoNnf = and (not left).intoNnf (not right).intoNnf := by
  rw [intoNnf, rewrite_eq]
  rfl

/-- The third of three negations stays, whatever it negates. -/
theorem intoNnf_not_not_not : (not (not (not operand))).intoNnf = not operand.intoNnf := by
  rw [intoNnf, rewrite_eq]
  rfl

section

variable (other : ∀ inner, expression ≠ not inner)

include other

theorem nnfStep_of_ne_not : expression.nnfStep.1 = expression := by
  cases expression <;> first | rfl | exact absurd rfl (other _)

theorem intoNnf_of_ne_not :
    expression.intoNnf =
      Id.run (expression.descend fun child _ => pure child.intoNnf) := by
  rw [intoNnf, rewrite_eq, nnfStep_of_ne_not other]
  rfl

theorem intoNnf_not_not : (not (not expression)).intoNnf = expression.intoNnf := by
  rw [intoNnf_of_ne_not other, intoNnf, rewrite_eq]
  rfl

end

theorem ne_not_of_not_logical (plain : expression.isLogical = false) (inner : Expression) :
    expression ≠ not inner := by
  intro isNot
  rw [isNot] at plain
  cases plain

theorem intoNnf_not (plain : expression.isLogical = false) :
    (not expression).intoNnf = not expression.intoNnf := by
  rw [intoNnf, rewrite_eq]
  cases expression <;> first | rfl | cases plain

theorem intoNnf_iterate_add_three (count : Nat) :
    (not^[count + 3] expression).intoNnf = not (not^[count] expression).intoNnf := by
  rw [Function.iterate_succ_apply', Function.iterate_succ_apply', Function.iterate_succ_apply',
    intoNnf_not_not_not]

theorem isLogical_intoNnf (plain : expression.isLogical = false) :
    expression.intoNnf.isLogical = false := by
  rw [intoNnf_of_ne_not (ne_not_of_not_logical plain), isLogical_descend, plain]

/-- However many negations stand before an AND or OR, a logical operator stays at the root. -/
theorem isLogical_intoNnf_iterate (connective : expression = and left right ∨
    expression = or left right) (count : Nat) :
    (not^[count] expression).intoNnf.isLogical = true := by
  match count with
  | 0 =>
    obtain rfl | rfl := connective
    · simp only [Function.iterate_zero_apply, intoNnf_and, isLogical]
    · simp only [Function.iterate_zero_apply, intoNnf_or, isLogical]
  | 1 =>
    obtain rfl | rfl := connective
    · simp only [Function.iterate_one, intoNnf_not_and, isLogical]
    · simp only [Function.iterate_one, intoNnf_not_or, isLogical]
  | 2 =>
    obtain rfl | rfl := connective
    · simp [Function.iterate_succ_apply, intoNnf_not_not, intoNnf_and, isLogical]
    · simp [Function.iterate_succ_apply, intoNnf_not_not, intoNnf_or, isLogical]
  | count + 3 => rw [intoNnf_iterate_add_three, isLogical]

end NegationNormalForm

/-- Behind a number of directly preceding negations, no AND or OR has more than two of them
and no other operator four or more than five; of a single negation of an AND or OR each of its
operands takes one over. -/
def nnfable (pending : Nat) (expression : Expression) : Bool :=
  match expression with
  | not operand => operand.nnfable (pending + 1)
  | and left right | or left right =>
    match pending with
    | 0 | 2 => left.nnfable 0 && right.nnfable 0
    | 1 => left.nnfable 1 && right.nnfable 1
    | _ => false
  | other => (pending ≤ 3 || pending = 5) &&
      other.children.attach.all fun child => child.1.nnfable 0
termination_by expression.size
decreasing_by
  all_goals first
    | exact size_lt_of_mem_children child.2
    | simp only [size]; omega

theorem nnfable_of_not_logical (plain : expression.isLogical = false) (pending : Nat) :
    expression.nnfable pending = true ↔ (pending ≤ 3 ∨ pending = 5) ∧
      ∀ child ∈ expression.children, child.nnfable 0 = true := by
  cases expression with
  | and | or | not => cases plain
  | _ => rw [nnfable] <;> simp [children]

/-- No negation stands before a logical operator. -/
def isNnf (expression : Expression) : Bool := !expression.contains negatesLogical

theorem isNnf_iff : expression.isNnf = true ↔
    expression.negatesLogical = false ∧ ∀ child ∈ expression.children, child.isNnf = true := by
  unfold isNnf
  rw [Bool.not_eq_true', ← Bool.not_eq_true, contains_iff]
  simp

theorem isNnf_not_iff {operand : Expression} :
    (not operand).isNnf = true ↔ operand.isLogical = false ∧ operand.isNnf = true := by
  rw [isNnf_iff]
  simp [negatesLogical, children]

theorem isNnf_and_iff :
    (and left right).isNnf = true ↔ left.isNnf = true ∧ right.isNnf = true := by
  rw [isNnf_iff]
  simp [negatesLogical, children]

theorem isNnf_or_iff :
    (or left right).isNnf = true ↔ left.isNnf = true ∧ right.isNnf = true := by
  rw [isNnf_iff]
  simp [negatesLogical, children]

theorem isNnf_intoNnf_of_not_logical (plain : expression.isLogical = false) :
    expression.intoNnf.isNnf = true ↔
      ∀ child ∈ expression.children, child.intoNnf.isNnf = true := by
  have unlogical : expression.intoNnf.negatesLogical = false := by
    have root := isLogical_intoNnf plain
    unfold negatesLogical
    split
    · rename_i operand isNot
      rw [isNot] at root
      cases root
    · rfl
  rw [isNnf_iff, unlogical, intoNnf_of_ne_not (ne_not_of_not_logical plain), children_descend]
  simp

/-- Behind negations, the other operators are in normal form if one negation or none is left. -/
theorem isNnf_iterate_of_not_logical (plain : expression.isLogical = false) (count : Nat) :
    (not^[count] expression).intoNnf.isNnf = true ↔
      (count ≤ 3 ∨ count = 5) ∧ expression.intoNnf.isNnf = true := by
  have operand := isLogical_intoNnf plain
  have twice := intoNnf_not_not (ne_not_of_not_logical plain)
  match count with
  | 0 => simp
  | 1 => simp [intoNnf_not plain, isNnf_not_iff, operand]
  | 2 => simp [Function.iterate_succ_apply, twice]
  | 3 =>
    rw [intoNnf_iterate_add_three 0, isNnf_not_iff]
    simp [operand]
  | 4 =>
    rw [intoNnf_iterate_add_three 1, isNnf_not_iff]
    simp [intoNnf_not plain, isLogical]
  | 5 =>
    rw [intoNnf_iterate_add_three 2, isNnf_not_iff]
    simp [Function.iterate_succ_apply, twice, operand]
  | count + 6 =>
    rw [intoNnf_iterate_add_three (count + 3), isNnf_not_iff, intoNnf_iterate_add_three]
    simp [isLogical]

theorem not_isNnf_iterate (connective :
    expression = and left right ∨ expression = or left right) (count : Nat) :
    (not^[count + 3] expression).intoNnf.isNnf ≠ true := by
  rw [intoNnf_iterate_add_three, Ne, isNnf_not_iff, isLogical_intoNnf_iterate connective]
  simp

/-- The negation normal form of a number of negations of an expression. -/
theorem isNnf_intoNnf_iterate (expression : Expression) (count : Nat) :
    (not^[count] expression).intoNnf.isNnf = true ↔ expression.nnfable count = true := by
  induction expression using induction_on_children generalizing count with
  | step expression ih =>
    by_cases logical : expression.isLogical = true
    · cases expression with
      | not operand =>
        rw [nnfable, ← ih operand (by simp [children]), Function.iterate_succ_apply]
      | and left right =>
        have first := ih left (by simp [children])
        have second := ih right (by simp [children])
        match count with
        | 0 => simp [nnfable, intoNnf_and, isNnf_and_iff, ← first, ← second]
        | 1 => simp [nnfable, intoNnf_not_and, isNnf_or_iff, ← first, ← second]
        | 2 => simp [Function.iterate_succ_apply, intoNnf_not_not, nnfable, intoNnf_and,
            isNnf_and_iff, ← first, ← second]
        | count + 3 =>
          exact iff_of_false (not_isNnf_iterate (.inl rfl) count) (by simp [nnfable])
      | or left right =>
        have first := ih left (by simp [children])
        have second := ih right (by simp [children])
        match count with
        | 0 => simp [nnfable, intoNnf_or, isNnf_or_iff, ← first, ← second]
        | 1 => simp [nnfable, intoNnf_not_or, isNnf_and_iff, ← first, ← second]
        | 2 => simp [Function.iterate_succ_apply, intoNnf_not_not, nnfable, intoNnf_or,
            isNnf_or_iff, ← first, ← second]
        | count + 3 =>
          exact iff_of_false (not_isNnf_iterate (.inr rfl) count) (by simp [nnfable])
      | _ => cases logical
    · have plain : expression.isLogical = false := by simpa using logical
      rw [isNnf_iterate_of_not_logical plain, isNnf_intoNnf_of_not_logical plain,
        nnfable_of_not_logical plain]
      refine and_congr_right fun _ => forall₂_congr fun child inside => ?_
      exact ih child inside 0

/-- The skeleton that an expression has once negations are pushed into it: conjunctions and
disjunctions behind one negation are exchanged, and what stands behind three or more is a
leaf. -/
def pushedSkeleton (pending : Nat) : Expression → Skeleton
  | not operand => operand.pushedSkeleton (pending + 1)
  | and left right =>
    match pending with
    | 0 | 2 => .conj (left.pushedSkeleton 0) (right.pushedSkeleton 0)
    | 1 => .disj (left.pushedSkeleton 1) (right.pushedSkeleton 1)
    | _ => .leaf
  | or left right =>
    match pending with
    | 0 | 2 => .disj (left.pushedSkeleton 0) (right.pushedSkeleton 0)
    | 1 => .conj (left.pushedSkeleton 1) (right.pushedSkeleton 1)
    | _ => .leaf
  | _ => .leaf

theorem skeleton_of_not_logical (plain : expression.isLogical = false) :
    expression.skeleton = .leaf := by
  cases expression <;> first | rfl | cases plain

theorem skeleton_iterate_of_not_logical (plain : expression.isLogical = false) (count : Nat) :
    (not^[count] expression).intoNnf.skeleton = .leaf := by
  match count with
  | 0 => exact skeleton_of_not_logical (isLogical_intoNnf plain)
  | 1 => simp [intoNnf_not plain, skeleton]
  | 2 =>
    rw [Function.iterate_succ_apply, Function.iterate_one,
      intoNnf_not_not (ne_not_of_not_logical plain)]
    exact skeleton_of_not_logical (isLogical_intoNnf plain)
  | count + 3 =>
    rw [intoNnf_iterate_add_three]
    rfl

theorem skeleton_intoNnf_iterate (expression : Expression) (count : Nat) :
    (not^[count] expression).intoNnf.skeleton = expression.pushedSkeleton count := by
  induction expression using induction_on_children generalizing count with
  | step expression ih =>
    cases expression with
    | not operand =>
      rw [pushedSkeleton, ← ih operand (by simp [children]), Function.iterate_succ_apply]
    | and left right =>
      have first := ih left (by simp [children])
      have second := ih right (by simp [children])
      match count with
      | 0 => simp [pushedSkeleton, intoNnf_and, skeleton, ← first, ← second]
      | 1 => simp [pushedSkeleton, intoNnf_not_and, skeleton, ← first, ← second]
      | 2 => simp [Function.iterate_succ_apply, intoNnf_not_not, pushedSkeleton, intoNnf_and,
          skeleton, ← first, ← second]
      | count + 3 =>
        rw [intoNnf_iterate_add_three]
        rfl
    | or left right =>
      have first := ih left (by simp [children])
      have second := ih right (by simp [children])
      match count with
      | 0 => simp [pushedSkeleton, intoNnf_or, skeleton, ← first, ← second]
      | 1 => simp [pushedSkeleton, intoNnf_not_or, skeleton, ← first, ← second]
      | 2 => simp [Function.iterate_succ_apply, intoNnf_not_not, pushedSkeleton, intoNnf_or,
          skeleton, ← first, ← second]
      | count + 3 =>
        rw [intoNnf_iterate_add_three]
        rfl
    | _ => exact skeleton_iterate_of_not_logical rfl count

section Distribution

variable {first second third left right expression : Expression}

theorem skeleton_ne_conj (other : ∀ left right, expression ≠ and left right) :
    ∀ left right, expression.skeleton ≠ .conj left right := by
  intro left right isConj
  cases expression with
  | and left right => exact other left right rfl
  | _ => cases isConj

theorem dual_skeleton_ne_conj (other : ∀ left right, expression ≠ or left right) :
    ∀ left right, expression.skeleton.dual ≠ .conj left right := by
  intro left right isConj
  cases expression with
  | or left right => exact other left right rfl
  | _ => cases isConj

theorem rewrite_cnfStep_right (other : ∀ first second, left ≠ and first second) :
    (or left (and first second)).rewrite cnfStep id =
      and ((or left first).rewrite cnfStep id) ((or left second).rewrite cnfStep id) := by
  have step : (or left (and first second)).cnfStep.1 = and (or left first) (or left second) := by
    rw [cnfStep]
    exact other
  rw [rewrite_eq, step]
  rfl

theorem rewrite_cnfStep_or (leftOther : ∀ first second, left ≠ and first second)
    (rightOther : ∀ first second, right ≠ and first second) :
    (or left right).rewrite cnfStep id =
      or (left.rewrite cnfStep id) (right.rewrite cnfStep id) := by
  have step : (or left right).cnfStep.1 = or left right := by
    rw [cnfStep]
    · rfl
    · exact fun first second _ same => leftOther first second (or.inj same).1
    · exact fun _ first second same => rightOther first second (or.inj same).2
  rw [rewrite_eq, step]
  rfl

theorem rewrite_dnfStep_right (other : ∀ first second, left ≠ or first second) :
    (and left (or first second)).rewrite dnfStep id =
      or ((and left first).rewrite dnfStep id) ((and left second).rewrite dnfStep id) := by
  have step : (and left (or first second)).dnfStep.1 = or (and left first) (and left second) := by
    rw [dnfStep]
    exact other
  rw [rewrite_eq, step]
  rfl

theorem rewrite_dnfStep_and (leftOther : ∀ first second, left ≠ or first second)
    (rightOther : ∀ first second, right ≠ or first second) :
    (and left right).rewrite dnfStep id =
      and (left.rewrite dnfStep id) (right.rewrite dnfStep id) := by
  have step : (and left right).dnfStep.1 = and left right := by
    rw [dnfStep]
    · rfl
    · exact fun first second _ same => leftOther first second (and.inj same).1
    · exact fun _ first second same => rightOther first second (and.inj same).2
  rw [rewrite_eq, step]
  rfl

/-- Walking over an expression with the distributive law distributes in its skeleton. -/
theorem skeleton_rewrite_cnfStep (expression : Expression) :
    (expression.rewrite cnfStep id).skeleton = expression.skeleton.distribute := by
  induction measured : expression.size using Nat.strong_induction_on generalizing expression with
  | _ size ih =>
    subst measured
    cases expression with
    | and left right =>
      have leftIh := ih left.size (by simp only [size]; omega) left rfl
      have rightIh := ih right.size (by simp only [size]; omega) right rfl
      rw [skeleton, Skeleton.distribute, ← leftIh, ← rightIh, rewrite_eq]
      rfl
    | or left right =>
      by_cases leftAnd : ∃ first second, left = and first second
      · obtain ⟨first, second, isLeft⟩ := leftAnd
        subst isLeft
        have firstIh := ih (or first right).size (by simp only [size]; omega) _ rfl
        have secondIh := ih (or second right).size (by simp only [size]; omega) _ rfl
        rw [skeleton] at firstIh secondIh
        rw [skeleton, skeleton, Skeleton.distribute, ← firstIh, ← secondIh, rewrite_eq]
        rfl
      · have leftOther : ∀ first second, left ≠ and first second :=
          fun first second isLeft => leftAnd ⟨first, second, isLeft⟩
        by_cases rightAnd : ∃ first second, right = and first second
        · obtain ⟨first, second, isRight⟩ := rightAnd
          subst isRight
          have firstIh := ih (or left first).size (by simp only [size]; omega) _ rfl
          have secondIh := ih (or left second).size (by simp only [size]; omega) _ rfl
          rw [skeleton] at firstIh secondIh
          rw [rewrite_cnfStep_right leftOther, skeleton, skeleton, skeleton,
            Skeleton.distribute_right (skeleton_ne_conj leftOther), ← firstIh, ← secondIh]
        · have rightOther : ∀ first second, right ≠ and first second :=
            fun first second isRight => rightAnd ⟨first, second, isRight⟩
          have leftIh := ih left.size (by simp only [size]; omega) left rfl
          have rightIh := ih right.size (by simp only [size]; omega) right rfl
          rw [rewrite_cnfStep_or leftOther rightOther, skeleton, skeleton,
            Skeleton.distribute_disj (skeleton_ne_conj leftOther)
              (skeleton_ne_conj rightOther), leftIh, rightIh]
    | _ =>
      rw [rewrite_eq]
      exact Skeleton.distribute_leaf.symm

/-- Walking over an expression with the dual law distributes in the dual of its skeleton. -/
theorem skeleton_rewrite_dnfStep (expression : Expression) :
    (expression.rewrite dnfStep id).skeleton.dual = expression.skeleton.dual.distribute := by
  induction measured : expression.size using Nat.strong_induction_on generalizing expression with
  | _ size ih =>
    subst measured
    cases expression with
    | or left right =>
      have leftIh := ih left.size (by simp only [size]; omega) left rfl
      have rightIh := ih right.size (by simp only [size]; omega) right rfl
      rw [skeleton, Skeleton.dual, Skeleton.distribute, ← leftIh, ← rightIh, rewrite_eq]
      rfl
    | and left right =>
      by_cases leftOr : ∃ first second, left = or first second
      · obtain ⟨first, second, isLeft⟩ := leftOr
        subst isLeft
        have firstIh := ih (and first right).size (by simp only [size]; omega) _ rfl
        have secondIh := ih (and second right).size (by simp only [size]; omega) _ rfl
        rw [skeleton, Skeleton.dual] at firstIh secondIh
        rw [skeleton, skeleton, Skeleton.dual, Skeleton.dual, Skeleton.distribute, ← firstIh,
          ← secondIh, rewrite_eq]
        rfl
      · have leftOther : ∀ first second, left ≠ or first second :=
          fun first second isLeft => leftOr ⟨first, second, isLeft⟩
        by_cases rightOr : ∃ first second, right = or first second
        · obtain ⟨first, second, isRight⟩ := rightOr
          subst isRight
          have firstIh := ih (and left first).size (by simp only [size]; omega) _ rfl
          have secondIh := ih (and left second).size (by simp only [size]; omega) _ rfl
          simp only [skeleton, Skeleton.dual] at firstIh secondIh
          rw [rewrite_dnfStep_right leftOther]
          simp only [skeleton, Skeleton.dual]
          rw [Skeleton.distribute_right (dual_skeleton_ne_conj leftOther), ← firstIh,
            ← secondIh]
        · have rightOther : ∀ first second, right ≠ or first second :=
            fun first second isRight => rightOr ⟨first, second, isRight⟩
          have leftIh := ih left.size (by simp only [size]; omega) left rfl
          have rightIh := ih right.size (by simp only [size]; omega) right rfl
          rw [rewrite_dnfStep_and leftOther rightOther]
          simp only [skeleton, Skeleton.dual]
          rw [Skeleton.distribute_disj (dual_skeleton_ne_conj leftOther)
            (dual_skeleton_ne_conj rightOther), leftIh, rightIh]
    | _ =>
      rw [rewrite_eq]
      exact Skeleton.distribute_leaf.symm

end Distribution

/-- **The normal forms have their shape where one pass is enough**. The negation normal form
has no negation before a logical operator exactly if the negations before each operator are few
enough. The conjunctive normal form has no AND below an OR exactly if, once negations are pushed
inside, the topmost ORs join parts that are in that form already; the disjunctive normal form
dually. -/
theorem normalForms_shaped_iff (expression : Expression) :
    (expression.intoNnf.contains negatesLogical = false ↔ expression.nnfable 0 = true) ∧
      (expression.intoCnf.skeleton.isCnf = true ↔
        (expression.pushedSkeleton 0).cnfable = true) ∧
      (expression.intoDnf.skeleton.isDnf = true ↔
        (expression.pushedSkeleton 0).dnfable = true) := by
  have pushed := skeleton_intoNnf_iterate expression 0
  rw [Function.iterate_zero_apply] at pushed
  refine ⟨?_, ?_, ?_⟩
  · rw [← isNnf_intoNnf_iterate expression 0, Function.iterate_zero_apply, isNnf,
      Bool.not_eq_true']
  · rw [intoCnf, skeleton_rewrite_cnfStep, Skeleton.isCnf_distribute, pushed]
  · rw [intoDnf, Skeleton.isDnf, skeleton_rewrite_dnfStep, Skeleton.isCnf_distribute, pushed,
      Skeleton.dnfable]

/-- Three negations of a conjunction keep one of them before it. A conjunction in the second
layer of disjunctions stays below an OR, and dually. -/
theorem normalForms_unshaped :
    (not (not (not (and (field 0 none) (field 1 none))))).intoNnf.contains negatesLogical = true ∧
      (or (or (and (field 0 none) (field 1 none)) (field 2 none))
        (field 3 none)).intoCnf.skeleton.isCnf = false ∧
      (and (and (or (field 0 none) (field 1 none)) (field 2 none))
        (field 3 none)).intoDnf.skeleton.isDnf = false := by
  decide +kernel

end Expression

end Radb.Sql
