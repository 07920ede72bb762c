import Radb.Sql.Plan.Optimizer

/-! # Constant folding

All operators evaluate both operands, so an expression that returns a value has operands that do.
What is folded ahead of time is an operand without fields, whose value is the same on every row.
-/

namespace Radb.Sql

open Foundation

namespace Expression

/-- A constant. -/
def isConstant : Expression → Bool
  | constant _ => true
  | _ => false

variable {row : Row} {expression : Expression}

/-- The operands of an expression that returns a value return values. -/
theorem exists_evaluate_child {value : Value} (returned : expression.evaluate row = .ok value)
    {child : Expression} (inside : child ∈ expression.children) :
    ∃ argument, child.evaluate row = .ok argument := by
  cases expression with
  | constant | field => cases inside
  | not | isNull | assert | factorial | negate =>
    obtain ⟨argument, evaluated, _⟩ := bind_eq_ok.mp returned
    cases List.mem_singleton.mp inside
    exact ⟨argument, evaluated⟩
  | and | or | equal | greaterThan | lessThan | add | divide | exponentiate | modulo | multiply
  | subtract | like =>
    obtain ⟨first, firstEvaluated, rest⟩ := bind_eq_ok.mp returned
    obtain ⟨second, secondEvaluated, _⟩ := bind_eq_ok.mp rest
    simp only [children, List.mem_cons, List.not_mem_nil, or_false] at inside
    obtain rfl | rfl := inside
    · exact ⟨first, firstEvaluated⟩
    · exact ⟨second, secondEvaluated⟩

theorem isField_descend (which : Nat → Bool) (visit : Expression → Expression) :
    (Id.run (expression.descend fun child _ => pure (visit child))).isField which =
      expression.isField which := by
  cases expression <;> rfl

end Expression

namespace ConstantFolder

open Expression

/-- The folding of an expression. -/
def foldAll (expression : Expression) : Except Fault Expression := expression.transform fold .ok

/-- A part of a folded expression refers to a field or is a constant. -/
def isFolded (part : Expression) : Bool := part.refers (fun _ => true) || part.isConstant

/-- An expression without fields is folded to its value. -/
theorem foldAll_of_constant {expression : Expression} {row : Row} {value : Value}
    (plain : expression.refers (fun _ => true) = false)
    (returned : expression.evaluate row = .ok value) :
    foldAll expression = .ok (.constant value) := by
  have same : expression.evaluate [] = .ok value := by
    rw [evaluate_congr (fun _ absurd => by cases absurd) expression plain, returned]
  rw [foldAll, transform, fold, plain, same]
  rfl

theorem foldAll_of_field {expression : Expression} {visit : Expression → Expression}
    (refers : expression.refers (fun _ => true) = true)
    (each : ∀ child ∈ expression.children, foldAll child = .ok (visit child)) :
    foldAll expression = .ok (Id.run (expression.descend fun child _ => pure (visit child))) := by
  rw [foldAll, transform, fold, refers]
  change (expression.descend fun child _ => foldAll child) >>= Except.ok = _
  rw [descend_eq_ok each]
  rfl

/-- **Constant folding preserves evaluation.** An expression that returns a value on a row is
folded to one that returns the same value on it, all of whose parts without fields are constants. -/
theorem foldAll_preserves (expression : Expression) (row : Row) (value : Value)
    (returned : expression.evaluate row = .ok value) :
    ∃ folded, foldAll expression = .ok folded ∧ folded.evaluate row = .ok value ∧
      folded.walk isFolded = true := by
  -- the induction also needs that folding leaves a field where there was one
  suffices ∃ folded, foldAll expression = .ok folded ∧ folded.evaluate row = .ok value ∧
      folded.walk isFolded = true ∧
        folded.refers (fun _ => true) = expression.refers (fun _ => true) by
    obtain ⟨folded, isFold, evaluated, parts, _⟩ := this
    exact ⟨folded, isFold, evaluated, parts⟩
  induction expression using induction_on_children generalizing value with
  | step expression ih =>
    cases refers : expression.refers fun _ => true with
    | false =>
      refine ⟨.constant value, foldAll_of_constant refers returned, rfl, ?_,
        refers_constant value⟩
      exact walk_iff.mpr ⟨by simp [isFolded, isConstant], by simp [children]⟩
    | true =>
      have each (child : Expression) (inside : child ∈ expression.children) :
          ∃ folded, foldAll child = .ok folded ∧ child.Refines row folded ∧
            folded.walk isFolded = true ∧
            folded.refers (fun _ => true) = child.refers (fun _ => true) := by
        obtain ⟨argument, evaluated⟩ := exists_evaluate_child returned inside
        obtain ⟨folded, isFold, same, parts⟩ := ih child inside argument evaluated
        refine ⟨folded, isFold, ?_, parts⟩
        intro other also
        cases evaluated.symm.trans also
        exact same
      choose! visit isFold refines parts fields using each
      have kept : (Id.run (expression.descend fun child _ => pure (visit child))).refers
          (fun _ => true) = true := by
        rw [refers_iff, isField_descend, children_descend]
        refine (refers_iff.mp refers).imp_right ?_
        intro ⟨child, inside, found⟩
        exact ⟨visit child, List.mem_map_of_mem inside, (fields child inside).trans found⟩
      refine ⟨_, foldAll_of_field refers isFold, Refines.descend refines value returned, ?_,
        kept⟩
      refine walk_iff.mpr ⟨by rw [isFolded, kept]; rfl, ?_⟩
      rw [children_descend]
      intro part inside
      obtain ⟨child, isIn, rfl⟩ := List.mem_map.mp inside
      exact parts child isIn

/-- `2 + 3 > #0` is folded to `5 > #0`. -/
theorem foldAll_preserves_sum :
    (greaterThan (add (constant (.integer 2)) (constant (.integer 3))) (field 0 none)).evaluate
        [.integer 4] = .ok (.boolean true) ∧
      ∃ folded, foldAll (greaterThan (add (constant (.integer 2)) (constant (.integer 3)))
          (field 0 none)) = .ok folded ∧
        folded.evaluate [.integer 4] = .ok (.boolean true) ∧ folded.walk isFolded = true :=
  have returned : (greaterThan (add (constant (.integer 2)) (constant (.integer 3)))
      (field 0 none)).evaluate [.integer 4] = .ok (.boolean true) := by decide +kernel
  ⟨returned, foldAll_preserves _ _ _ returned⟩

end ConstantFolder

end Radb.Sql
