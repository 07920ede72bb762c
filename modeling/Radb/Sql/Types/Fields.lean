import Radb.Sql.Types.Transform

/-! # The fields of an expression

Which fields an expression refers to, and how they are renumbered. An expression has the same
value on two rows that agree on its fields.
-/

namespace Radb.Sql

open Foundation

namespace Expression

/-- A field whose number has a property. -/
def isField (which : Nat → Bool) : Expression → Bool
  | field index _ => which index
  | _ => false

/-- Whether an expression refers to a field whose number has a property. -/
def refers (which : Nat → Bool) (expression : Expression) : Bool :=
  expression.contains (isField which)

section Fields

variable {which : Nat → Bool} {expression : Expression}

theorem refers_iff : expression.refers which = true ↔ expression.isField which = true ∨
    ∃ child ∈ expression.children, child.refers which = true :=
  contains_iff

theorem refers_eq_false_iff : expression.refers which = false ↔
    expression.isField which = false ∧ ∀ child ∈ expression.children, child.refers which = false := by
  rw [← Bool.not_eq_true, refers_iff]
  simp

@[simp] theorem refers_field (index : Nat) (label : Label) :
    (field index label).refers which = which index := by
  rw [Bool.eq_iff_iff, refers_iff]
  simp [isField, children]

@[simp] theorem refers_constant (value : Value) : (constant value).refers which = false := by
  rw [refers_eq_false_iff]
  simp [isField, children]

@[simp] theorem refers_equal (left right : Expression) :
    (equal left right).refers which = (left.refers which || right.refers which) := by
  rw [Bool.eq_iff_iff, refers_iff]
  simp [isField, children]

@[simp] theorem refers_and (left right : Expression) :
    (and left right).refers which = (left.refers which || right.refers which) := by
  rw [Bool.eq_iff_iff, refers_iff]
  simp [isField, children]

@[simp] theorem refers_or (left right : Expression) :
    (or left right).refers which = (left.refers which || right.refers which) := by
  rw [Bool.eq_iff_iff, refers_iff]
  simp [isField, children]

/-- The value of an operator depends on the values of its operands only. -/
theorem evaluate_descend {visit : Expression → Expression} {first second : Row}
    (plain : ∀ index label, expression ≠ field index label)
    (each : ∀ child ∈ expression.children, (visit child).evaluate second = child.evaluate first) :
    (Id.run (expression.descend fun child _ => pure (visit child))).evaluate second =
      expression.evaluate first := by
  cases expression with
  | field index label => exact absurd rfl (plain index label)
  | constant value => rfl
  | not operand | isNull operand | assert operand | factorial operand | negate operand =>
    have operandSame := each operand (by simp [children])
    simp [descend, evaluate, operandSame]
  | and left right | or left right | equal left right | greaterThan left right
  | lessThan left right | add left right | divide left right | exponentiate left right
  | modulo left right | multiply left right | subtract left right | like left right =>
    have leftSame := each left (by simp [children])
    have rightSame := each right (by simp [children])
    simp [descend, evaluate, leftSame, rightSame]

theorem descend_same (expression : Expression) :
    Id.run (expression.descend fun child _ => pure child) = expression := by
  cases expression <;> rfl

/-- Rows that agree on the fields of an expression give it the same value. -/
theorem evaluate_congr {first second : Row}
    (agree : ∀ index, which index = false → second[index]?.getD .null = first[index]?.getD .null)
    (expression : Expression) (absent : expression.refers which = false) :
    expression.evaluate second = expression.evaluate first := by
  induction expression using induction_on_children with
  | step expression ih =>
    obtain ⟨here, below⟩ := refers_eq_false_iff.mp absent
    by_cases isField : ∃ index label, expression = field index label
    · obtain ⟨index, label, isField⟩ := isField
      subst isField
      rw [evaluate, evaluate, agree index here]
    · have kept : (Id.run (expression.descend fun child _ => pure child)).evaluate second =
          expression.evaluate first :=
        evaluate_descend (fun index label same => isField ⟨index, label, same⟩)
          fun child inside => ih child inside (below child inside)
      rwa [descend_same] at kept

/-- A descent whose visits return is one whose visits never fail. -/
theorem descend_eq_ok {visit : (child : Expression) → child ∈ expression.children →
      Except Fault Expression} {result : Expression → Expression}
    (each : ∀ child (inside : child ∈ expression.children),
      visit child inside = .ok (result child)) :
    expression.descend visit =
      .ok (Id.run (expression.descend fun child _ => pure (result child))) := by
  have returns : visit = fun child _ => .ok (result child) := by
    funext child inside
    exact each child inside
  subst returns
  cases expression <;> rfl

end Fields

/-- Shift a field to the left by a number of columns. -/
def shiftField (boundary : Nat) : (expression : Expression) → Except Fault (Smaller expression)
  | field index label =>
    if index < boundary then .error (.panic "attempt to subtract with overflow")
    else .ok ⟨field (index - boundary) label, by simp [children]⟩
  | expression => .ok expression.same

/-- Shift all fields to the left by a number of columns. -/
def shift (boundary : Nat) (expression : Expression) : Except Fault Expression :=
  expression.transform (shiftField boundary) .ok

theorem shiftField_of_ne_field {boundary : Nat} {expression : Expression}
    (plain : ∀ index label, expression ≠ field index label) :
    shiftField boundary expression = .ok expression.same := by
  cases expression with
  | field index label => exact absurd rfl (plain index label)
  | _ => rfl

/-- Shifting the fields of the columns behind a row returns an expression with the same value
on the rest of the columns. -/
theorem shift_spec (left : Row) (expression : Expression)
    (absent : expression.refers (· < left.length) = false) :
    ∃ shifted, expression.shift left.length = .ok shifted ∧
      ∀ right, shifted.evaluate right = expression.evaluate (left ++ right) := by
  induction expression using induction_on_children with
  | step expression ih =>
    obtain ⟨here, below⟩ := refers_eq_false_iff.mp absent
    by_cases isField : ∃ index label, expression = field index label
    · obtain ⟨index, label, isField⟩ := isField
      subst isField
      have behind : left.length ≤ index := by simpa [Expression.isField] using here
      refine ⟨field (index - left.length) label, ?_, ?_⟩
      · rw [shift, transform, shiftField, if_neg (by omega)]
        rfl
      · intro right
        simp only [evaluate, List.getElem?_append_right behind]
    · have plain : ∀ index label, expression ≠ field index label :=
        fun index label same => isField ⟨index, label, same⟩
      choose! shifted returned same using fun child inside =>
        ih child inside (below child inside)
      refine ⟨Id.run (expression.descend fun child _ => pure (shifted child)), ?_, ?_⟩
      · rw [shift, transform, shiftField_of_ne_field plain]
        have descended : expression.descend (fun child _ =>
            child.transform (shiftField left.length) .ok) = .ok _ :=
          descend_eq_ok fun child inside => returned child inside
        change (expression.descend fun child _ =>
            child.transform (shiftField left.length) .ok) >>= Except.ok = _
        rw [descended]
        rfl
      · intro right
        exact evaluate_descend plain fun child inside => same child inside right

end Expression

end Radb.Sql
