import Radb.Sql.Types.Expression

/-! # The order of values

How values are compared for sorting and for extremes: NULL comes first, numbers are
compared across their types, and values of other different types are incomparable.
-/

namespace Radb.Sql

open Foundation

/-- The order of two floats, unless one of them is not a number. -/
def compareFloats (first second : Binary64) : Option Ordering :=
  if first.below second then some .lt
  else if second.below first then some .gt
  else if first.equals second then some .eq
  else none

namespace Value

/-- The order of two values, if they are comparable. -/
def partialCmp : Value → Value → Option Ordering
  | null, null => some .eq
  | null, _ => some .lt
  | _, null => some .gt
  | boolean first, boolean second => some (Ord.compare first second)
  | float first, float second => compareFloats first second
  | float first, integer second => compareFloats first (toFloat second)
  | integer first, float second => compareFloats (toFloat first) second
  | integer first, integer second => some (Ord.compare first.toInt second.toInt)
  | string first, string second => some (Ord.compare first second)
  | _, _ => none

variable {first second : Value}

/-- A comparison is a truth value or NULL. -/
theorem equal_eq_ok {result : Value} (compared : equal first second = .ok result) :
    result = null ∨ ∃ truth, result = boolean truth := by
  cases first <;> cases second <;>
    simp only [equal, compare, Except.ok.injEq, reduceCtorEq] at compared <;>
    first
      | exact .inl compared.symm
      | exact .inr ⟨_, compared.symm⟩

/-- NULL is not equal to anything. -/
theorem ne_null_of_equal (same : equal first second = .ok (boolean true)) :
    first ≠ null ∧ second ≠ null := by
  cases first <;> cases second <;> simp_all [equal, compare]

theorem equal_comm_true (same : equal first second = .ok (boolean true)) :
    equal second first = .ok (boolean true) := by
  cases first <;> cases second <;>
    simp only [equal, compare, reduceCtorEq, Except.ok.injEq, boolean.injEq,
      decide_eq_true_eq] at same ⊢
  · exact same.symm
  · exact same.symm
  · rw [Binary64.equals_comm]
    exact same
  · rw [Binary64.equals_comm]
    exact same
  · rw [Binary64.equals_comm]
    exact same
  · exact same.symm

/-- Numbers and other values are equal to themselves, but neither NULL nor NaN is. -/
theorem equal_self_iff : equal first first = .ok (boolean true) ↔
    first ≠ null ∧ first.isNaN = false := by
  cases first <;> simp [equal, compare, isNaN]

/-- Two different integers equal one float. -/
def throughFloat : Value → Value → Value → Bool
  | integer first, float middle, integer last =>
    first ≠ last && (toFloat first).equals middle && middle.equals (toFloat last)
  | _, _, _ => false

/-- Equality is transitive, unless it leads from one integer through a float to another. -/
theorem equal_trans {middle last : Value} (left : equal first middle = .ok (boolean true))
    (right : equal middle last = .ok (boolean true))
    (exact : throughFloat first middle last = false) : equal first last = .ok (boolean true) := by
  cases first <;> cases middle <;>
    simp only [equal, compare, reduceCtorEq, Except.ok.injEq, boolean.injEq,
      decide_eq_true_eq] at left <;>
    cases last <;>
    simp only [equal, compare, reduceCtorEq, Except.ok.injEq, boolean.injEq,
      decide_eq_true_eq] at right ⊢
  · exact left.trans right
  · exact left.trans right
  · rw [left]
    exact right
  · simpa [throughFloat, left, right] using exact
  · exact Binary64.equals_trans left right
  · rw [← right]
    exact left
  · exact Binary64.equals_trans left right
  · exact Binary64.equals_trans left right
  · exact Binary64.equals_trans left right
  · exact left.trans right

/-- Two values can be compared. -/
def Comparable (first second : Value) : Prop := ∃ result, equal first second = .ok result

/-- The kind of a value among which it is comparable: numbers are of one kind. -/
def kind : Value → Option DataType
  | null => none
  | boolean _ => some .boolean
  | integer _ => some .float
  | float _ => some .float
  | string _ => some .string

/-- NULL is comparable with everything, and other values with those of their kind. -/
theorem comparable_iff :
    Comparable first second ↔ first = null ∨ second = null ∨ first.kind = second.kind := by
  cases first <;> cases second <;> simp [Comparable, equal, compare, kind]

theorem Comparable.symm (comparable : Comparable first second) : Comparable second first := by
  rw [comparable_iff] at comparable ⊢
  obtain isNull | isNull | same := comparable
  · exact .inr (.inl isNull)
  · exact .inl isNull
  · exact .inr (.inr same.symm)

theorem Comparable.trans {middle last : Value} (present : middle ≠ null)
    (left : Comparable first middle) (right : Comparable middle last) :
    Comparable first last := by
  rw [comparable_iff] at left right ⊢
  obtain isNull | isNull | same := left
  · exact .inl isNull
  · exact absurd isNull present
  · obtain isNull | isNull | again := right
    · exact absurd isNull present
    · exact .inr (.inl isNull)
    · exact .inr (.inr (same.trans again))

end Value

end Radb.Sql
