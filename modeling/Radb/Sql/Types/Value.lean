import Mathlib
import Radb.Error
import Radb.Foundation.Binary64

/-! # SQL values

Values, their datatypes and the three notions of equality the code uses: `==`, the
lookup in a hash table, and the equality of the bit patterns (on which keys are
encoded). Integers have 64 bits, and a float is its bit pattern.
-/

namespace Radb.Sql

open Foundation

/-- How a function stops without returning: an error result, or a panic. -/
inductive Fault where
  | error (error : Error)
  | panic (message : String)
  deriving DecidableEq

/-- A value error. -/
abbrev Fault.value (message : String) : Fault := .error (.value message)

/-- A datatype. -/
inductive DataType where
  | boolean
  | integer
  | float
  | string
  deriving DecidableEq

instance : ToString DataType where
  toString
    | .boolean => "BOOLEAN"
    | .integer => "INTEGER"
    | .float => "FLOAT"
    | .string => "STRING"

/-- A specific value of a data type. -/
inductive Value where
  | null
  | boolean (value : Bool)
  | integer (value : Int64)
  | float (value : Binary64)
  | string (value : String)
  deriving DecidableEq

instance : ToString Value where
  toString
    | .null => "NULL"
    | .boolean value => if value then "TRUE" else "FALSE"
    | .integer value => toString value.toInt
    | .float value => value.display
    | .string value => value

/-- A row of values. -/
abbrev Row := List Value

namespace Value

variable {first second : Value}

/-- Returns the value's datatype, or none for null values. -/
def datatype : Value → Option DataType
  | null => none
  | boolean _ => some .boolean
  | integer _ => some .integer
  | float _ => some .float
  | string _ => some .string

/-- The equality `==`: NULL equals itself, numbers of different types differ, and
floats are compared as numbers. -/
def equals : Value → Value → Bool
  | null, null => true
  | boolean first, boolean second => first = second
  | integer first, integer second => first = second
  | float first, float second => first.equals second
  | string first, string second => first = second
  | _, _ => false

/-- Whether a hash table finds a stored value when given another: they must have the
same hash, which is taken of the bit pattern, and be equal. -/
def finds (stored sought : Value) : Bool := stored = sought && sought.equals sought

/-- Whether a value is a float that is not a number. -/
def isNaN : Value → Bool
  | float number => number.isNaN
  | _ => false

/-- Whether a value is negative zero. -/
def isNegativeZero : Value → Bool
  | float number => number = Binary64.negativeZero
  | _ => false

/-- Neither NaN nor negative zero. -/
def isPlain (value : Value) : Bool := !value.isNaN && !value.isNegativeZero

@[simp] theorem equals_self (value : Value) : value.equals value = !value.isNaN := by
  cases value <;> simp [equals, isNaN]

theorem equals_comm (first second : Value) : first.equals second = second.equals first := by
  cases first <;> cases second <;>
    simp only [equals, Binary64.equals_comm, eq_comm]

theorem equals_trans {third : Value} (left : first.equals second = true)
    (right : second.equals third = true) : first.equals third = true := by
  cases first <;> cases second <;> simp only [equals, Bool.false_eq_true] at left <;>
    cases third <;> simp only [equals, Bool.false_eq_true] at right ⊢
  · simp_all
  · simp_all
  · exact Binary64.equals_trans left right
  · simp_all

theorem datatype_eq_of_equals (same : first.equals second = true) :
    first.datatype = second.datatype := by
  cases first <;> cases second <;> simp_all [equals, datatype]

/-- Equal values that are not negative zero are the same. -/
theorem eq_of_equals (same : first.equals second = true) (left : first.isNegativeZero = false)
    (right : second.isNegativeZero = false) :
    first = second := by
  cases first <;> cases second <;> simp only [equals, Bool.false_eq_true] at same
  · rfl
  · simp_all
  · simp_all
  · rw [Binary64.equals_iff] at same
    simp only [isNegativeZero, decide_eq_false_iff_not] at left right
    rw [Binary64.eq_of_position same.2.2 left right]
  · simp_all

/-- Plain values are equal exactly if they are the same. -/
theorem equals_iff_eq (left : first.isPlain = true) (right : second.isPlain = true) :
    first.equals second = true ↔ first = second := by
  simp only [isPlain, Bool.and_eq_true, Bool.not_eq_true'] at left right
  refine ⟨fun same => eq_of_equals same left.2 right.2, ?_⟩
  rintro rfl
  rw [equals_self, left.1, Bool.not_false]

theorem finds_iff {stored sought : Value} :
    stored.finds sought = true ↔ stored = sought ∧ sought.isNaN = false := by
  simp [finds]

end Value

/-- A hash set of values, in the order in which it is iterated. -/
abbrev HashSet := List Value

namespace HashSet

/-- Add a value unless it is found. Hashing NULL never returns. -/
def insert (set : HashSet) (value : Value) : Except Fault HashSet :=
  match value with
  | .null => .error (.panic "stack overflow")
  | value => .ok (if set.any fun stored => stored.finds value then set else set ++ [value])

/-- Remove a value if it is found. Hashing NULL never returns. -/
def remove (set : HashSet) (value : Value) : Except Fault HashSet :=
  match value with
  | .null => .error (.panic "stack overflow")
  | value => .ok (set.filter fun stored => !stored.finds value)

variable {set next : HashSet} {value : Value}

/-- Adding a value adds it and nothing else. -/
theorem mem_insert (inserted : insert set value = .ok next) (other : Value) :
    other ∈ next ↔ other ∈ set ∨ other = value := by
  have result : next = if set.any fun stored => stored.finds value then set else set ++ [value] := by
    cases value <;> simp_all [insert]
  rw [result]
  split
  · next found =>
    obtain ⟨stored, member, found⟩ := List.any_eq_true.mp found
    obtain ⟨rfl, _⟩ := Value.finds_iff.mp found
    constructor
    · exact .inl
    · rintro (old | rfl)
      · exact old
      · exact member
  · simp

theorem nodup_insert (inserted : insert set value = .ok next) (number : value.isNaN = false)
    (distinct : set.Nodup) : next.Nodup := by
  have result : next = if set.any fun stored => stored.finds value then set else set ++ [value] := by
    cases value <;> simp_all [insert]
  rw [result]
  split
  · exact distinct
  · next missing =>
    rw [List.nodup_append]
    refine ⟨distinct, List.nodup_singleton _, ?_⟩
    intro stored member other same
    rw [List.mem_singleton.mp same]
    rintro rfl
    exact missing (List.any_eq_true.mpr ⟨stored, member, Value.finds_iff.mpr ⟨rfl, number⟩⟩)

/-- Removing a value that is a number removes it and nothing else. -/
theorem mem_remove (removed : remove set value = .ok next) (number : value.isNaN = false)
    (other : Value) : other ∈ next ↔ other ∈ set ∧ other ≠ value := by
  have result : next = set.filter fun stored => !stored.finds value := by
    cases value <;> simp_all [remove]
  rw [result, List.mem_filter, Bool.not_eq_true', ← Bool.not_eq_true, Value.finds_iff]
  simp [number]

theorem nodup_remove (removed : remove set value = .ok next) (distinct : set.Nodup) :
    next.Nodup := by
  have result : next = set.filter fun stored => !stored.finds value := by
    cases value <;> simp_all [remove]
  rw [result]
  exact distinct.filter _

end HashSet

end Radb.Sql
