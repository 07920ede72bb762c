import Mathlib

/-! # Three-valued logic

Kleene's logic of truth, falsity and the unknown: the laws by which formulas are brought
into normal form.
-/

namespace Foundation

/-- A truth value, or none if it is not known. -/
abbrev Kleene := Option Bool

namespace Kleene

/-- Conjunction: false if one side is, and else unknown if one side is. -/
def conj : Kleene → Kleene → Kleene
  | some false, _ => some false
  | _, some false => some false
  | some true, some true => some true
  | _, _ => none

/-- Disjunction: true if one side is, and else unknown if one side is. -/
def disj : Kleene → Kleene → Kleene
  | some true, _ => some true
  | _, some true => some true
  | some false, some false => some false
  | _, _ => none

/-- Negation. -/
def neg : Kleene → Kleene := Option.map (!·)

theorem neg_neg (first : Kleene) : neg (neg first) = first := by
  revert first
  decide

theorem neg_conj (first second : Kleene) :
    neg (conj first second) = disj (neg first) (neg second) := by
  revert first second
  decide

theorem neg_disj (first second : Kleene) :
    neg (disj first second) = conj (neg first) (neg second) := by
  revert first second
  decide

section

variable (first second third : Kleene)

theorem conj_assoc : conj (conj first second) third = conj first (conj second third) := by
  revert first second third
  decide

theorem disj_assoc : disj (disj first second) third = disj first (disj second third) := by
  revert first second third
  decide

theorem disj_conj_left :
    disj (conj first second) third = conj (disj first third) (disj second third) := by
  revert first second third
  decide

theorem disj_conj_right :
    disj first (conj second third) = conj (disj first second) (disj first third) := by
  revert first second third
  decide

theorem conj_disj_left :
    conj (disj first second) third = disj (conj first third) (conj second third) := by
  revert first second third
  decide

theorem conj_disj_right :
    conj first (disj second third) = disj (conj first second) (conj first third) := by
  revert first second third
  decide

end

theorem conj_eq_true (first second : Kleene) :
    conj first second = some true ↔ first = some true ∧ second = some true := by
  revert first second
  decide

theorem disj_eq_true (first second : Kleene) :
    disj first second = some true ↔ first = some true ∨ second = some true := by
  revert first second
  decide

end Kleene

end Foundation
