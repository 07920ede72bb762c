import Mathlib

/-! # Trees of conjunctions and disjunctions

The skeleton of a formula is its tree of conjunctions and disjunctions, in which every other
subformula is a leaf. A single pass of the distributive law from the root down brings a
skeleton into conjunctive form exactly if the disjunctions nearest to the root join parts that
are in conjunctive form already.
-/

namespace Foundation

/-- A tree of conjunctions and disjunctions. -/
inductive Skeleton where
  | leaf
  | conj (left right : Skeleton)
  | disj (left right : Skeleton)
  deriving DecidableEq, Repr

namespace Skeleton

/-- The number of connectives and leaves. -/
def size : Skeleton → Nat
  | leaf => 1
  | conj left right => left.size + right.size + 1
  | disj left right => left.size + right.size + 1

/-- Conjunctions and disjunctions exchanged. -/
def dual : Skeleton → Skeleton
  | leaf => leaf
  | conj left right => disj left.dual right.dual
  | disj left right => conj left.dual right.dual

/-- There is no conjunction. -/
def conjFree : Skeleton → Bool
  | leaf => true
  | conj _ _ => false
  | disj left right => left.conjFree && right.conjFree

/-- There is no conjunction below a disjunction. -/
def isCnf : Skeleton → Bool
  | leaf => true
  | conj left right => left.isCnf && right.isCnf
  | disj left right => left.conjFree && right.conjFree

/-- There is no disjunction below a conjunction. -/
def isDnf (skeleton : Skeleton) : Bool := skeleton.dual.isCnf

/-- The parts joined by the disjunctions nearest to the root are in conjunctive form. -/
def cnfable : Skeleton → Bool
  | leaf => true
  | conj left right => left.cnfable && right.cnfable
  | disj left right => left.isCnf && right.isCnf

/-- The parts joined by the conjunctions nearest to the root are in disjunctive form. -/
def dnfable (skeleton : Skeleton) : Bool := skeleton.dual.cnfable

/-- Distribute disjunctions over conjunctions in one pass from the root down. -/
def distribute : Skeleton → Skeleton
  | leaf => leaf
  | conj left right => conj left.distribute right.distribute
  | disj (conj first second) right =>
    conj (disj first right).distribute (disj second right).distribute
  | disj left (conj first second) =>
    conj (disj left first).distribute (disj left second).distribute
  | disj left right => disj left.distribute right.distribute
termination_by skeleton => skeleton.size
decreasing_by all_goals simp only [size]; omega

section Equations

variable {left right first second : Skeleton}

theorem distribute_leaf : leaf.distribute = leaf := by
  rw [distribute]

theorem distribute_right (other : ∀ first second, left ≠ conj first second) :
    (disj left (conj first second)).distribute =
      conj (disj left first).distribute (disj left second).distribute := by
  rw [distribute]
  exact other

theorem distribute_disj (leftOther : ∀ first second, left ≠ conj first second)
    (rightOther : ∀ first second, right ≠ conj first second) :
    (disj left right).distribute = disj left.distribute right.distribute := by
  rw [distribute]
  · exact leftOther
  · exact rightOther

end Equations

theorem conjFree_distribute (skeleton : Skeleton) :
    skeleton.distribute.conjFree = skeleton.conjFree := by
  fun_induction distribute skeleton with
  | case1 => rfl
  | case2 => rfl
  | case3 => rfl
  | case4 left first second => simp only [conjFree, Bool.and_false]
  | case5 left right _ _ leftIh rightIh => simp only [conjFree, leftIh, rightIh]

/-- Without a conjunction at the root, conjunctive form is that there is none at all. -/
theorem isCnf_eq_conjFree {skeleton : Skeleton}
    (other : ∀ first second, skeleton ≠ conj first second) :
    skeleton.isCnf = skeleton.conjFree := by
  cases skeleton with
  | leaf => rfl
  | conj first second => exact absurd rfl (other first second)
  | disj left right => rfl

/-- One pass brings a skeleton into conjunctive form exactly if its topmost disjunctions join
conjunctive forms. -/
theorem isCnf_distribute (skeleton : Skeleton) :
    skeleton.distribute.isCnf = skeleton.cnfable := by
  fun_induction distribute skeleton with
  | case1 => rfl
  | case2 left right leftIh rightIh => simp only [isCnf, cnfable, leftIh, rightIh]
  | case3 first second right firstIh secondIh =>
    simp only [isCnf, cnfable, firstIh, secondIh]
    cases right.isCnf <;> simp
  | case4 left first second other firstIh secondIh =>
    simp only [isCnf, cnfable, firstIh, secondIh]
    cases left.isCnf <;> simp
  | case5 left right leftOther rightOther =>
    simp only [isCnf, cnfable, conjFree_distribute]
    rw [isCnf_eq_conjFree leftOther, isCnf_eq_conjFree rightOther]

end Skeleton

end Foundation
