import Radb.Sql.Execution.Query

/-! # Sorting

ORDER BY treats values that are not comparable as equal, and compares integers with floats after
rounding them. Its comparison is a total preorder, and its result is sorted, exactly if no value
ties with two others that differ.
-/

namespace Radb.Sql

open Foundation Foundation.Script

namespace Value

variable {first middle last : Value}

/-- How a sort key orders two values, which tie if they are not comparable. -/
def standing (first second : Value) : Ordering := (first.partialCmp second).getD .eq

theorem compareFloats_eq (first second : Binary64) : compareFloats first second =
    if first.isNaN || second.isNaN then none else some (Ord.compare first.position second.position) := by
  unfold compareFloats Binary64.below Binary64.equals
  cases first.isNaN <;> cases second.isNaN <;>
    simp only [Bool.not_true, Bool.not_false, Bool.false_and, Bool.true_and, Bool.or_true,
      Bool.or_false, Bool.false_eq_true, ↓reduceIte, decide_eq_true_eq, beq_iff_eq]
  obtain less | same | greater := lt_trichotomy first.position second.position
  · simp [less, Int.compare_eq_lt.mpr less]
  · simp [same]
  · simp [greater, greater.not_gt, Int.compare_eq_gt.mpr greater]

theorem partialCmp_swap (first second : Value) :
    second.partialCmp first = (first.partialCmp second).map Ordering.swap := by
  have floats (left right : Binary64) :
      compareFloats right left = (compareFloats left right).map Ordering.swap := by
    rw [compareFloats_eq, compareFloats_eq, Bool.or_comm]
    split
    · rfl
    · exact congrArg some Std.OrientedCmp.eq_swap
  cases first <;> cases second <;>
    first
      | rfl
      | exact floats ..
      | exact congrArg some Std.OrientedCmp.eq_swap

theorem compareFloats_eq_lt {first second : Binary64} : compareFloats first second = some .lt ↔
    first.isNaN = false ∧ second.isNaN = false ∧ first.position < second.position := by
  rw [compareFloats_eq]
  cases first.isNaN <;> cases second.isNaN <;> simp [Int.compare_eq_lt]

theorem compareFloats_eq_none {first second : Binary64} : compareFloats first second = none ↔
    first.isNaN = true ∨ second.isNaN = true := by
  rw [compareFloats_eq]
  cases first.isNaN <;> cases second.isNaN <;> simp

theorem compareFloats_ties {first second : Binary64} :
    (compareFloats first second).getD .eq = .eq ↔
      first.isNaN = true ∨ second.isNaN = true ∨ first.position = second.position := by
  rw [compareFloats_eq]
  cases first.isNaN <;> cases second.isNaN <;> simp

/-- The order of values has no cycles: the conversion of integers keeps their order. -/
theorem partialCmp_trans (left : first.partialCmp middle = some .lt)
    (right : middle.partialCmp last = some .lt) : first.partialCmp last = some .lt := by
  have rounds {number other : Int64} (less : number.toInt < other.toInt) :
      (toFloat number).position ≤ (toFloat other).position :=
    Binary64.position_ofInt_mono less.le
  have unrounds {number other : Int64} (less : (toFloat number).position < (toFloat other).position) :
      number.toInt < other.toInt := by
    by_contra wrong
    have := Binary64.position_ofInt_mono (not_lt.mp wrong)
    exact less.not_ge this
  have finite (number : Int64) : (toFloat number).isNaN = false := (Binary64.position_ofInt _).1
  cases first <;> cases middle <;> cases last <;>
    simp only [partialCmp, reduceCtorEq, Option.some.injEq, compareFloats_eq_lt, finite,
      true_and, Int.compare_eq_lt] at left right ⊢
  case boolean.boolean.boolean | string.string.string => exact Std.TransCmp.lt_trans left right
  case integer.float.integer => exact unrounds (left.2.trans right.2)
  all_goals grind

/-- A value ties with two others that differ: it is of another type, or not a number, or a float
that two integers are rounded to. -/
def blurs (middle first last : Value) : Prop :=
  first.partialCmp last = some .lt ∧ first ≠ null ∧
    (first.partialCmp middle = none ∨ throughFloat first middle last = true)

instance : Decidable (blurs middle first last) := inferInstanceAs (Decidable (_ ∧ _))

theorem blurs_iff : blurs middle first last ↔
    first.partialCmp last = some .lt ∧ standing first middle = .eq ∧ standing middle last = .eq := by
  have finite (number : Int64) : (toFloat number).isNaN = false := (Binary64.position_ofInt _).1
  unfold blurs
  refine and_congr_right fun less => ?_
  cases first <;> cases last <;>
    simp only [partialCmp, reduceCtorEq, Option.some.injEq, compareFloats_eq_lt, finite,
      true_and, Int.compare_eq_lt] at less <;>
    cases middle <;>
    simp [standing, partialCmp, throughFloat, compareFloats_eq_none, compareFloats_ties, finite,
      Binary64.equals_iff, Int64.toInt_inj]
  all_goals grind

theorem standing_swap (first second : Value) : standing first second = (standing second first).swap := by
  rw [standing, partialCmp_swap]
  unfold standing
  cases second.partialCmp first <;> rfl

theorem standing_eq_lt : standing first last = .lt ↔ first.partialCmp last = some .lt := by
  unfold standing
  cases first.partialCmp last <;> simp

/-- A sort key is a total preorder of the things it is taken of exactly if none of its values ties
with two that differ. -/
theorem transCmp_standing_iff {Item : Type} (value : Item → Value) :
    Std.TransCmp (fun first second => standing (value first) (value second)) ↔
      ∀ middle first last, ¬blurs (value middle) (value first) (value last) := by
  constructor
  · intro preorder middle first last blurred
    obtain ⟨less, left, right⟩ := blurs_iff.mp blurred
    have back := preorder.isLE_trans (a := last) (b := middle) (c := first)
      (by rw [standing_swap, right]; rfl) (by rw [standing_swap, left]; rfl)
    rw [standing_swap, standing_eq_lt.mpr less] at back
    cases back
  · intro clear
    have oriented : Std.OrientedCmp fun first second : Item => standing (value first) (value second) :=
      ⟨standing_swap ..⟩
    refine ⟨fun {first middle last} left right => ?_⟩
    -- If the last came before the first, one of them or a tie would be passed on to the middle.
    by_contra wrong
    have greater : standing (value last) (value first) = .lt := by
      rw [standing_swap]
      cases result : standing (value first) (value last) with
      | gt => rfl
      | _ => simp [result] at wrong
    have below := standing_eq_lt.mp greater
    cases leftStanding : standing (value first) (value middle) with
    | gt => simp [leftStanding] at left
    | lt =>
      have less := partialCmp_trans below (standing_eq_lt.mp leftStanding)
      rw [standing_swap, standing_eq_lt.mpr less] at right
      cases right
    | eq =>
      cases rightStanding : standing (value middle) (value last) with
      | gt => simp [rightStanding] at right
      | lt =>
        have less := partialCmp_trans (standing_eq_lt.mp rightStanding) below
        rw [standing_swap, standing_eq_lt.mpr less] at leftStanding
        cases leftStanding
      | eq =>
        refine clear middle last first (blurs_iff.mpr ⟨below, ?_, ?_⟩)
        · rw [standing_swap, rightStanding]
          rfl
        · rw [standing_swap, leftStanding]
          rfl

end Value

namespace Order

/-- The value of a sort key for a row, if it has one. -/
def key (row : Row) (order : Expression × Direction) : Value :=
  match order.1.evaluate row with
  | .ok value => value
  | .error _ => .null

/-- The comparison of two rows. -/
def compareRows (orders : List (Expression × Direction)) (first second : Row) : Ordering :=
  compare orders (orders.map (key first)) (orders.map (key second))

/-- The comparison is a total preorder of the rows, and a list is their stable sort. -/
structure Sorts (orders : List (Expression × Direction)) (rows sorted : List Row) : Prop where
  preorder : Std.TransCmp fun first second : {row // row ∈ rows} =>
    compareRows orders first.1 second.1
  permutes : sorted.Perm rows
  ordered : sorted.Pairwise fun first second => compareRows orders first second ≠ .gt
  stable : ∀ first second, compareRows orders first second = .eq →
    [first, second].Sublist rows → [first, second].Sublist sorted

/-- The keys are compared one after the other. -/
theorem compareRows_cons (order : Expression × Direction) (orders : List (Expression × Direction)) :
    compareRows (order :: orders) = compareLex
      (fun first second => if order.2 = .ascending then (key first order).standing (key second order)
        else ((key first order).standing (key second order)).swap) (compareRows orders) := by
  funext first second
  unfold compareRows compareLex Value.standing
  rw [List.map_cons, List.map_cons, compare]
  beta_reduce
  generalize (key first order).partialCmp (key second order) = result
  cases result with
  | none => simp
  | some result => cases result <;> by_cases order.2 = .ascending <;> simp_all

section

variable {orders : List (Expression × Direction)} {rows : List Row}

theorem item_eq {row : Row}
    (evaluates : ∀ order ∈ orders, ∃ value, order.1.evaluate row = .ok value) :
    item orders row = .ok (row, orders.map (key row)) := by
  have keys : orders.mapM (fun order => order.1.evaluate row) = .ok (orders.map (key row)) := by
    rw [mapM_eq_ok, List.forall₂_map_right_iff, List.forall₂_same]
    intro order inside
    obtain ⟨value, found⟩ := evaluates order inside
    rw [key, found]
  rw [item, keys]
  rfl

/-- The executor sorts the rows by their comparison. -/
theorem apply_eq (columns : Columns)
    (evaluates : ∀ order ∈ orders, ∀ row ∈ rows, ∃ value, order.1.evaluate row = .ok value) :
    apply orders (.query columns (rows.map .ok)) = .ok (.query columns
      ((rows.mergeSort fun first second => compareRows orders first second ≠ .gt).map .ok)) := by
  have items : (rows.map Except.ok).mapM (fun row => do item orders (← row)) =
      .ok (rows.map fun row => (row, orders.map (key row))) := by
    rw [mapM_eq_ok, List.forall₂_map_left_iff, List.forall₂_map_right_iff, List.forall₂_same]
    intro row inside
    exact item_eq fun order isOrder => evaluates order isOrder row inside
  rw [apply, items]
  refine congrArg (fun sorted => Except.ok (ResultSet.query columns sorted)) ?_
  rw [← List.map_mergeSort (r := fun first second => compareRows orders first second ≠ .gt)
    (fun _ _ _ _ => rfl), List.map_map]
  rfl

/-- The direction of a sort key does not matter. -/
theorem transCmp_directed_iff (order : Expression × Direction) :
    (Std.TransCmp fun first second : {row // row ∈ rows} =>
      if order.2 = .ascending then (key first.1 order).standing (key second.1 order)
      else ((key first.1 order).standing (key second.1 order)).swap) ↔
      ∀ middle ∈ rows, ∀ first ∈ rows, ∀ last ∈ rows,
        ¬(key middle order).blurs (key first order) (key last order) := by
  have ascends := Value.transCmp_standing_iff fun row : {row // row ∈ rows} => key row.1 order
  simp only [Subtype.forall] at ascends
  rw [← ascends]
  by_cases ascending : order.2 = .ascending
  · simp only [ascending, ↓reduceIte]
  · simp only [ascending, ↓reduceIte, ← Value.standing_swap]
    constructor
    · intro descends
      exact ⟨fun left right => descends.isLE_trans right left⟩
    · intro ascends
      exact ⟨fun left right => ascends.isLE_trans right left⟩

theorem transCmp_compareRows
    (clear : ∀ order ∈ orders, ∀ middle ∈ rows, ∀ first ∈ rows, ∀ last ∈ rows,
      ¬(key middle order).blurs (key first order) (key last order)) :
    Std.TransCmp fun first second : {row // row ∈ rows} => compareRows orders first.1 second.1 := by
  induction orders with
  | nil => exact { eq_swap := rfl, isLE_trans := fun _ _ => rfl }
  | cons order orders ih =>
    have rest := ih fun other inside => clear other (List.mem_cons_of_mem _ inside)
    have here := (transCmp_directed_iff order).mpr (clear order List.mem_cons_self)
    rw [compareRows_cons]
    exact Std.instTransCmpCompareLex

/-- A preorder of the rows of a list sorts them. -/
theorem sorts_of_transCmp (preorder : Std.TransCmp fun first second : {row // row ∈ rows} =>
      compareRows orders first.1 second.1) :
    Sorts orders rows (rows.mergeSort fun first second => compareRows orders first second ≠ .gt) := by
  let sorts (first second : {row // row ∈ rows}) : Bool :=
    compareRows orders first.1 second.1 ≠ .gt
  have isLE (first second : {row // row ∈ rows}) :
      sorts first second = true ↔ (compareRows orders first.1 second.1).isLE = true := by
    cases compared : compareRows orders first.1 second.1 <;> simp [sorts, compared]
  have trans (first middle last : {row // row ∈ rows}) (left : sorts first middle = true)
      (right : sorts middle last = true) : sorts first last = true := by
    rw [isLE] at left right ⊢
    exact preorder.isLE_trans left right
  have total (first second : {row // row ∈ rows}) :
      (sorts first second || sorts second first) = true := by
    have swapped := preorder.eq_swap (a := first) (b := second)
    cases compared : compareRows orders second.1 first.1 <;> simp_all [sorts]
  have attached : (rows.attach.mergeSort sorts).map Subtype.val =
      rows.mergeSort fun first second => compareRows orders first second ≠ .gt := by
    have mapped := List.map_mergeSort (l := rows.attach) (r := sorts) (f := Subtype.val)
      (s := fun first second => compareRows orders first second ≠ .gt) fun _ _ _ _ => rfl
    rw [mapped, List.attach_map_subtype_val]
  refine ⟨preorder, List.mergeSort_perm .., ?_, ?_⟩
  · rw [← attached, List.pairwise_map]
    exact (List.pairwise_mergeSort trans total rows.attach).imp fun le => by simpa [sorts] using le
  · intro first second tie inside
    rw [← List.attach_map_subtype_val rows, List.sublist_map_iff] at inside
    obtain ⟨pair, inside, same⟩ := inside
    obtain ⟨left, rest, rfl, rfl, again⟩ := List.map_eq_cons_iff.mp same.symm
    obtain ⟨right, _, rfl, rfl, none⟩ := List.map_eq_cons_iff.mp again
    rw [List.map_eq_nil_iff.mp none] at inside
    rw [← attached]
    exact (List.pair_sublist_mergeSort trans total (by simp [sorts, tie]) inside).map Subtype.val

end

end Order

end Radb.Sql
