import Radb.Sql.Plan.Predicate

/-! # Pushing down join predicates

What becomes of the conjuncts of a join predicate. Conjuncts that refer to one source are
handed to it, and constants that an equijoin compares on one side are copied to the other.
The three parts together are TRUE exactly if the predicate is, provided that the right source
takes what it is handed and that no two integers are taken for equal because of a float.
-/

namespace Radb.Sql

open Foundation

variable {values : List Value} {constants : Value → Prop} {cnf : List Expression}
  {next : List Expression × List Expression}

namespace Expression

/-- An expression is the equality of two fields, in any order. -/
def Equates (expression : Expression) (first second : Nat) : Prop :=
  ∃ firstLabel secondLabel,
    expression = equal (field first firstLabel) (field second secondLabel) ∨
      expression = equal (field second secondLabel) (field first firstLabel)

variable {expression : Expression} {first second : Nat} {row : Row}

section

variable (equates : expression.Equates first second)

include equates

theorem Equates.symm : expression.Equates second first := by
  obtain ⟨firstLabel, secondLabel, isEqual⟩ := equates
  exact ⟨secondLabel, firstLabel, isEqual.symm⟩

theorem Equates.refers (which : Nat → Bool) :
    expression.refers which = (which first || which second) := by
  obtain ⟨firstLabel, secondLabel, rfl | rfl⟩ := equates
  · simp
  · simp [Bool.or_comm]

theorem Equates.same (found : expression.holds row = true) :
    Value.equal (cell row first) (cell row second) = .ok (.boolean true) := by
  obtain ⟨firstLabel, secondLabel, rfl | rfl⟩ := equates
  · exact holds_iff.mp found
  · exact Value.equal_comm_true (holds_iff.mp found)

end

theorem asLookup_ne_nil {index : Nat} (isLookup : expression.asLookup index = some values) :
    values ≠ [] := by
  fun_induction asLookup index expression generalizing values with
  | case7 left right first second isSecond isFirst leftIh rightIh =>
    cases isLookup
    simp [leftIh isFirst]
  | _ => cases isLookup <;> simp

/-- A lookup that holds on one side of an equality holds on the other side too, if no looked up
integer equals another one through a float. -/
theorem holds_transferred {lookup : Expression} {label : Label}
    (isLookup : lookup.asLookup first = some values) (lookupHolds : lookup.holds row = true)
    (same : Value.equal (cell row first) (cell row second) = .ok (.boolean true))
    (exact : ∀ sought ∈ values,
      Value.throughFloat sought (cell row first) (cell row second) = false) :
    (fromLookup second label values).holds row = true := by
  have present := (Value.ne_null_of_equal same).1
  have comparable : Value.Comparable (cell row second) (cell row first) :=
    Value.Comparable.symm ⟨_, same⟩
  obtain ⟨each, found⟩ := asLookup_spec isLookup (holds_iff.mp lookupHolds)
  obtain ⟨sought, inside, equals | ⟨_, isNull⟩⟩ := found lookupHolds
  · have transferred : Value.equal sought (cell row second) = .ok (.boolean true) :=
      Value.equal_trans (Value.equal_comm_true equals) same (exact sought inside)
    exact holds_fromLookup label
      (fun other isIn => comparable.trans present (each other isIn)) inside
      (Value.equal_comm_true transferred)
  · exact absurd isNull present

end Expression

/-- A node whose sources are replaced by sources of as many nodes has as many nodes. -/
theorem Node.descend_size {node : Node}
    {visit : (child : Node) → child ∈ node.children → Except Fault Node}
    (returns : ∀ child inside, ∃ next, visit child inside = .ok next ∧ next.size = child.size) :
    ∃ next, node.descend visit = .ok next ∧ next.size = node.size := by
  cases node with
  | hashJoin left _ right | nestedLoopJoin left _ right =>
    obtain ⟨first, visited, same⟩ := returns left (by simp [children])
    obtain ⟨second, visitedRight, sameRight⟩ := returns right (by simp [children])
    simp only [descend, visited, visitedRight]
    exact ⟨_, rfl, by simp only [size, same, sameRight]⟩
  | aggregation source | delete _ source | filter source | limit source | offset source
  | order source | projection source | update _ source =>
    obtain ⟨next, visited, same⟩ := returns source (by simp [children])
    simp only [descend, visited]
    exact ⟨_, rfl, by simp only [size, same]⟩
  | _ => exact ⟨_, rfl, rfl⟩

namespace FilterPushdown

variable {boundary : Nat} {row : Row} {pushed : List Expression × List Expression}
  {expression : Expression}

theorem transferBetween_cases (pushed : List Expression × List Expression) (l : Nat) (ln : Label)
    (r : Nat) (rn : Label) :
    transferBetween pushed l ln r rn = pushed ∨
      (∃ lookup ∈ pushed.1, ∃ values, lookup.asLookup l = some values ∧
        transferBetween pushed l ln r rn = (pushed.1, pushed.2 ++ [.fromLookup r rn values])) ∨
      ∃ lookup ∈ pushed.2, ∃ values, lookup.asLookup r = some values ∧
        transferBetween pushed l ln r rn = (pushed.1 ++ [.fromLookup l ln values], pushed.2) := by
  unfold transferBetween
  split
  · rename_i values found
    obtain ⟨lookup, inside, isLookup⟩ := List.exists_of_findSome?_eq_some found
    exact .inr (.inl ⟨lookup, inside, values, isLookup, rfl⟩)
  · split
    · rename_i values found
      obtain ⟨lookup, inside, isLookup⟩ := List.exists_of_findSome?_eq_some found
      exact .inr (.inr ⟨lookup, inside, values, isLookup, rfl⟩)
    · exact .inl rfl

/-- A transfer does nothing, or it is one between the fields of an equality. -/
theorem transfer_cases (pushed : List Expression × List Expression) (expression : Expression) :
    transfer pushed expression = pushed ∨
      ∃ l ln r rn, expression.Equates l r ∧ l ≤ r ∧
        transfer pushed expression = transferBetween pushed l ln r rn := by
  unfold transfer
  split
  · rename_i first firstLabel second secondLabel
    by_cases swapped : second < first
    · rw [if_pos swapped]
      exact .inr ⟨second, secondLabel, first, firstLabel, ⟨_, _, .inr rfl⟩, swapped.le, rfl⟩
    · rw [if_neg swapped]
      exact .inr ⟨first, firstLabel, second, secondLabel, ⟨_, _, .inl rfl⟩, by omega, rfl⟩
  · exact .inl rfl

/-- What is pushed to either side refers to that side only. -/
structure Placed (boundary : Nat) (pushed : List Expression × List Expression) : Prop where
  left : ∀ conjunct ∈ pushed.1, conjunct.refers (boundary ≤ ·) = false
  right : ∀ conjunct ∈ pushed.2, conjunct.refers (· < boundary) = false

/-- An expression refers to both sides. -/
def Spans (boundary : Nat) (expression : Expression) : Prop :=
  expression.refers (boundary ≤ ·) = true ∧ expression.refers (· < boundary) = true

theorem Spans.between (spans : Spans boundary expression) {l r : Nat}
    (equates : expression.Equates l r) (ordered : l ≤ r) : l < boundary ∧ boundary ≤ r := by
  obtain ⟨right, left⟩ := spans
  rw [equates.refers] at right left
  simp only [Bool.or_eq_true, decide_eq_true_eq] at right left
  omega

/-- Conjuncts that hold on a row, and look up given constants only. -/
structure Satisfied (row : Row) (constants : Value → Prop)
    (pushed : List Expression × List Expression) : Prop where
  holds : ∀ conjunct, conjunct ∈ pushed.1 ∨ conjunct ∈ pushed.2 → conjunct.holds row = true
  looksUp : ∀ conjunct, conjunct ∈ pushed.1 ∨ conjunct ∈ pushed.2 →
    ∀ value, conjunct.LooksUp value → constants value

theorem Placed.transfer (placed : Placed boundary pushed) (spans : Spans boundary expression) :
    Placed boundary (transfer pushed expression) := by
  obtain same | ⟨l, ln, r, rn, equates, ordered, between⟩ := transfer_cases pushed expression
  · rw [same]
    exact placed
  obtain ⟨onLeft, onRight⟩ := spans.between equates ordered
  rw [between]
  obtain same | ⟨_, _, values, _, toRight⟩ | ⟨_, _, values, _, toLeft⟩ :=
    transferBetween_cases pushed l ln r rn
  · rw [same]
    exact placed
  · rw [toRight]
    refine ⟨placed.left, ?_⟩
    intro conjunct inside
    obtain inside | inside := List.mem_append.mp inside
    · exact placed.right conjunct inside
    · obtain rfl := List.mem_singleton.mp inside
      exact Expression.refers_fromLookup rn values (by simpa using onRight)
  · rw [toLeft]
    refine ⟨?_, placed.right⟩
    intro conjunct inside
    obtain inside | inside := List.mem_append.mp inside
    · exact placed.left conjunct inside
    · obtain rfl := List.mem_singleton.mp inside
      exact Expression.refers_fromLookup ln values (by simpa using onLeft)

theorem Satisfied.add {added : Expression} (satisfied : Satisfied row constants pushed)
    (found : added.holds row = true) (looksUp : ∀ value, added.LooksUp value → constants value)
    (only : ∀ conjunct, conjunct ∈ next.1 ∨ conjunct ∈ next.2 →
      (conjunct ∈ pushed.1 ∨ conjunct ∈ pushed.2) ∨ conjunct = added) :
    Satisfied row constants next := by
  refine ⟨fun conjunct inside => ?_, fun conjunct inside => ?_⟩
  · obtain former | isAdded := only conjunct inside
    · exact satisfied.holds conjunct former
    · rw [isAdded]
      exact found
  · obtain former | isAdded := only conjunct inside
    · exact satisfied.looksUp conjunct former
    · rw [isAdded]
      exact looksUp

theorem Satisfied.transferred {lookup : Expression} {source target : Nat} (label : Label)
    (satisfied : Satisfied row constants pushed) (inside : lookup ∈ pushed.1 ∨ lookup ∈ pushed.2)
    (isLookup : lookup.asLookup source = some values)
    (same : Value.equal (cell row source) (cell row target) = .ok (.boolean true))
    (exact : ∀ value, constants value →
      Value.throughFloat value (cell row source) (cell row target) = false)
    (only : ∀ conjunct, conjunct ∈ next.1 ∨ conjunct ∈ next.2 →
      (conjunct ∈ pushed.1 ∨ conjunct ∈ pushed.2) ∨
        conjunct = .fromLookup target label values) :
    Satisfied row constants next := by
  have known (sought : Value) (isIn : sought ∈ values) : constants sought :=
    satisfied.looksUp lookup inside sought ⟨source, values, isLookup, isIn⟩
  refine satisfied.add ?_ ?_ only
  · exact Expression.holds_transferred isLookup (satisfied.holds lookup inside) same
      fun sought isIn => exact sought (known sought isIn)
  · intro value looked
    exact known value (Expression.looksUp_fromLookup (Expression.asLookup_ne_nil isLookup) looked)

theorem Satisfied.transfer (satisfied : Satisfied row constants pushed)
    (found : expression.holds row = true)
    (exact : ∀ l r, expression.Equates l r → ∀ value, constants value →
      Value.throughFloat value (cell row l) (cell row r) = false) :
    Satisfied row constants (transfer pushed expression) := by
  obtain same | ⟨l, ln, r, rn, equates, _, between⟩ := transfer_cases pushed expression
  · rw [same]
    exact satisfied
  rw [between]
  obtain unchanged | ⟨lookup, inside, values, isLookup, toRight⟩ |
    ⟨lookup, inside, values, isLookup, toLeft⟩ := transferBetween_cases pushed l ln r rn
  · rw [unchanged]
    exact satisfied
  · rw [toRight]
    apply Satisfied.transferred rn satisfied (.inl inside) isLookup (equates.same found)
      (exact l r equates)
    intro conjunct member
    rw [List.mem_append, List.mem_singleton] at member
    tauto
  · rw [toLeft]
    apply Satisfied.transferred ln satisfied (.inr inside) isLookup (equates.symm.same found)
      (exact r l equates.symm)
    intro conjunct member
    rw [List.mem_append, List.mem_singleton] at member
    tauto

theorem subset_transfer (pushed : List Expression × List Expression) (expression : Expression) :
    pushed.1 ⊆ (FilterPushdown.transfer pushed expression).1 ∧
      pushed.2 ⊆ (FilterPushdown.transfer pushed expression).2 := by
  obtain same | ⟨l, ln, r, rn, _, _, between⟩ := transfer_cases pushed expression
  · rw [same]
    exact ⟨List.Subset.refl _, List.Subset.refl _⟩
  rw [between]
  obtain same | ⟨_, _, _, _, toRight⟩ | ⟨_, _, _, _, toLeft⟩ :=
    transferBetween_cases pushed l ln r rn
  · rw [same]
    exact ⟨List.Subset.refl _, List.Subset.refl _⟩
  · rw [toRight]
    exact ⟨List.Subset.refl _, List.subset_append_left _ _⟩
  · rw [toLeft]
    exact ⟨List.subset_append_left _ _, List.Subset.refl _⟩

section Split

variable {predicate : Expression}

theorem mem_partition (boundary : Nat) (cnf : List Expression) (conjunct : Expression) :
    conjunct ∈ cnf ↔ conjunct ∈ (partition boundary cnf).left ∨
      conjunct ∈ (partition boundary cnf).right ∨ conjunct ∈ (partition boundary cnf).rest := by
  simp only [partition, List.partition_eq_filter_filter, List.mem_filter, Function.comp_apply]
  cases conjunct.refers (boundary ≤ ·) <;> cases conjunct.refers (· < boundary) <;> simp

theorem placed_partition (boundary : Nat) (cnf : List Expression) :
    Placed boundary ((partition boundary cnf).left, (partition boundary cnf).right) := by
  refine ⟨fun conjunct inside => ?_, fun conjunct inside => ?_⟩
  · simp only [partition, List.partition_eq_filter_filter, List.mem_filter] at inside
    simpa using inside.2
  · simp only [partition, List.partition_eq_filter_filter, List.mem_filter] at inside
    simpa using inside.2

theorem spans_of_mem_rest {conjunct : Expression}
    (inside : conjunct ∈ (partition boundary cnf).rest) : Spans boundary conjunct := by
  simp only [partition, List.partition_eq_filter_filter, List.mem_filter, Function.comp_apply,
    Bool.not_not] at inside
  exact ⟨inside.1.2, inside.2⟩

/-- Transfers along conjuncts that span both sides keep what is pushed in its place. -/
theorem Placed.foldl_transfer (spans : ∀ conjunct ∈ cnf, Spans boundary conjunct)
    (placed : Placed boundary pushed) :
    Placed boundary (cnf.foldl FilterPushdown.transfer pushed) := by
  induction cnf generalizing pushed with
  | nil => exact placed
  | cons conjunct cnf ih =>
    exact ih (fun other inside => spans other (List.mem_cons_of_mem _ inside))
      (placed.transfer (spans conjunct List.mem_cons_self))

theorem Satisfied.foldl_transfer (found : ∀ conjunct ∈ cnf, conjunct.holds row = true)
    (exact : ∀ conjunct ∈ cnf, ∀ l r, conjunct.Equates l r → ∀ value, constants value →
      Value.throughFloat value (cell row l) (cell row r) = false)
    (satisfied : Satisfied row constants pushed) :
    Satisfied row constants (cnf.foldl FilterPushdown.transfer pushed) := by
  induction cnf generalizing pushed with
  | nil => exact satisfied
  | cons conjunct cnf ih =>
    exact ih (fun other inside => found other (List.mem_cons_of_mem _ inside))
      (fun other inside => exact other (List.mem_cons_of_mem _ inside))
      (satisfied.transfer (found conjunct List.mem_cons_self)
        (exact conjunct List.mem_cons_self))

theorem subset_foldl_transfer (cnf : List Expression) (pushed : List Expression × List Expression) :
    pushed.1 ⊆ (cnf.foldl FilterPushdown.transfer pushed).1 ∧
      pushed.2 ⊆ (cnf.foldl FilterPushdown.transfer pushed).2 := by
  induction cnf generalizing pushed with
  | nil => exact ⟨List.Subset.refl _, List.Subset.refl _⟩
  | cons conjunct cnf ih =>
    have once := subset_transfer pushed conjunct
    have rest := ih (FilterPushdown.transfer pushed conjunct)
    exact ⟨List.Subset.trans once.1 rest.1, List.Subset.trans once.2 rest.2⟩

theorem placed_split (boundary : Nat) (predicate : Expression) :
    Placed boundary ((split boundary predicate).left, (split boundary predicate).right) :=
  (placed_partition boundary predicate.intoCnfVec).foldl_transfer fun _ => spans_of_mem_rest

/-- Every conjunct of a predicate is in one of the three parts. -/
theorem mem_split_of_mem {conjunct : Expression} (inside : conjunct ∈ predicate.intoCnfVec) :
    conjunct ∈ (split boundary predicate).left ∨ conjunct ∈ (split boundary predicate).right ∨
      conjunct ∈ (split boundary predicate).rest := by
  have grown := subset_foldl_transfer (partition boundary predicate.intoCnfVec).rest
    ((partition boundary predicate.intoCnfVec).left, (partition boundary predicate.intoCnfVec).right)
  obtain onLeft | onRight | spanning := (mem_partition boundary _ _).mp inside
  · exact .inl (grown.1 onLeft)
  · exact .inr (.inl (grown.2 onRight))
  · exact .inr (.inr spanning)

end Split

section Join

variable {predicate : Expression}

/-- A node takes expressions that are pushed down to it. -/
def accepts : Node → Bool
  | .scan .. => true
  | .nestedLoopJoin .. => true
  | .filter .. => true
  | _ => false

theorem pushdownSome_fst (pushed : Option Expression) (target : Node) :
    (pushdownSome pushed target).1 = if accepts target then none else pushed := by
  cases pushed with
  | none => simp [pushdownSome]
  | some expression => cases target <;> rfl

/-- A conjunct refers to the right source only, or it equates a left with a right column and
another one looks up constants in the left column. -/
def PushesRight (boundary : Nat) (predicate : Expression) : Prop :=
  ∃ conjunct ∈ predicate.intoCnfVec,
    (conjunct.refers (boundary ≤ ·) = true ∧ conjunct.refers (· < boundary) = false) ∨
      ∃ l r, conjunct.Equates l r ∧ l < boundary ∧ boundary ≤ r ∧
        ∃ lookup ∈ predicate.intoCnfVec,
          lookup.refers (boundary ≤ ·) = false ∧ (lookup.asLookup l).isSome = true

/-- A row of the join has a FLOAT in a column of an equijoin that equals both an INTEGER that a
conjunct looks up and a different INTEGER in the other column. -/
def Confounded (row : Row) (predicate : Expression) : Prop :=
  ∃ conjunct ∈ predicate.intoCnfVec, ∃ l r, conjunct.Equates l r ∧
    ∃ lookup ∈ predicate.intoCnfVec, ∃ value, lookup.LooksUp value ∧
      Value.throughFloat value (cell row l) (cell row r) = true

theorem mem_partition_right {conjunct : Expression}
    (inside : conjunct ∈ (partition boundary cnf).right) :
    conjunct ∈ cnf ∧ conjunct.refers (boundary ≤ ·) = true ∧
      conjunct.refers (· < boundary) = false := by
  simp only [partition, List.partition_eq_filter_filter, List.mem_filter, Function.comp_apply,
    Bool.not_not] at inside
  exact ⟨inside.1.1, inside.1.2, by simpa using inside.2⟩

/-- Without such conjuncts nothing is pushed to the right. -/
theorem split_right_eq_nil (kept : ¬PushesRight boundary predicate) :
    (split boundary predicate).right = [] := by
  have empty : (partition boundary predicate.intoCnfVec).right = [] := by
    rw [List.eq_nil_iff_forall_not_mem]
    intro conjunct inside
    obtain ⟨isIn, onRight⟩ := mem_partition_right inside
    exact kept ⟨conjunct, isIn, .inl onRight⟩
  have stays (cnf : List Expression)
      (spanning : ∀ conjunct ∈ cnf, conjunct ∈ (partition boundary predicate.intoCnfVec).rest) :
      cnf.foldl FilterPushdown.transfer ((partition boundary predicate.intoCnfVec).left, []) =
        ((partition boundary predicate.intoCnfVec).left, []) := by
    induction cnf with
    | nil => rfl
    | cons conjunct cnf ih =>
      have member := spanning conjunct List.mem_cons_self
      have isIn := (mem_partition boundary _ _).mpr (.inr (.inr member))
      have once : FilterPushdown.transfer ((partition boundary predicate.intoCnfVec).left, [])
          conjunct = ((partition boundary predicate.intoCnfVec).left, []) := by
        obtain same | ⟨l, ln, r, rn, equates, ordered, between⟩ := transfer_cases
          ((partition boundary predicate.intoCnfVec).left, []) conjunct
        · exact same
        obtain ⟨onLeft, onRight⟩ := (spans_of_mem_rest member).between equates ordered
        rw [between]
        obtain same | ⟨lookup, inside, values, isLookup, _⟩ | ⟨_, inside, _⟩ :=
          transferBetween_cases ((partition boundary predicate.intoCnfVec).left, []) l ln r rn
        · exact same
        · refine absurd ?_ kept
          exact ⟨conjunct, isIn, .inr ⟨l, r, equates, onLeft, onRight, lookup,
            (mem_partition boundary _ _).mpr (.inl inside),
            (placed_partition boundary _).left lookup inside, by simp [isLookup]⟩⟩
        · cases inside
      rw [List.foldl_cons, once]
      exact ih fun other inside => spanning other (List.mem_cons_of_mem _ inside)
  have result := stays _ fun _ => id
  rw [split, empty, result]

/-- What is pushed to the right is shifted, to the same effect on the right row alone. -/
theorem shift_right (leftRow : Row) (predicate : Expression) :
    ∃ pushRight, (Expression.fromCnfVec (split leftRow.length predicate).right).mapM
        (Expression.shift leftRow.length) = .ok pushRight ∧
      (pushRight = none ↔ (split leftRow.length predicate).right = []) ∧
      ∀ rightRow, NestedLoopRows.passes pushRight rightRow =
        NestedLoopRows.passes (Expression.fromCnfVec (split leftRow.length predicate).right)
          (leftRow ++ rightRow) := by
  have placed := (placed_split leftRow.length predicate).right
  cases isRight : (split leftRow.length predicate).right with
  | nil => exact ⟨none, rfl, by simp, fun _ => rfl⟩
  | cons first rest =>
    rw [isRight] at placed
    obtain ⟨shifted, returned, same⟩ := Expression.shift_spec leftRow (rest.foldl .and first)
      (Expression.refers_foldl Expression.refers_and rest first placed)
    refine ⟨some shifted, ?_, by simp, ?_⟩
    · simp only [Expression.fromCnfVec, Option.mapM_some, returned]
      rfl
    · intro rightRow
      simp only [NestedLoopRows.passes, Expression.fromCnfVec, Expression.holds, same]

/-- What is pushed to the left has the same effect on the left row alone. -/
theorem passes_left (leftRow rightRow : Row) (predicate : Expression) :
    NestedLoopRows.passes (Expression.fromCnfVec (split leftRow.length predicate).left) leftRow =
      NestedLoopRows.passes (Expression.fromCnfVec (split leftRow.length predicate).left)
        (leftRow ++ rightRow) := by
  have placed := (placed_split leftRow.length predicate).left
  have each (conjunct : Expression) (inside : conjunct ∈ (split leftRow.length predicate).left) :
      conjunct.holds leftRow = conjunct.holds (leftRow ++ rightRow) := by
    have same : conjunct.evaluate leftRow = conjunct.evaluate (leftRow ++ rightRow) :=
      Expression.evaluate_congr (fun index below => by
        rw [List.getElem?_append_left (by simpa using below)]) conjunct (placed conjunct inside)
    rw [Expression.holds, Expression.holds, same]
  rw [Bool.eq_iff_iff, Expression.passes_fromCnfVec, Expression.passes_fromCnfVec]
  exact forall₂_congr fun conjunct inside => by rw [each conjunct inside]

/-- The condition that a source takes of what is pushed to it. -/
def taken (target : Node) (pushed : Option Expression) : Option Expression :=
  if accepts target then pushed else none

theorem pushdownSome_taken (pushed : Option Expression) (target : Node) :
    (pushdownSome (taken target pushed) target).2 = (pushdownSome pushed target).2 := by
  cases pushed with
  | none => simp [taken]
  | some expression => cases target <;> rfl

theorem passes_none : NestedLoopRows.passes none row = true := rfl

/-- What is pushed to a source is either a condition of it or returned. -/
theorem passes_taken {pushed : Option Expression} {target : Node} {first second : Row}
    (same : NestedLoopRows.passes pushed first = NestedLoopRows.passes pushed second) :
    NestedLoopRows.passes (taken target pushed) first = true ∧
      NestedLoopRows.passes (pushdownSome pushed target).1 second = true ↔
        NestedLoopRows.passes pushed second = true := by
  rw [pushdownSome_fst, taken]
  split
  · simp [same, passes_none]
  · simp [passes_none]

/-- The result of partitioning a join predicate, once what is pushed to the right is shifted. -/
theorem pushdownJoin_eq {left right : Node} {pushRight : Option Expression}
    (shifted : (Expression.fromCnfVec (split boundary predicate).right).mapM
      (Expression.shift boundary) = .ok pushRight) :
    pushdownJoin predicate left right boundary =
      .ok (Expression.fromCnfVec ((split boundary predicate).rest ++
          (pushdownSome (Expression.fromCnfVec (split boundary predicate).left) left).1.toList ++
          (pushdownSome pushRight right).1.toList),
        (pushdownSome (Expression.fromCnfVec (split boundary predicate).left) left).2,
        (pushdownSome pushRight right).2) := by
  rw [pushdownJoin, shifted]
  rfl

theorem passes_iff_toList {pushed : Option Expression} :
    NestedLoopRows.passes pushed row = true ↔
      ∀ conjunct ∈ pushed.toList, conjunct.holds row = true := by
  cases pushed <;> simp [NestedLoopRows.passes]

/-- If a predicate holds then so do all of its parts, unless integers are confounded. -/
theorem holds_split (found : predicate.holds row = true) (exact : ¬Confounded row predicate)
    {conjunct : Expression} (inside : conjunct ∈ (split boundary predicate).left ∨
      conjunct ∈ (split boundary predicate).right ∨ conjunct ∈ (split boundary predicate).rest) :
    conjunct.holds row = true := by
  have each := (Expression.holds_iff_conjuncts (Expression.holds_iff.mp found)).mp found
  let constants : Value → Prop := fun value =>
    ∃ lookup ∈ predicate.intoCnfVec, lookup.LooksUp value
  have initially : Satisfied row constants ((partition boundary predicate.intoCnfVec).left,
      (partition boundary predicate.intoCnfVec).right) := by
    have isIn (conjunct : Expression) (member : conjunct ∈
        (partition boundary predicate.intoCnfVec).left ∨
          conjunct ∈ (partition boundary predicate.intoCnfVec).right) :
        conjunct ∈ predicate.intoCnfVec := by
      obtain onLeft | onRight := member
      · exact (mem_partition boundary _ _).mpr (.inl onLeft)
      · exact (mem_partition boundary _ _).mpr (.inr (.inl onRight))
    exact ⟨fun conjunct member => each conjunct (isIn conjunct member),
      fun conjunct member value looked => ⟨conjunct, isIn conjunct member, looked⟩⟩
  have spanning (conjunct : Expression)
      (member : conjunct ∈ (partition boundary predicate.intoCnfVec).rest) :
      conjunct ∈ predicate.intoCnfVec :=
    (mem_partition boundary _ _).mpr (.inr (.inr member))
  have afterwards := initially.foldl_transfer
    (fun conjunct member => each conjunct (spanning conjunct member))
    fun conjunct member l r equates value ⟨lookup, isIn, looked⟩ => by
      by_contra confounded
      exact exact ⟨conjunct, spanning conjunct member, l, r, equates, lookup, isIn, value, looked,
        by simpa using confounded⟩
  obtain onLeft | onRight | rest := inside
  · exact afterwards.holds conjunct (.inl onLeft)
  · exact afterwards.holds conjunct (.inr onRight)
  · exact each conjunct (spanning conjunct rest)

end Join

theorem descend_size (node : Node) : ∃ next, descend node = .ok next ∧ next.1.size = node.size := by
  cases node with
  | filter source predicate => exact ⟨_, rfl, congrArg (· + 1) (pushdown predicate source).2.2⟩
  | nestedLoopJoin left leftSize right predicate outer =>
    cases predicate with
    | none => exact ⟨_, rfl, rfl⟩
    | some predicate =>
      -- Any row of as many columns shows that the right conjuncts can be shifted.
      obtain ⟨pushRight, shifted, _⟩ := shift_right (List.replicate leftSize .null) predicate
      rw [List.length_replicate] at shifted
      rw [descend, pushdownJoin_eq shifted]
      exact ⟨_, rfl, congrArg (· + 1) (congrArg₂ (· + ·)
        (pushdownSome _ left).2.2 (pushdownSome _ right).2.2)⟩
  | _ => exact ⟨_, rfl, rfl⟩

/-- The optimizer returns for every plan, as no field reference is shifted below zero, and keeps
the number of nodes. -/
theorem optimize_returns (node : Node) :
    ∃ plan, optimize node = .ok plan ∧ plan.size = node.size := by
  induction size : node.size using Nat.strong_induction_on generalizing node with
  | _ count ih =>
    obtain ⟨next, pushed, same⟩ := descend_size node
    obtain ⟨plan, visited, kept⟩ := Node.descend_size fun child (inside : child ∈ next.1.children) =>
      ih _ (size ▸ next.2 child inside) child rfl
    refine ⟨plan, ?_, by omega⟩
    rw [optimize, Node.transform, pushed]
    exact congrArg (· >>= .ok) visited

end FilterPushdown

end Radb.Sql
