import Radb.Sql.Execution.Join
import Radb.Sql.Plan.Optimizer
import Radb.Sql.Types.Compare

/-! # When predicates hold

A predicate that evaluates to a value holds exactly if all of its conjuncts do. A lookup of a
field that holds names a value that the field equals, or NULL if the field is NULL.
-/

namespace Radb.Sql

open Foundation

variable {value sought : Value} {predicate : Expression} {label : Label}

/-- A value of a row, or NULL beyond its end. -/
def cell (row : Row) (index : Nat) : Value := row[index]?.getD .null

namespace Expression

variable {row : Row}

section Connectives

variable {left right : Expression}

theorem holds_and : (and left right).holds row = true ↔
    left.holds row = true ∧ right.holds row = true := by
  simp only [holds_iff, evaluate_and_eq_ok]
  constructor
  · intro ⟨first, second, isLeft, isRight, joined⟩
    have isTrue : some true = first.conj second := Value.ofTruth_injective joined
    obtain ⟨isFirst, isSecond⟩ := (Kleene.conj_eq_true first second).mp isTrue.symm
    subst isFirst isSecond
    exact ⟨isLeft, isRight⟩
  · intro ⟨isLeft, isRight⟩
    exact ⟨some true, some true, isLeft, isRight, rfl⟩

/-- An expression evaluates to a truth value or NULL. -/
def Decided (row : Row) (expression : Expression) : Prop :=
  ∃ truth, expression.evaluate row = .ok (.ofTruth truth)

theorem decided_or : (or left right).Decided row ↔ left.Decided row ∧ right.Decided row := by
  constructor
  · intro ⟨truth, evaluated⟩
    obtain ⟨first, second, isLeft, isRight, _⟩ := evaluate_or_eq_ok.mp evaluated
    exact ⟨⟨first, isLeft⟩, ⟨second, isRight⟩⟩
  · intro ⟨⟨first, isLeft⟩, ⟨second, isRight⟩⟩
    exact ⟨_, evaluate_or_eq_ok.mpr ⟨first, second, isLeft, isRight, rfl⟩⟩

theorem decided_of_or (evaluated : (or left right).evaluate row = .ok value) :
    left.Decided row ∧ right.Decided row := by
  obtain ⟨first, second, isLeft, isRight, _⟩ := evaluate_or_eq_ok.mp evaluated
  exact ⟨⟨first, isLeft⟩, ⟨second, isRight⟩⟩

theorem decided_and : (and left right).Decided row ↔ left.Decided row ∧ right.Decided row := by
  constructor
  · intro ⟨truth, evaluated⟩
    obtain ⟨first, second, isLeft, isRight, _⟩ := evaluate_and_eq_ok.mp evaluated
    exact ⟨⟨first, isLeft⟩, ⟨second, isRight⟩⟩
  · intro ⟨⟨first, isLeft⟩, ⟨second, isRight⟩⟩
    exact ⟨_, evaluate_and_eq_ok.mpr ⟨first, second, isLeft, isRight, rfl⟩⟩

theorem decided_foldl_and (rest : List Expression) (first : Expression) :
    (rest.foldl and first).Decided row ↔ ∀ conjunct ∈ first :: rest, conjunct.Decided row := by
  induction rest generalizing first with
  | nil => simp
  | cons next rest ih =>
    rw [List.foldl_cons, ih]
    simp [decided_and, and_assoc]

theorem filterRow_of_decided (decided : predicate.Decided row) :
    Kv.filterRow (some predicate) row = if predicate.holds row then some (.ok row) else none := by
  obtain ⟨truth, evaluated⟩ := decided
  rcases truth with _ | _ | _ <;> simp [Kv.filterRow, holds, evaluated, Value.ofTruth]

theorem filterMap_filterRow_of_decided {rows : List Row}
    (decided : ∀ row ∈ rows, predicate.Decided row) :
    rows.filterMap (Kv.filterRow (some predicate)) =
      (rows.filter fun row => predicate.holds row).map .ok := by
  induction rows with
  | nil => rfl
  | cons row rows ih =>
    have rest := ih fun other inside => decided other (List.mem_cons_of_mem _ inside)
    have here := filterRow_of_decided (decided row List.mem_cons_self)
    cases found : predicate.holds row with
    | true | false => simp [here, found, rest]

theorem holds_or (leftDecided : left.Decided row) (rightDecided : right.Decided row) :
    (or left right).holds row = true ↔ left.holds row = true ∨ right.holds row = true := by
  obtain ⟨first, isLeft⟩ := leftDecided
  obtain ⟨second, isRight⟩ := rightDecided
  have joined : (or left right).evaluate row = .ok (.ofTruth (first.disj second)) :=
    evaluate_or_eq_ok.mpr ⟨first, second, isLeft, isRight, rfl⟩
  have asTruth (truth : Kleene) :
      (Except.ok (Value.ofTruth truth) : Except Fault Value) = .ok (.boolean true) ↔
        truth = some true := by
    rw [Except.ok.injEq]
    exact Value.ofTruth_injective.eq_iff (b := some true)
  simp only [holds_iff, joined, isLeft, isRight, asTruth, Kleene.disj_eq_true]

theorem holds_foldl_and (rest : List Expression) (first : Expression) :
    (rest.foldl and first).holds row = true ↔
      ∀ conjunct ∈ first :: rest, conjunct.holds row = true := by
  induction rest generalizing first with
  | nil => simp
  | cons next rest ih =>
    rw [List.foldl_cons, ih]
    simp [holds_and, and_assoc]

theorem holds_foldl_or (rest : List Expression) (first : Expression)
    (decided : ∀ disjunct ∈ first :: rest, disjunct.Decided row) :
    (rest.foldl or first).holds row = true ↔
      ∃ disjunct ∈ first :: rest, disjunct.holds row = true := by
  induction rest generalizing first with
  | nil => simp
  | cons next rest ih =>
    have firstDecided := decided first (by simp)
    have nextDecided := decided next (by simp)
    rw [List.foldl_cons, ih]
    · simp [holds_or firstDecided nextDecided, or_assoc]
    · intro disjunct inside
      obtain rfl | inside := List.mem_cons.mp inside
      · exact decided_or.mpr ⟨firstDecided, nextDecided⟩
      · exact decided disjunct (by simp [inside])

/-- A list of conjuncts passes if they all hold. -/
theorem passes_fromCnfVec (conjuncts : List Expression) :
    NestedLoopRows.passes (fromCnfVec conjuncts) row = true ↔
      ∀ conjunct ∈ conjuncts, conjunct.holds row = true := by
  cases conjuncts with
  | nil => simp [fromCnfVec, NestedLoopRows.passes]
  | cons first rest => exact holds_foldl_and rest first

theorem holds_iff_conjuncts (returned : predicate.evaluate row = .ok value) :
    predicate.holds row = true ↔ ∀ conjunct ∈ predicate.intoCnfVec, conjunct.holds row = true := by
  obtain ⟨joined, isJoined, refined⟩ := @Refines.intoCnfVec row predicate
  rw [← passes_fromCnfVec, isJoined]
  change _ ↔ joined.holds row = true
  rw [holds_iff, holds_iff, returned, refined value returned]

theorem decided_conjuncts (decided : predicate.Decided row) :
    ∀ conjunct ∈ predicate.intoCnfVec, conjunct.Decided row := by
  obtain ⟨truth, evaluated⟩ := decided
  obtain ⟨joined, isJoined, refined⟩ := @Refines.intoCnfVec row predicate
  have joinedDecided : joined.Decided row := ⟨truth, refined _ evaluated⟩
  cases isVec : predicate.intoCnfVec with
  | nil => simp
  | cons first rest =>
    rw [isVec] at isJoined
    cases isJoined
    exact (decided_foldl_and rest first).mp joinedDecided

end Connectives

section Lookups

variable {index : Nat} {values : List Value} {expression : Expression}

theorem holds_equal_field (label : Label) (value : Value) :
    (equal (field index label) (constant value)).holds row = true ↔
      Value.equal (cell row index) value = .ok (.boolean true) :=
  holds_iff

theorem decided_equal_field (label : Label) (comparable : Value.Comparable (cell row index) value) :
    (equal (field index label) (constant value)).Decided row := by
  obtain ⟨result, compared⟩ := comparable
  obtain isNull | ⟨truth, isTruth⟩ := Value.equal_eq_ok compared
  · subst isNull
    exact ⟨none, compared⟩
  · subst isTruth
    exact ⟨some truth, compared⟩

theorem isNull_field_iff :
    (isNull (field index label)).holds row = true ↔ cell row index = .null := by
  rw [holds_iff]
  change (do Except.ok (Value.isNull (← Except.ok (cell row index)))) = _ ↔ _
  cases cell row index <;> simp [Value.isNull, bind, Except.bind]

/-- What it means for a lookup of a field that it returns, and that it holds. -/
theorem asLookup_spec (isLookup : expression.asLookup index = some values)
    (returned : expression.evaluate row = .ok value) :
    (∀ sought ∈ values, Value.Comparable (cell row index) sought) ∧
      (expression.holds row = true → ∃ sought ∈ values,
        Value.equal (cell row index) sought = .ok (.boolean true) ∨
          sought = .null ∧ cell row index = .null) := by
  fun_induction asLookup index expression generalizing values value with
  | case1 label sought =>
    cases isLookup
    refine ⟨?_, fun found => ⟨sought, by simp, .inl (holds_iff.mp found)⟩⟩
    intro other inside
    obtain rfl := List.mem_singleton.mp inside
    exact ⟨value, returned⟩
  | case2 | case4 | case6 | case8 | case9 => cases isLookup
  | case3 sought label =>
    cases isLookup
    refine ⟨?_, fun found => ⟨sought, by simp,
      .inl (Value.equal_comm_true (holds_iff.mp found))⟩⟩
    intro other inside
    obtain rfl := List.mem_singleton.mp inside
    exact Value.Comparable.symm ⟨value, returned⟩
  | case5 label =>
    cases isLookup
    refine ⟨?_, ?_⟩
    · intro other inside
      obtain rfl := List.mem_singleton.mp inside
      exact Value.comparable_iff.mpr (.inr (.inl rfl))
    · intro found
      refine ⟨.null, by simp, .inr ⟨rfl, ?_⟩⟩
      exact isNull_field_iff.mp found
  | case7 left right first second isSecond isFirst leftIh rightIh =>
    cases isLookup
    obtain ⟨⟨_, isLeft⟩, ⟨_, isRight⟩⟩ := decided_of_or returned
    obtain ⟨leftComparable, leftFound⟩ := leftIh isFirst isLeft
    obtain ⟨rightComparable, rightFound⟩ := rightIh isSecond isRight
    refine ⟨?_, ?_⟩
    · intro sought inside
      obtain inside | inside := List.mem_append.mp inside
      · exact leftComparable sought inside
      · exact rightComparable sought inside
    · intro found
      obtain found | found := (holds_or ⟨_, isLeft⟩ ⟨_, isRight⟩).mp found
      · obtain ⟨sought, inside, which⟩ := leftFound found
        exact ⟨sought, List.mem_append_left _ inside, which⟩
      · obtain ⟨sought, inside, which⟩ := rightFound found
        exact ⟨sought, List.mem_append_right _ inside, which⟩

/-- The comparisons that look a value up, one after the other. -/
def lookupTerms (index : Nat) (label : Label) (values : List Value) : List Expression :=
  values.map fun value => equal (field index label) (constant value)

theorem fromLookup_cons (label : Label) (first : Value) (rest : List Value) :
    fromLookup index label (first :: rest) =
      (lookupTerms index label rest).foldl or (equal (field index label) (constant first)) :=
  rfl

/-- A lookup of values that are comparable with the field holds if it equals one of them. -/
theorem holds_fromLookup (label : Label)
    (comparable : ∀ sought ∈ values, Value.Comparable (cell row index) sought)
    (inside : sought ∈ values) (same : Value.equal (cell row index) sought = .ok (.boolean true)) :
    (fromLookup index label values).holds row = true := by
  cases values with
  | nil => cases inside
  | cons first rest =>
    have terms : equal (field index label) (constant first) :: lookupTerms index label rest =
        lookupTerms index label (first :: rest) := rfl
    rw [fromLookup_cons, holds_foldl_or, terms]
    · exact ⟨_, List.mem_map_of_mem inside, (holds_equal_field label sought).mpr same⟩
    · intro disjunct member
      rw [terms] at member
      obtain ⟨other, isIn, isDisjunct⟩ := List.mem_map.mp member
      subst isDisjunct
      exact decided_equal_field label (comparable other isIn)

theorem refers_foldl {which : Nat → Bool} {connect : Expression → Expression → Expression}
    (either : ∀ left right : Expression,
      (connect left right).refers which = (left.refers which || right.refers which))
    (rest : List Expression) (first : Expression)
    (absent : ∀ operand ∈ first :: rest, operand.refers which = false) :
    (rest.foldl connect first).refers which = false := by
  induction rest generalizing first with
  | nil => exact absent first (by simp)
  | cons next rest ih =>
    apply ih
    intro operand inside
    obtain rfl | inside := List.mem_cons.mp inside
    · simp [either, absent first (by simp), absent next (by simp)]
    · exact absent operand (by simp [inside])

theorem refers_fromLookup {which : Nat → Bool} (label : Label) (values : List Value)
    (absent : which index = false) : (fromLookup index label values).refers which = false := by
  cases values with
  | nil => simp [fromLookup, absent]
  | cons first rest =>
    rw [fromLookup_cons]
    apply refers_foldl refers_or
    intro disjunct inside
    obtain rfl | inside := List.mem_cons.mp inside
    · simp [absent]
    · obtain ⟨value, _, isDisjunct⟩ := List.mem_map.mp inside
      subst isDisjunct
      simp [absent]

/-- An expression looks a value up in some field. -/
def LooksUp (expression : Expression) (value : Value) : Prop :=
  ∃ index values, expression.asLookup index = some values ∧ value ∈ values

theorem looksUp_or {left right : Expression} (looked : (or left right).LooksUp value) :
    left.LooksUp value ∨ right.LooksUp value := by
  obtain ⟨index, values, isLookup, inside⟩ := looked
  simp only [asLookup] at isLookup
  split at isLookup
  · rename_i first second isFirst isSecond
    cases isLookup
    obtain inside | inside := List.mem_append.mp inside
    · exact .inl ⟨index, first, isFirst, inside⟩
    · exact .inr ⟨index, second, isSecond, inside⟩
  · cases isLookup

theorem looksUp_foldl_or {rest : List Expression} {first : Expression}
    (looked : (rest.foldl or first).LooksUp value) :
    ∃ disjunct ∈ first :: rest, disjunct.LooksUp value := by
  induction rest generalizing first with
  | nil => exact ⟨first, by simp, looked⟩
  | cons next rest ih =>
    obtain ⟨disjunct, inside, looked⟩ := ih looked
    obtain rfl | inside := List.mem_cons.mp inside
    · obtain looked | looked := looksUp_or looked
      · exact ⟨first, by simp, looked⟩
      · exact ⟨next, by simp, looked⟩
    · exact ⟨disjunct, by simp [inside], looked⟩

theorem looksUp_equal_field (looked : (equal (field index label) (constant value)).LooksUp sought) :
    sought = value := by
  obtain ⟨other, values, isLookup, inside⟩ := looked
  simp only [asLookup] at isLookup
  split at isLookup
  · cases isLookup
    exact List.mem_singleton.mp inside
  · cases isLookup

theorem looksUp_fromLookup (nonempty : values ≠ [])
    (looked : (fromLookup index label values).LooksUp sought) : sought ∈ values := by
  cases values with
  | nil => exact absurd rfl nonempty
  | cons first rest =>
    rw [fromLookup_cons] at looked
    obtain ⟨disjunct, inside, looked⟩ := looksUp_foldl_or looked
    obtain rfl | inside := List.mem_cons.mp inside
    · simp [looksUp_equal_field looked]
    · obtain ⟨value, isIn, isDisjunct⟩ := List.mem_map.mp inside
      subst isDisjunct
      simp [looksUp_equal_field looked, isIn]

end Lookups

end Expression

end Radb.Sql
