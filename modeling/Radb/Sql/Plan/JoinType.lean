import Radb.Sql.Execution.Executor
import Radb.Sql.Plan.Optimizer

/-! # Hash joins against nested-loop joins

An equijoin of two fields, one on each side, is replaced by a hash join. Its table keeps
one right row for each key and finds keys by their bits, so that it returns the rows of
the nested-loop join exactly if there is no NULL among the keys, no left key equals two
right ones, and equal keys are the same value.
-/

namespace Radb.Sql

open Foundation

variable {sought : Value} {row other : Row} {outer : Bool} {field : Nat}

namespace JoinType

/-- The fields an equijoin compares, as positions in its left and its right source, if it
has one on each side. -/
def fields (leftSize rightSize a b : Nat) : Option (Nat × Nat) :=
  if a < leftSize ∧ leftSize ≤ b ∧ b < leftSize + rightSize then some (a, b - leftSize)
  else if b < leftSize ∧ leftSize ≤ a ∧ a < leftSize + rightSize then some (b, a - leftSize)
  else none

/-- The join key of a row. -/
def key (field : Nat) (row : Row) : Value := row[field]?.getD .null

/-- Whether the keys of two rows are equal for SQL. -/
def matched (leftField rightField : Nat) (left right : Row) : Bool :=
  Value.equal (key leftField left) (key rightField right) = .ok (.boolean true)

/-- The keys of two sources are fit for a hash join. -/
structure Hashable (leftField rightField : Nat) (left right : List Row) : Prop where
  /-- No right key is NULL. -/
  rightKeys : ∀ row ∈ right, key rightField row ≠ .null
  /-- No left key is NULL, unless there are no right rows. -/
  leftKeys : right ≠ [] → ∀ row ∈ left, key leftField row ≠ .null
  /-- No left key equals the keys of two right rows. -/
  single : ∀ row ∈ left, (right.filter (matched leftField rightField row)).length ≤ 1
  /-- Equal keys are the same value: an integer does not equal a float, and zero not
  negative zero. -/
  identical : ∀ row ∈ left, ∀ other ∈ right, matched leftField rightField row other = true →
    key leftField row = key rightField other

section Rows

variable {leftField rightField : Nat} {left right : List Row} {width : Nat}

/-- A key is found in the table of the right rows exactly if one of them has it. -/
theorem lastWith_ne_none_iff :
    HashJoin.lastWith rightField right sought ≠ none ↔
      ∃ row ∈ right, (key rightField row).finds sought = true := by
  rw [HashJoin.lastWith, Option.ne_none_iff_isSome, List.find?_isSome]
  simp only [List.mem_reverse, key]

theorem of_lastWith (found : HashJoin.lastWith rightField right sought = some row) :
    row ∈ right ∧ (key rightField row).finds sought = true := by
  rw [HashJoin.lastWith] at found
  have hit := List.find?_some found
  exact ⟨List.mem_reverse.mp (List.mem_of_find?_eq_some found), hit⟩

/-- A key that is found is equal, if it is not NULL. -/
theorem matched_of_finds (present : key rightField other ≠ .null)
    (found : (key rightField other).finds (key leftField row) = true) :
    matched leftField rightField row other = true := by
  obtain ⟨same, number⟩ := Value.finds_iff.mp found
  rw [matched, decide_eq_true_eq, ← same, Value.equal_self_iff]
  exact ⟨present, by rw [same]; exact number⟩

/-- Equal keys that are the same value are found. -/
theorem finds_of_matched (hit : matched leftField rightField row other = true)
    (same : key leftField row = key rightField other) :
    (key rightField other).finds (key leftField row) = true := by
  rw [matched, decide_eq_true_eq, same, Value.equal_self_iff] at hit
  rw [Value.finds_iff, same]
  exact ⟨rfl, hit.2⟩

/-- On keys that can be hashed, probing agrees with the nested loop exactly if no left
key has two partners and equal keys are the same. -/
theorem probe_agrees_iff (leftWidth : ∀ row ∈ left, row.length = width)
    (rightKeys : ∀ row ∈ right, key rightField row ≠ .null) (size : Nat) :
    (Join.scan (· ++ ·) (· ++ List.replicate size .null) outer (matched leftField rightField)
        left right).Perm
      (Join.probe (· ++ ·) (· ++ List.replicate size .null) outer
        (fun row => HashJoin.lastWith rightField right (key leftField row)) left) ↔
      (∀ row ∈ left, (right.filter (matched leftField rightField row)).length ≤ 1) ∧
        ∀ row ∈ left, ∀ other ∈ right, matched leftField rightField row other = true →
          key leftField row = key rightField other := by
  rw [Join.scan_perm_probe_iff]
  · constructor
    · intro agree
      refine ⟨fun row member => (agree row member).1, fun row member other inside hit => ?_⟩
      obtain ⟨single, found⟩ := agree row member
      obtain ⟨partner, within, finds⟩ := lastWith_ne_none_iff.mp (found other inside hit)
      have partners : ∀ {partner}, partner ∈ right →
          matched leftField rightField row partner = true →
          partner ∈ right.filter (matched leftField rightField row) :=
        fun member hit => List.mem_filter.mpr ⟨member, hit⟩
      have first := partners inside hit
      have second := partners within (matched_of_finds (rightKeys partner within) finds)
      have same : other = partner := by
        generalize right.filter (matched leftField rightField row) = listed at single first second
        match listed with
        | [] => cases first
        | [only] => rw [List.mem_singleton.mp first, List.mem_singleton.mp second]
        | _ :: _ :: _ => simp at single
      rw [same, (Value.finds_iff.mp finds).1]
    · intro ⟨single, identical⟩ row member
      refine ⟨single row member, fun other inside hit => lastWith_ne_none_iff.mpr ?_⟩
      exact ⟨other, inside, finds_of_matched hit (identical row member other inside hit)⟩
  · intro row _ partner found
    obtain ⟨member, hit⟩ := of_lastWith found
    exact ⟨member, matched_of_finds (rightKeys partner member) hit⟩
  · intro row _ partner member hit same
    have null : key rightField partner = .null := by
      rw [← List.append_cancel_left same, key]
      cases here : (List.replicate size Value.null)[rightField]? with
      | none => rfl
      | some value => exact (List.eq_of_mem_replicate (List.mem_of_getElem? here))
    exact rightKeys partner member null
  · intro one inside other within row first second
    have widths := (leftWidth one inside).trans (leftWidth other within).symm
    obtain ⟨rest, rfl⟩ : ∃ rest, row = one ++ rest := by
      rcases first with padded | ⟨partner, _, joined⟩
      · exact ⟨_, padded⟩
      · exact ⟨_, joined⟩
    rcases second with padded | ⟨partner, _, joined⟩
    · exact (List.append_inj padded widths).1
    · exact (List.append_inj joined widths).1

/-- A hash join of keys that can be hashed probes for the last right row with a key. -/
theorem items_eq_probe {empty : Row} {map : HashMap}
    (built : HashJoin.table rightField (right.map .ok) [] = .ok map)
    (leftKey : ∀ row ∈ left, row[leftField]? = some (key leftField row))
    (leftKeys : right ≠ [] → ∀ row ∈ left, key leftField row ≠ .null) :
    (left.map .ok).filterMap (HashJoin.item map leftField outer empty) =
      (Join.probe (· ++ ·) (· ++ empty) outer
        (fun row => HashJoin.lastWith rightField right (key leftField row)) left).map .ok := by
  have found : ∀ sought, map.lookup sought = HashJoin.lastWith rightField right sought := by
    intro sought
    rw [HashJoin.lookup_table built]
    exact Option.or_none
  simp only [← found]
  apply HashJoin.items_ok
  intro row member
  refine ⟨key leftField row, leftKey row member, ?_⟩
  by_cases empty : right = []
  · subst empty
    cases built
    exact .inl rfl
  · exact .inr (leftKeys empty row member)

/-- A hash join returns the rows of the nested-loop join on its keys exactly if these
are fit for it. -/
theorem hashJoin_agrees_iff {columns rightColumns : Columns}
    (leftWidth : ∀ row ∈ left, row.length = columns.length)
    (leftInside : leftField < columns.length)
    (rightInside : ∀ row ∈ right, rightField < row.length) :
    (∃ hashed : List Row,
      HashJoin.apply leftField rightField outer (.query columns (left.map .ok))
          (.query rightColumns (right.map .ok)) =
        .ok (.query (columns ++ rightColumns) (hashed.map .ok)) ∧
      (Join.scan (· ++ ·) (· ++ List.replicate rightColumns.length .null) outer
        (matched leftField rightField) left right).Perm hashed) ↔
      Hashable leftField rightField left right := by
  have leftKey : ∀ row ∈ left, row[leftField]? = some (key leftField row) := by
    intro row member
    have inside : leftField < row.length := leftWidth row member ▸ leftInside
    simp [key, inside]
  have rightKey : ∀ row ∈ right, row[rightField]? = some (key rightField row) := by
    intro row member
    simp [key, rightInside row member]
  constructor
  · intro ⟨hashed, returned, agree⟩
    obtain ⟨map, built, rest⟩ := bind_eq_ok.mp returned
    have items : (left.map .ok).filterMap (HashJoin.item map leftField outer
        (List.replicate rightColumns.length .null)) = hashed.map .ok := by
      injection rest with rest
      injection rest
    have rightKeys : ∀ row ∈ right, key rightField row ≠ .null := by
      intro row member
      obtain ⟨stored, here, present⟩ := HashJoin.exists_table_iff.mp ⟨map, built⟩ row member
      cases (rightKey row member).symm.trans here
      exact present
    have leftKeys : right ≠ [] → ∀ row ∈ left, key leftField row ≠ .null := by
      intro filled row member null
      obtain ⟨first, others, rfl⟩ := List.exists_cons_of_ne_nil filled
      have stuck : HashJoin.item map leftField outer (List.replicate rightColumns.length .null)
          (.ok row) = some (.error (.panic "stack overflow")) := by
        simp only [HashJoin.item, leftKey row member, null,
          HashMap.get_null (HashJoin.table_ne_nil built)]
      have listed := List.mem_filterMap.mpr ⟨_, List.mem_map_of_mem member, stuck⟩
      rw [items] at listed
      obtain ⟨_, _, wrong⟩ := List.mem_map.mp listed
      cases wrong
    rw [items_eq_probe built leftKey leftKeys] at items
    obtain rfl := List.map_injective_iff.mpr (fun _ _ same => Except.ok.inj same) items
    obtain ⟨single, identical⟩ := (probe_agrees_iff leftWidth rightKeys _).mp agree
    exact ⟨rightKeys, leftKeys, single, identical⟩
  · intro fit
    obtain ⟨map, built⟩ := (@HashJoin.exists_table_iff rightField [] right).mpr fun row member =>
      ⟨_, rightKey row member, fit.rightKeys row member⟩
    refine ⟨_, ?_, (probe_agrees_iff leftWidth fit.rightKeys _).mpr ⟨fit.single, fit.identical⟩⟩
    rw [HashJoin.apply, built, ← items_eq_probe built leftKey fit.leftKeys]
    rfl

end Rows

section Plans

variable {contents : Contents} {left right : Node} {leftSize a b : Nat} {aLabel bLabel : Label}
  {outer : Bool} {columns rightColumns : Columns} {rows rightRows : List Row}

theorem key_append_left (inside : field < row.length) :
    key field (row ++ other) = key field row := by
  rw [key, key, List.getElem?_append_left inside]

theorem key_append_right (outside : row.length ≤ field) :
    key field (row ++ other) = key (field - row.length) other := by
  rw [key, key, List.getElem?_append_right outside]

theorem passes_equijoin {leftField rightField rightSize : Nat}
    (sides : fields leftSize rightSize a b = some (leftField, rightField))
    (width : row.length = leftSize) :
    NestedLoopRows.passes (some (.equal (.field a aLabel) (.field b bLabel))) (row ++ other) =
      matched leftField rightField row other := by
  rw [Bool.eq_iff_iff, NestedLoopRows.passes, Expression.holds_iff, matched, decide_eq_true_iff]
  change Value.equal (key a (row ++ other)) (key b (row ++ other)) = _ ↔ _
  unfold fields at sides
  split at sides
  · cases sides
    rw [key_append_left (by omega), key_append_right (by omega), width]
  · split at sides
    · cases sides
      rw [key_append_right (by omega), key_append_left (by omega), width]
      exact ⟨Value.equal_comm_true, Value.equal_comm_true⟩
    · cases sides

theorem reply_equijoin {leftField rightField : Nat}
    (leftRun : contents.reply (Executor.build left) = .ok (.query columns (rows.map .ok)))
    (rightRun : contents.reply (Executor.build right) =
      .ok (.query rightColumns (rightRows.map .ok)))
    (sides : fields leftSize rightColumns.length a b = some (leftField, rightField))
    (widths : ∀ row ∈ rows, row.length = leftSize)
    (evaluates : ∀ row ∈ rows, ∀ other ∈ rightRows, ∃ value,
      (Expression.equal (.field a aLabel) (.field b bLabel)).evaluate (row ++ other) = .ok value) :
    contents.reply (Executor.build (.nestedLoopJoin left leftSize right
        (some (.equal (.field a aLabel) (.field b bLabel))) outer)) =
      .ok (.query (columns ++ rightColumns)
        ((Join.scan (· ++ ·) (· ++ List.replicate rightColumns.length .null) outer
          (matched leftField rightField) rows rightRows).map .ok)) := by
  rw [Executor.build, Contents.reply_nestedLoopJoin _ _ leftRun rightRun, NestedLoopJoin.apply,
    collect_eq_ok.mpr rfl]
  change Except.ok _ = _
  rw [NestedLoopRows.items_new, NestedLoopRows.blocks_of_settled]
  · congr 3
    apply List.flatMap_congr
    intro row member
    apply Join.scanRow_congr
    intro other inside
    exact passes_equijoin sides (widths row member)
  · intro row member other inside fault
    obtain ⟨value, result⟩ := evaluates row member other inside
    rcases Value.equal_eq_ok result with rfl | ⟨_ | _, rfl⟩ <;>
      simp [NestedLoopRows.check, result]

/-- The hash join that replaces an equijoin has its fields inside its sources exactly if
there is one on each side. -/
theorem replace_equijoin_iff {good : Nat → Nat → Prop} :
    (∃ leftField rightField,
      (replace (.nestedLoopJoin left leftSize right
        (some (.equal (.field a aLabel) (.field b bLabel))) outer)).map Subtype.val =
          .ok (.hashJoin left leftField right rightField outer) ∧
      leftField.1 < leftSize ∧ rightField.1 < rightColumns.length ∧
      good leftField.1 rightField.1) ↔
      ∃ leftField rightField,
        fields leftSize rightColumns.length a b = some (leftField, rightField) ∧
        good leftField rightField := by
  by_cases aLeft : a < leftSize
  · by_cases bLeft : b < leftSize
    · have unsided : fields leftSize rightColumns.length a b = none := by
        rw [fields, if_neg (by omega), if_neg (by omega)]
      simp [replace, aLeft, bLeft, unsided, Except.map]
    · by_cases bRight : b < leftSize + rightColumns.length
      · have sided : fields leftSize rightColumns.length a b = some (a, b - leftSize) := by
          rw [fields, if_pos (by omega)]
        have inside : b - leftSize < rightColumns.length := by omega
        simp [replace, aLeft, bLeft, sided, Except.map, inside]
      · have unsided : fields leftSize rightColumns.length a b = none := by
          rw [fields, if_neg (by omega), if_neg (by omega)]
        have outside : ¬ b - leftSize < rightColumns.length := by omega
        simp [replace, aLeft, bLeft, unsided, Except.map, outside]
  · by_cases sided : b < leftSize ∧ a < leftSize + rightColumns.length
    · have swapped : fields leftSize rightColumns.length a b = some (b, a - leftSize) := by
        rw [fields, if_neg (by omega), if_pos (by omega)]
      have inside : a - leftSize < rightColumns.length := by omega
      simp [replace, aLeft, sided.1, swapped, Except.map, inside]
    · have unsided : fields leftSize rightColumns.length a b = none := by
        rw [fields, if_neg (by omega), if_neg (by omega)]
      have outside : ¬ (b < leftSize ∧ a - leftSize < rightColumns.length) := by omega
      simp only [replace, aLeft, unsided, Except.map, if_false]
      simp
      omega

/-- A nested-loop equijoin that raises no error agrees with the hash join that replaces
it exactly if it has one field on each side and the keys are fit for a hash join. -/
theorem equijoin_replaced_iff
    (leftRun : contents.reply (Executor.build left) = .ok (.query columns (rows.map .ok)))
    (rightRun : contents.reply (Executor.build right) =
      .ok (.query rightColumns (rightRows.map .ok)))
    (leftWidth : ∀ row ∈ rows, row.length = columns.length)
    (rightWidth : ∀ row ∈ rightRows, row.length = rightColumns.length)
    (boundary : leftSize = columns.length)
    (evaluates : ∀ row ∈ rows, ∀ other ∈ rightRows, ∃ value,
      (Expression.equal (.field a aLabel) (.field b bLabel)).evaluate (row ++ other) = .ok value) :
    (∃ leftField rightField,
      (replace (.nestedLoopJoin left leftSize right
        (some (.equal (.field a aLabel) (.field b bLabel))) outer)).map Subtype.val =
          .ok (.hashJoin left leftField right rightField outer) ∧
      leftField.1 < columns.length ∧ rightField.1 < rightColumns.length ∧
      SameRows contents
        (.nestedLoopJoin left leftSize right
          (some (.equal (.field a aLabel) (.field b bLabel))) outer)
        (.hashJoin left leftField right rightField outer)) ↔
      ∃ leftField rightField,
        fields leftSize rightColumns.length a b = some (leftField, rightField) ∧
        Hashable leftField rightField rows rightRows := by
  subst boundary
  have replaced := @replace_equijoin_iff left right columns.length a b aLabel bLabel outer
    rightColumns fun leftField rightField => SameRows contents
      (.nestedLoopJoin left columns.length right
        (some (.equal (.field a aLabel) (.field b bLabel))) outer)
      (.hashJoin left (leftField, none) right (rightField, none) outer)
  refine replaced.trans (exists_congr fun leftField => exists_congr fun rightField =>
    and_congr_right fun sides => ?_)
  have inside : leftField < columns.length ∧ rightField < rightColumns.length := by
    unfold fields at sides
    split at sides
    · cases sides
      omega
    · split at sides
      · cases sides
        omega
      · cases sides
  have rightInside : ∀ row ∈ rightRows, rightField < row.length := by
    intro row member
    rw [rightWidth row member]
    exact inside.2
  rw [← hashJoin_agrees_iff leftWidth inside.1 rightInside]
  have nested := @reply_equijoin contents left right columns.length a b aLabel bLabel outer columns
    rightColumns rows rightRows leftField rightField leftRun rightRun sides leftWidth evaluates
  have hash := Contents.reply_hashJoin leftField rightField outer leftRun rightRun
  constructor
  · intro ⟨returned, joined, hashed, first, second, agree⟩
    rw [nested] at first
    injection first with first
    injection first with headings items
    obtain rfl := List.map_injective_iff.mpr (fun _ _ same => Except.ok.inj same) items
    exact ⟨hashed, hash.symm.trans (headings ▸ second), agree⟩
  · intro ⟨hashed, returned, agree⟩
    exact ⟨_, _, hashed, nested, hash.trans returned, agree⟩

end Plans

/-- A table with a primary key and a code. -/
def coded (name : String) : Table :=
  ⟨name, [⟨"id", .integer, true, false, none, true, none, false⟩,
    ⟨"code", .integer, false, true, some .null, false, none, false⟩]⟩

/-- One item, and two labels with the code of that item. -/
def labelled : Contents :=
  Program.replayAll Store.replay ∅
    [.set (.table "items") (coded "items"), .set (.table "labels") (coded "labels"),
      .set (.row "items" (.integer 1)) [.integer 1, .integer 7],
      .set (.row "labels" (.integer 1)) [.integer 1, .integer 7],
      .set (.row "labels" (.integer 2)) [.integer 2, .integer 7]]

theorem reply_items : labelled.reply (Executor.build (.scan "items" none none)) =
    .ok (.query [some "id", some "code"] ([[.integer 1, .integer 7]].map .ok)) := by
  decide +kernel

theorem reply_labels : labelled.reply (Executor.build (.scan "labels" none none)) =
    .ok (.query [some "id", some "code"]
      ([[.integer 1, .integer 7], [.integer 2, .integer 7]].map .ok)) := by
  decide +kernel

/-- The join of items and labels by their primary keys. -/
theorem equijoin_replaced_iff_keys :
    ∃ leftField rightField,
      (replace (.nestedLoopJoin (.scan "items" none none) 2 (.scan "labels" none none)
        (some (.equal (.field 0 none) (.field 2 none))) true)).map Subtype.val =
          .ok (.hashJoin (.scan "items" none none) leftField (.scan "labels" none none) rightField
            true) ∧
      leftField.1 < 2 ∧ rightField.1 < 2 ∧
      SameRows labelled
        (.nestedLoopJoin (.scan "items" none none) 2 (.scan "labels" none none)
          (some (.equal (.field 0 none) (.field 2 none))) true)
        (.hashJoin (.scan "items" none none) leftField (.scan "labels" none none) rightField true) := by
  apply (equijoin_replaced_iff reply_items reply_labels (by decide) (by decide) rfl ?_).mpr
  · exact ⟨0, 0, rfl, by decide, by decide, by decide, by decide⟩
  · intro row member other inside
    simp only [List.mem_cons, List.not_mem_nil, or_false] at member inside
    rcases inside with rfl | rfl <;> subst member
    · exact ⟨.boolean true, by decide⟩
    · exact ⟨.boolean false, by decide⟩

/-- The join of items and labels by their codes: the predicate raises no error, and the
item is joined with one of its two labels only. -/
theorem label_lost :
    (∀ row ∈ [[Value.integer 1, .integer 7]],
      ∀ other ∈ [[Value.integer 1, .integer 7], [.integer 2, .integer 7]],
      (Expression.equal (.field 1 none) (.field 3 none)).evaluate (row ++ other) =
        .ok (.boolean true)) ∧
    ¬ ∃ leftField rightField,
      (replace (.nestedLoopJoin (.scan "items" none none) 2 (.scan "labels" none none)
        (some (.equal (.field 1 none) (.field 3 none))) false)).map Subtype.val =
          .ok (.hashJoin (.scan "items" none none) leftField (.scan "labels" none none) rightField
            false) ∧
      leftField.1 < 2 ∧ rightField.1 < 2 ∧
      SameRows labelled
        (.nestedLoopJoin (.scan "items" none none) 2 (.scan "labels" none none)
          (some (.equal (.field 1 none) (.field 3 none))) false)
        (.hashJoin (.scan "items" none none) leftField (.scan "labels" none none) rightField
          false) := by
  refine ⟨by decide, ?_⟩
  intro ⟨leftField, rightField, replaced, _, _, columns, joined, hashed, first, second, agree⟩
  obtain ⟨rfl, rfl⟩ : leftField = (1, none) ∧ rightField = (1, none) := by
    simpa [replace, Except.map, eq_comm] using replaced
  have nested : labelled.reply (Executor.build (.nestedLoopJoin (.scan "items" none none) 2
      (.scan "labels" none none) (some (.equal (.field 1 none) (.field 3 none))) false)) =
      .ok (.query [some "id", some "code", some "id", some "code"]
        [.ok [.integer 1, .integer 7, .integer 1, .integer 7],
          .ok [.integer 1, .integer 7, .integer 2, .integer 7]]) := by decide +kernel
  have probed : labelled.reply (Executor.build (.hashJoin (.scan "items" none none) (1, none)
      (.scan "labels" none none) (1, none) false)) =
      .ok (.query [some "id", some "code", some "id", some "code"]
        [.ok [.integer 1, .integer 7, .integer 2, .integer 7]]) := by decide +kernel
  have two : joined.length = 2 := by
    have items := (ResultSet.query.inj (Except.ok.inj (nested.symm.trans first))).2
    simpa using (congrArg List.length items).symm
  have one : hashed.length = 1 := by
    have items := (ResultSet.query.inj (Except.ok.inj (probed.symm.trans second))).2
    simpa using (congrArg List.length items).symm
  exact absurd agree.length_eq (by rw [two, one]; decide)

end JoinType

end Radb.Sql
