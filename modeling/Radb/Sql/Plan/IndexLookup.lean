import Radb.Sql.Engine.Indexes
import Radb.Sql.Execution.Executor
import Radb.Sql.Plan.Predicate

/-! # Lookups against scans

A scan whose filter has a conjunct that looks values up is replaced by a lookup of these values
and a filter of the other conjuncts. The scan compares with SQL equality, and the lookup with
the bits of keys. The two return the same rows exactly if every row that meets the other
conjuncts is looked up once if the conjunct is TRUE for it, and not at all if it is not.
-/

namespace Radb.Sql

open Foundation Foundation.Script

variable {id : Value} {row : Row}

namespace Contents

/-- A table with its rows and indexes: rows are stored under their primary key, and the index
entry of a value lists the primary keys of the rows that have it. -/
structure Consistent (contents : Contents) (table : Table) : Prop where
  known : contents.table table.name = some table
  formed : table.WellFormed
  wide : ∀ {id row}, contents.row table.name id = some row →
    row.length = table.columns.length
  keyed : ∀ {id row}, contents.row table.name id = some row →
    table.getRowKey row = .ok id ∧ id ≠ .null
  lists : ∀ {position : Nat} {column : Column}, table.columns[position]? = some column →
    column.index = true →
    Inverts (contents.entries table.name column.name) (contents.row table.name)
      fun row : Row => row[position]?

variable {contents : Contents} {table : Table}

theorem Consistent.keeps (consistent : contents.Consistent table) : contents.Keeps table :=
  ⟨consistent.known, consistent.formed, consistent.wide, consistent.keyed⟩

theorem reply_scan_of_decided {name : String} {aliased : Option String} {filter : Expression}
    (known : contents.table name = some table) (named : table.name = name)
    (decided : ∀ row ∈ contents.rows name, filter.Decided row) :
    contents.reply (Executor.build (.scan name aliased (some filter))) =
      .ok (.query table.headings
        (((contents.rows name).filter fun row => filter.holds row).map .ok)) := by
  have scanned : contents.reply (Kv.scan table.name (some filter)) =
      .ok (((contents.rows name).filter fun row => filter.holds row).map .ok) := by
    rw [reply_scan]
    refine ⟨table, named ▸ known, ?_⟩
    rw [named, Expression.filterMap_filterRow_of_decided decided]
  rw [Executor.build, Scan.execute, reply_bind (reply_mustReadTable.mpr known)]
  rw [reply_bind scanned]
  rfl

/-- A lookup of primary keys returns the rows that are found, one after the other. -/
theorem reply_keyLookup {name : String} {aliased : Option String} (keys : List Value)
    (known : contents.table name = some table) (named : table.name = name) :
    contents.reply (Executor.build (.keyLookup name aliased keys)) =
      .ok (.query table.headings ((keys.filterMap (contents.row name)).map .ok)) := by
  have gathered : contents.reply (gather (Kv.read table.name) keys) =
      .ok (keys.filterMap (contents.row name)) := by
    rw [named]
    exact answer_gather _ fun id _ => reply_read name id
  rw [Executor.build, KeyLookup.execute, reply_bind (reply_mustReadTable.mpr known)]
  rw [reply_bind gathered]
  rfl

end Contents

namespace HashSet

/-- A set with the values of a list added to it. -/
def union (set : HashSet) (values : List Value) : HashSet :=
  values.foldl (fun set value =>
    if set.any fun stored => stored.finds value then set else set ++ [value]) set

theorem foldlM_insert {set : HashSet} {values : List Value}
    (present : ∀ value ∈ values, value ≠ .null) :
    values.foldlM HashSet.insert set = .ok (set.union values) := by
  induction values generalizing set with
  | nil => rfl
  | cons value values ih =>
    have inserted : insert set value =
        .ok (if set.any fun stored => stored.finds value then set else set ++ [value]) := by
      cases value with
      | null => exact absurd rfl (present .null List.mem_cons_self)
      | _ => rfl
    rw [List.foldlM_cons, inserted]
    exact ih fun other inside => present other (List.mem_cons_of_mem _ inside)

/-- How often a value is in a set that had it some number of times and to which it is added
another number of times: NaN once more each time, and other values at most once. -/
def tally (id : Value) (before added : Nat) : Nat :=
  if id.isNaN then before + added else max before (min 1 added)

theorem tally_tally (id : Value) (before first second : Nat) :
    tally id (tally id before first) second = tally id before (first + second) := by
  unfold tally
  split <;> omega

theorem tally_zero (id : Value) (before : Nat) : tally id before 0 = before := by
  unfold tally
  split <;> omega

theorem any_finds_iff {set : HashSet} {value : Value} :
    (set.any fun stored => stored.finds value) = true ↔ value ∈ set ∧ value.isNaN = false := by
  rw [List.any_eq_true]
  constructor
  · intro ⟨stored, inside, found⟩
    obtain ⟨same, number⟩ := Value.finds_iff.mp found
    exact ⟨same ▸ inside, number⟩
  · intro ⟨inside, number⟩
    exact ⟨value, inside, Value.finds_iff.mpr ⟨rfl, number⟩⟩

theorem count_insert (set : HashSet) (value id : Value) :
    (if set.any fun stored => stored.finds value then set else set ++ [value]).count id =
      tally id (set.count id) ([value].count id) := by
  by_cases same : value = id
  · subst same
    by_cases number : value.isNaN = false
    · by_cases inside : value ∈ set
      · have positive := List.count_pos_iff.mpr inside
        rw [if_pos (any_finds_iff.mpr ⟨inside, number⟩)]
        simp [tally, number]
        omega
      · rw [if_neg fun found => inside (any_finds_iff.mp found).1]
        simp [tally, number, List.count_eq_zero.mpr inside]
    · rw [if_neg fun found => number (any_finds_iff.mp found).2]
      simp [tally, number]
  · have other : [value].count id = 0 := by simp [same]
    rw [other, tally_zero]
    split
    · rfl
    · rw [List.count_append, other, Nat.add_zero]

theorem count_union (set : HashSet) (values : List Value) (id : Value) :
    (set.union values).count id = tally id (set.count id) (values.count id) := by
  induction values generalizing set with
  | nil => exact (tally_zero id _).symm
  | cons value values ih =>
    change (union _ values).count id = _
    rw [ih, count_insert, tally_tally, ← List.count_append]
    rfl

end HashSet

namespace Contents

variable {contents : Contents} {table : Table} {position : Nat} {column : Column}

/-- The primary keys that an index lookup collects. -/
def collected (contents : Contents) (name column : String) (values : List Value) (pks : HashSet) :
    HashSet :=
  values.foldl (fun pks value => pks.union (contents.index name column value)) pks

section

variable (consistent : contents.Consistent table)

include consistent

section

variable (placed : table.columns[position]? = some column)

include placed

section

variable (marked : column.index = true)

include marked

/-- The index entry of a value lists a stored row exactly if it has that value. -/
theorem Consistent.count_index (stored : contents.row table.name id = some row) (value : Value) :
    (contents.index table.name column.name value).count id =
      [value].count (cell row position) := by
  have inverts := consistent.lists placed marked
  have listed : id ∈ contents.index table.name column.name value ↔ cell row position = value := by
    have inside : position < row.length := by
      rw [consistent.wide stored]
      exact (List.getElem?_eq_some_iff.mp placed).1
    change id ∈ (contents.entries table.name column.name value).getD [] ↔ _
    rw [inverts.mem_iff]
    simp [stored, cell, List.getElem?_eq_getElem inside]
  have distinct : (contents.index table.name column.name value).Nodup := inverts.distinct value
  by_cases same : cell row position = value
  · rw [List.count_eq_one_of_mem distinct (listed.mpr same)]
    simp [same]
  · rw [List.count_eq_zero.mpr fun inside => same (listed.mp inside)]
    simp [Ne.symm same]

theorem Consistent.count_collected (stored : contents.row table.name id = some row)
    (values : List Value) (pks : HashSet) :
    (contents.collected table.name column.name values pks).count id =
      HashSet.tally id (pks.count id) (values.count (cell row position)) := by
  induction values generalizing pks with
  | nil => exact (HashSet.tally_zero id _).symm
  | cons value values ih =>
    change (contents.collected table.name column.name values _).count id = _
    rw [ih, HashSet.count_union, consistent.count_index placed marked stored,
      HashSet.tally_tally, ← List.count_append]
    rfl

theorem Consistent.reply_extend (values : List Value) (pks : HashSet) :
    contents.reply (IndexLookup.extend table.name column.name values pks) =
      .ok (contents.collected table.name column.name values pks) := by
  induction values generalizing pks with
  | nil => rfl
  | cons value values ih =>
    have read := reply_readIndex consistent.known consistent.formed.distinct placed marked value
    have present : ∀ id ∈ contents.index table.name column.name value, id ≠ .null := by
      intro id inside
      obtain ⟨row, stored, _⟩ := ((consistent.lists placed marked).mem_iff value id).mp inside
      exact (consistent.keyed stored).2
    have inserted : contents.reply (lift
        ((contents.index table.name column.name value).foldlM HashSet.insert pks)) =
        .ok (pks.union (contents.index table.name column.name value)) := by
      rw [HashSet.foldlM_insert present]
      rfl
    rw [IndexLookup.extend, reply_bind read, reply_bind inserted]
    exact ih _

theorem Consistent.reply_indexLookup {aliased : Option String} (values : List Value) :
    contents.reply (Executor.build (.indexLookup table.name aliased column.name values)) =
      .ok (.query table.headings
        (((contents.collected table.name column.name values []).filterMap
          (contents.row table.name)).map .ok)) := by
  have gathered : contents.reply (gather (Kv.read table.name)
      (contents.collected table.name column.name values [])) =
      .ok ((contents.collected table.name column.name values []).filterMap
        (contents.row table.name)) :=
    answer_gather _ fun id _ => reply_read table.name id
  rw [Executor.build, IndexLookup.execute, reply_bind (reply_mustReadTable.mpr consistent.known),
    reply_bind (consistent.reply_extend placed marked values []), reply_bind gathered]
  rfl

end

end

end

end Contents

namespace IndexLookup

variable {contents : Contents} {table : Table} {pk : Nat} {lookup : Lookup}
  {conjunct : Expression} {cnf rest : List Expression}

/-- The chosen conjunct and the others are the conjuncts. -/
theorem mem_choose (chosen : choose table pk cnf = some (lookup, conjunct, rest))
    (other : Expression) : other ∈ cnf ↔ other = conjunct ∨ other ∈ rest := by
  induction cnf generalizing rest with
  | nil => cases chosen
  | cons first cnf ih =>
    unfold choose at chosen
    split at chosen
    · cases chosen
      exact List.mem_cons
    · obtain ⟨⟨found, one, others⟩, isFound, isChosen⟩ := Option.map_eq_some_iff.mp chosen
      cases isChosen
      rw [List.mem_cons, ih isFound, List.mem_cons]
      tauto

theorem asLookup_of_choose (chosen : choose table pk cnf = some (lookup, conjunct, rest)) :
    asLookup table pk conjunct = some lookup := by
  induction cnf generalizing rest with
  | nil => cases chosen
  | cons first cnf ih =>
    unfold choose at chosen
    split at chosen
    · rename_i found isFound
      cases chosen
      exact isFound
    · obtain ⟨⟨found, one, others⟩, isFound, isChosen⟩ := Option.map_eq_some_iff.mp chosen
      cases isChosen
      exact ih isFound

/-- A lookup of an index is one of an indexed column. -/
theorem placed_of_choose {position : Nat} {column : Column} {values : List Value}
    (chosen : choose table pk cnf = some (.index position column values, conjunct, rest)) :
    table.columns[position]? = some column ∧ column.index = true := by
  have isLookup := asLookup_of_choose chosen
  unfold asLookup at isLookup
  split at isLookup
  · cases isLookup
  · obtain ⟨⟨place, found⟩, inside, isFound⟩ := List.exists_of_findSome?_eq_some isLookup
    obtain ⟨_, _, isIndex⟩ := Option.map_eq_some_iff.mp isFound
    cases isIndex
    exact Table.mem_indexes.mp inside

/-- How often a lookup finds the row with a primary key. -/
def Lookup.times (id : Value) (row : Row) : Lookup → Nat
  | .key keys => keys.count id
  | .index position _ values => HashSet.tally id 0 (values.count (cell row position))

/-- A lookup returns the rows of primary keys, each as often as it finds it. -/
theorem reply_lookup {aliased : Option String} (consistent : contents.Consistent table)
    (chosen : choose table pk cnf = some (lookup, conjunct, rest)) :
    ∃ ids : List Value, contents.reply (Executor.build (lookup.node table.name aliased)) =
        .ok (.query table.headings ((ids.filterMap (contents.row table.name)).map .ok)) ∧
      ∀ id row, contents.row table.name id = some row → ids.count id = lookup.times id row := by
  cases lookup with
  | key keys =>
    exact ⟨keys, Contents.reply_keyLookup keys consistent.known rfl, fun _ _ _ => rfl⟩
  | index position column values =>
    obtain ⟨placed, marked⟩ := placed_of_choose chosen
    refine ⟨_, consistent.reply_indexLookup placed marked values, ?_⟩
    intro id row stored
    exact consistent.count_collected placed marked stored values []

/-- Every row that meets the other conjuncts is looked up once if the chosen conjunct is TRUE
for it, and else not at all. -/
def Exact (contents : Contents) (table : Table) (filter : Expression) : Prop :=
  ∀ pk lookup conjunct rest,
    table.columns.findIdx? (fun column => column.primaryKey) = some pk →
    choose table pk filter.intoCnfVec = some (lookup, conjunct, rest) →
    ∀ id row, contents.row table.name id = some row →
      (∀ other ∈ rest, other.holds row = true) →
      lookup.times id row = if conjunct.holds row then 1 else 0

/-- How often the rows of primary keys contain a stored row. -/
theorem count_filterMap_row (consistent : contents.Consistent table) (ids : List Value)
    (stored : contents.row table.name id = some row) :
    (ids.filterMap (contents.row table.name)).count row = ids.count id := by
  rw [List.count_filterMap, List.count]
  apply List.countP_congr
  intro other _
  simp only [beq_iff_eq]
  constructor
  · intro found
    exact consistent.keeps.id_unique found stored
  · intro same
    rw [same, stored]

/-- Filtered rows of a lookup are those of the scan exactly if each stored row that passes is
looked up as often as the scan returns it. -/
theorem perm_iff (consistent : contents.Consistent table) (ids : List Value)
    (scanned passed : Row → Bool) (weaker : ∀ row, scanned row = true → passed row = true) :
    ((contents.rows table.name).filter scanned).Perm
        ((ids.filterMap (contents.row table.name)).filter passed) ↔
      ∀ id row, contents.row table.name id = some row → passed row = true →
        ids.count id = if scanned row then 1 else 0 := by
  have scannedCount {id : Value} {row : Row} (stored : contents.row table.name id = some row) :
      ((contents.rows table.name).filter scanned).count row = if scanned row then 1 else 0 := by
    split
    · rename_i found
      rw [List.count_filter found]
      exact List.count_eq_one_of_mem consistent.keeps.nodup_rows (Contents.mem_rows.mpr ⟨id, stored⟩)
    · rename_i missing
      exact List.count_eq_zero.mpr fun inside => missing (List.mem_filter.mp inside).2
  rw [List.perm_iff_count]
  constructor
  · intro same id row stored passes
    rw [← scannedCount stored, same row, List.count_filter passes,
      count_filterMap_row consistent ids stored]
  · intro exact row
    by_cases isStored : ∃ id, contents.row table.name id = some row
    · obtain ⟨id, stored⟩ := isStored
      rw [scannedCount stored]
      by_cases passes : passed row = true
      · rw [List.count_filter passes, count_filterMap_row consistent ids stored,
          exact id row stored passes]
      · rw [if_neg fun found => passes (weaker row found)]
        exact (List.count_eq_zero.mpr fun inside => passes (List.mem_filter.mp inside).2).symm
    · rw [List.count_eq_zero.mpr, List.count_eq_zero.mpr]
      · intro inside
        obtain ⟨id, _, stored⟩ := List.mem_filterMap.mp (List.mem_filter.mp inside).1
        exact isStored ⟨id, stored⟩
      · intro inside
        exact isStored (Contents.mem_rows.mp (List.mem_filter.mp inside).1)

/-- A lookup wrapped in the other conjuncts returns the rows on which they hold. -/
theorem reply_wrapCnf {node : Node} {columns : Columns} {rows : List Row}
    (run : contents.reply (Executor.build node) = .ok (.query columns (rows.map .ok)))
    (decided : ∀ row ∈ rows, ∀ other ∈ rest, other.Decided row) :
    contents.reply (Executor.build (wrapCnf node rest)) =
      .ok (.query columns ((rows.filter fun row =>
        NestedLoopRows.passes (Expression.fromCnfVec rest) row).map .ok)) := by
  cases rest with
  | nil => simpa [wrapCnf, Expression.fromCnfVec, NestedLoopRows.passes] using run
  | cons first rest =>
    have filtered : (rows.map Except.ok).filterMap (Filter.item (rest.foldl .and first)) =
        (rows.filter fun row => (rest.foldl Expression.and first).holds row).map .ok := by
      rw [List.filterMap_map]
      exact Expression.filterMap_filterRow_of_decided fun row inside =>
        (Expression.decided_foldl_and rest first).mpr (decided row inside)
    have wrapped := Contents.reply_filter (rest.foldl .and first) run
    rw [filtered] at wrapped
    exact wrapped

theorem exists_primaryKey (formed : table.WellFormed) :
    ∃ pk, table.columns.findIdx? (fun column => column.primaryKey) = some pk := by
  have some := List.countP_pos_iff.mp (by rw [formed.single]; exact Nat.one_pos)
  obtain ⟨column, inside, primary⟩ := some
  obtain ⟨position, placed⟩ := List.mem_iff_getElem?.mp inside
  exact ⟨position, findIdx?_of_countP formed.single placed primary⟩

theorem optimize_scan (name : String) (aliased : Option String) (filter : Expression) :
    optimize (.scan name aliased (some filter)) = replace (.scan name aliased (some filter)) := by
  rw [optimize, Node.transform]
  rfl

theorem reply_optimize {aliased : Option String} {filter : Expression}
    (known : contents.table table.name = some table)
    (primary : table.columns.findIdx? (fun column => column.primaryKey) = some pk) :
    contents.reply (optimize (.scan table.name aliased (some filter))) =
      .ok (match choose table pk filter.intoCnfVec with
        | some (lookup, _, rest) => wrapCnf (lookup.node table.name aliased) rest
        | none => .scan table.name aliased (some filter)) := by
  rw [optimize_scan, replace, Contents.reply_bind (Contents.reply_mustReadTable.mpr known),
    primary]
  dsimp only
  obtain _ | ⟨_, _, _⟩ := choose table pk filter.intoCnfVec <;> rfl

theorem holds_iff_chosen {filter : Expression} (decided : filter.Decided row)
    (chosen : choose table pk filter.intoCnfVec = some (lookup, conjunct, rest)) :
    filter.holds row = true ↔ conjunct.holds row = true ∧
      NestedLoopRows.passes (Expression.fromCnfVec rest) row = true := by
  obtain ⟨truth, evaluated⟩ := decided
  rw [Expression.holds_iff_conjuncts evaluated, Expression.passes_fromCnfVec]
  simp only [mem_choose chosen, forall_eq_or_imp]

/-- Two readings, one of them without a level, and their index. -/
def measured : Contents :=
  Program.replayAll Store.replay ∅
    [.set (.table "readings") readings,
      .set (.row "readings" (.integer 1)) [.integer 1, .float .zero],
      .set (.row "readings" (.integer 2)) [.integer 2, .null],
      .set (.index "readings" "level" (.float .zero)) [.integer 1],
      .set (.index "readings" "level" .null) [.integer 2]]

theorem measured_row (stored : measured.row "readings" id = some row) :
    id = .integer 1 ∧ row = [.integer 1, .float .zero] ∨ id = .integer 2 ∧ row = [.integer 2, .null] := by
  obtain before | written := Store.get_replayAll_eq_some ∅ _ stored
  · cases before
  · simpa using written

theorem measured_entries {value : Value} {ids : HashSet}
    (stored : measured.entries "readings" "level" value = some ids) :
    value = .float .zero ∧ ids = [.integer 1] ∨ value = .null ∧ ids = [.integer 2] := by
  obtain before | written := Store.get_replayAll_eq_some ∅ _ stored
  · cases before
  · simpa using written

theorem measured_inverts : Inverts (measured.entries "readings" "level") (measured.row "readings")
    fun row : Row => row[1]? where
  filled value empty := by
    obtain ⟨_, isEmpty⟩ | ⟨_, isEmpty⟩ := measured_entries empty <;> cases isEmpty
  distinct value := by
    cases stored : measured.entries "readings" "level" value with
    | none => simp
    | some ids => obtain ⟨_, rfl⟩ | ⟨_, rfl⟩ := measured_entries stored <;> simp
  mem_iff value id := by
    constructor
    · intro inside
      cases stored : measured.entries "readings" "level" value with
      | none => simp [stored] at inside
      | some ids =>
        rw [stored] at inside
        obtain ⟨isValue, isIds⟩ | ⟨isValue, isIds⟩ := measured_entries stored
        · subst isValue isIds
          obtain rfl := List.mem_singleton.mp inside
          exact ⟨[.integer 1, .float .zero], by decide +kernel, rfl⟩
        · subst isValue isIds
          obtain rfl := List.mem_singleton.mp inside
          exact ⟨[.integer 2, .null], by decide +kernel, rfl⟩
    · intro ⟨row, stored, isValue⟩
      obtain ⟨isId, isRow⟩ | ⟨isId, isRow⟩ := measured_row stored
      · subst isId isRow
        cases isValue
        decide +kernel
      · subst isId isRow
        cases isValue
        decide +kernel

theorem measured_consistent : measured.Consistent readings where
  known := by decide +kernel
  formed := ⟨by decide, by decide⟩
  wide stored := by
    obtain ⟨_, isRow⟩ | ⟨_, isRow⟩ := measured_row stored <;> rw [isRow] <;> rfl
  keyed stored := by
    obtain ⟨isId, isRow⟩ | ⟨isId, isRow⟩ := measured_row stored <;> rw [isId, isRow] <;> decide
  lists {position column} placed marked := by
    match position with
    | 0 =>
      cases placed
      cases marked
    | 1 =>
      cases placed
      exact measured_inverts
    | position + 2 => cases placed

/-- The optimizer replaces a scan by a node that returns other rows. -/
def Misses (filter : Expression) (rows others : List Row) : Prop :=
  ∃ node, measured.reply (optimize (.scan "readings" none (some filter))) = .ok node ∧
    measured.reply (Executor.build (.scan "readings" none (some filter))) =
      .ok (.query readings.headings (rows.map .ok)) ∧
    measured.reply (Executor.build node) = .ok (.query readings.headings (others.map .ok))

end IndexLookup

end Radb.Sql
