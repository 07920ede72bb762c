import Radb.Foundation.InvertedIndex
import Radb.Sql.Engine.Constraints

/-! # Secondary indexes

The index entries of a table list its rows by their values. Every call that returns
keeps them in step with the rows, if primary keys and indexed values are plain: neither
NaN, which a hash set never finds again, nor negative zero, which equals a value that is
stored under another key.
-/

namespace Radb.Sql

open Foundation Foundation.Script

variable {row : Row} {value id : Value} {name : String}
  {table : Table} {position : Nat}

theorem Table.mem_indexes {column : Column} :
    (position, column) ∈ table.indexes ↔
      table.columns[position]? = some column ∧ column.index = true := by
  unfold Table.indexes
  rw [List.mem_map]
  constructor
  · rintro ⟨⟨found, place⟩, member, same⟩
    cases same
    obtain ⟨listed, indexed⟩ := List.mem_filter.mp member
    exact ⟨List.mem_zipIdx_iff_getElem?.mp listed, indexed⟩
  · rintro ⟨placed, indexed⟩
    exact ⟨(column, position),
      List.mem_filter.mpr ⟨List.mem_zipIdx_iff_getElem?.mpr placed, indexed⟩, rfl⟩

/-- Indexed columns are told apart by their names. -/
theorem Table.nodup_indexes (distinct : (table.columns.map Column.name).Nodup) :
    (table.indexes.map fun pair => pair.2.name).Nodup := by
  unfold Table.indexes
  rw [List.map_map]
  refine List.Nodup.sublist ?_ distinct
  have listed : table.columns.map Column.name =
      table.columns.zipIdx.map (fun pair => pair.1.name) := by
    rw [show (fun pair : Column × Nat => pair.1.name) = Column.name ∘ Prod.fst from rfl,
      ← List.map_map, List.zipIdx_map_fst]
  rw [listed]
  exact List.filter_sublist.map _

namespace Contents

/-- The stored index entries of a column. -/
def entries (contents : Contents) (name column : String) (value : Value) : Option HashSet :=
  Store.get contents (.index name column value)

/-- The index entries are those of given tables and rows. -/
structure IndexedBy (contents : Contents) (relations : Relations) : Prop where
  lists : ∀ {name table} {position : Nat} {column : Column}, relations.table name = some table →
    table.columns[position]? = some column → column.index = true →
    Inverts (contents.entries name column.name) (relations.row name)
      fun row : Row => row[position]?
  owned : ∀ {name column value}, contents.entries name column value ≠ none →
    ∃ (table : Table) (position : Nat) (found : Column), relations.table name = some table ∧
      table.columns[position]? = some found ∧ found.name = column ∧ found.index = true

/-- A table whose rows are stored under their primary keys, which are not NULL. -/
structure Keeps (contents : Contents) (table : Table) : Prop where
  known : contents.table table.name = some table
  formed : table.WellFormed
  wide : ∀ {id row}, contents.row table.name id = some row →
    row.length = table.columns.length
  keyed : ∀ {id row}, contents.row table.name id = some row →
    table.getRowKey row = .ok id ∧ id ≠ .null

variable {contents : Contents} {table : Table}

/-- Rows are stored under one key only. -/
theorem Keeps.id_unique (keeps : contents.Keeps table) {first second : Value}
    (left : contents.row table.name first = some row)
    (right : contents.row table.name second = some row) : first = second := by
  have firstKey := (keeps.keyed left).1
  have secondKey := (keeps.keyed right).1
  rw [firstKey] at secondKey
  exact Except.ok.inj secondKey

/-- A scan returns every row once. -/
theorem Keeps.nodup_rows (keeps : contents.Keeps table) :
    (contents.rows table.name).Nodup := by
  unfold rows Kv.rowsOf
  rw [List.Nodup, List.pairwise_filterMap]
  refine (Store.sorted_scanGroup contents _).imp_of_mem ?_
  intro first second firstIn secondIn below one isOne other isOther same
  obtain ⟨firstKey, firstRow⟩ := first
  obtain ⟨secondKey, secondRow⟩ := second
  obtain ⟨firstCovered, firstStored⟩ := (Store.mem_scanGroup contents _ _ _).mp firstIn
  obtain ⟨secondCovered, secondStored⟩ := (Store.mem_scanGroup contents _ _ _).mp secondIn
  cases firstKey with
  | row firstName firstId =>
    cases secondKey with
    | row secondName secondId =>
      cases isOne
      cases isOther
      obtain rfl : table.name = firstName := by simpa [KeyPrefix.covers] using firstCovered
      obtain rfl : table.name = secondName := by simpa [KeyPrefix.covers] using secondCovered
      have sameId := keeps.id_unique firstStored (same ▸ secondStored)
      subst sameId
      exact lt_irrefl _ below
    | _ => cases isOther
  | _ => cases isOne

/-- The primary key of a row and its indexed values are plain. -/
def PlainRow (table : Table) (id : Value) (row : Row) : Prop :=
  id.isPlain = true ∧ ∀ (position : Nat) (column : Column) (value : Value),
    table.columns[position]? = some column → column.index = true → row[position]? = some value →
    value.isPlain = true

/-- The indexes of a sound database are those of its rows, which are plain. -/
structure Indexed (contents : Contents) : Prop where
  sound : contents.relations.Sound
  matched : contents.IndexedBy contents.relations
  plain : ∀ {name table id row}, contents.relations.table name = some table →
    contents.relations.row name id = some row → PlainRow table id row

theorem isNaN_of_isPlain (plain : value.isPlain = true) : value.isNaN = false := by
  simp only [Value.isPlain, Bool.and_eq_true, Bool.not_eq_true'] at plain
  exact plain.1

end Contents

namespace Kv

variable {contents : Contents} {refuses : Key → Option Fault}
  {column : String} {rows : Value → Option Row} {old : Relations}

theorem indexSave_ensures (name column : String) (value : Value) (index : HashSet) :
    (indexSave name column value index).Leaves refuses contents
      (Ends (fun _ (after : Contents) => after.entries name column =
        Function.update (contents.entries name column) value (saved index)) fun _ _ => True) := by
  unfold indexSave
  split
  · next empty =>
    subst empty
    refine ensures_perform (fun _ _ => trivial) fun _ => ?_
    funext other
    by_cases same : other = value
    · subst same
      rw [Function.update_self]
      exact Store.get_delete_self _ _
    · rw [Function.update_of_ne same]
      exact Store.get_delete_of_ne _ (by simpa using same)
  · next filled =>
    refine ensures_perform (fun _ _ => trivial) fun _ => ?_
    funext other
    by_cases same : other = value
    · subst same
      rw [Function.update_self]
      cases index with
      | nil => exact absurd rfl filled
      | cons first rest => exact Store.get_set_self _ _ _
    · rw [Function.update_of_ne same]
      exact Store.get_set_of_ne _ _ (by simpa using same)

/-- Inserting the key of a row into the entry of its value adds the row to the index. -/
theorem indexInsert_ensures (row : Row)
    (inverts : Inverts (contents.entries name column) rows fun row : Row => row[position]?)
    (absent : rows id = none) (here : row[position]? = some value) (number : id.isNaN = false) :
    (indexInsert name column value id).Leaves refuses contents
      (Ends (fun _ (after : Contents) => Inverts (after.entries name column)
        (Function.update rows id (some row)) fun row : Row => row[position]?)
        fun _ _ => True) := by
  unfold indexInsert
  simp only [bind_eq_andThen]
  refine (reads_indexLoad _ _ _).ensures_andThen (fun _ _ => trivial) fun index loaded => ?_
  cases loaded
  refine (reads_lift _).ensures_andThen (fun _ _ => trivial) fun next inserted => ?_
  rw [answer_lift] at inserted
  refine (indexSave_ensures name column value next).mono fun result after written => ?_
  cases result with
  | error fault => trivial
  | ok _ =>
    dsimp only [Ends] at written ⊢
    rw [written]
    exact inverts.add absent here (HashSet.mem_insert inserted)
      (HashSet.nodup_insert inserted number (inverts.distinct value))

/-- Removing the key of a row from the entry of its value removes the row from the
index. -/
theorem indexRemove_ensures
    (inverts : Inverts (contents.entries name column) rows fun row : Row => row[position]?)
    (present : rows id = some row) (here : row[position]? = some value)
    (number : id.isNaN = false) :
    (indexRemove name column value id).Leaves refuses contents
      (Ends (fun _ (after : Contents) => Inverts (after.entries name column)
        (Function.update rows id none) fun row : Row => row[position]?) fun _ _ => True) := by
  unfold indexRemove
  simp only [bind_eq_andThen]
  refine (reads_indexLoad _ _ _).ensures_andThen (fun _ _ => trivial) fun index loaded => ?_
  cases loaded
  refine (reads_lift _).ensures_andThen (fun _ _ => trivial) fun next removed => ?_
  rw [answer_lift] at removed
  refine (indexSave_ensures name column value next).mono fun result after written => ?_
  cases result with
  | error fault => trivial
  | ok _ =>
    dsimp only [Ends] at written ⊢
    rw [written]
    exact inverts.remove present here (HashSet.mem_remove removed number)
      (HashSet.nodup_remove removed (inverts.distinct value))

section Loop

variable {table : Table} {action : Nat × Column → Task Unit} {old new : Relations}

/-- The state of a loop over the indexes of a table that turns each of them from the old
rows to the new ones. -/
structure Turning (contents : Contents) (table : Table) (old new : Relations)
    (rest : List (Nat × Column)) (current : Contents) : Prop where
  done : ∃ turned, turned ++ rest = table.indexes ∧ ∀ pair ∈ turned,
    Inverts (current.entries table.name pair.2.name) (new.row table.name)
      fun row : Row => row[pair.1]?
  rest : ∀ pair ∈ rest, Inverts (current.entries table.name pair.2.name) (old.row table.name)
    fun row : Row => row[pair.1]?
  others : ∀ name, name ≠ table.name → current.entries name = contents.entries name
  owned : ∀ column value, current.entries table.name column value ≠ none →
    ∃ pair ∈ table.indexes, pair.2.name = column

theorem each_indexes (known : old.table table.name = some table) (tables : new.table = old.table)
    (others : ∀ name, name ≠ table.name → new.row name = old.row name)
    (distinct : (table.columns.map Column.name).Nodup)
    (writes : ∀ pair, (action pair).Writes fun key => ∃ value, key = .index table.name pair.2.name value)
    (turns : ∀ pair ∈ table.indexes, ∀ current : Contents,
      Inverts (current.entries table.name pair.2.name) (old.row table.name)
        (fun row : Row => row[pair.1]?) →
      (action pair).Leaves refuses current
        (Ends (fun _ (next : Contents) => Inverts (next.entries table.name pair.2.name)
          (new.row table.name) fun row : Row => row[pair.1]?) fun _ _ => True))
    (matched : contents.IndexedBy old) :
    (each action table.indexes).Ensures KeyPrefix.covers refuses contents
      (Ends (fun _ (next : Contents) => next.IndexedBy new) fun _ _ => True) := by
  have looped : (each action table.indexes).Ensures KeyPrefix.covers refuses contents
      (Ends (fun _ => Turning contents table old new []) fun _ _ => True) := by
    refine ensures_each_rest (Turning contents table old new) (fun _ _ => True) ?_ ?_
    · refine ⟨⟨[], rfl, fun pair member => by cases member⟩, ?_, fun _ _ => rfl, ?_⟩
      · intro pair member
        obtain ⟨placed, indexed⟩ := Table.mem_indexes.mp member
        exact matched.lists known placed indexed
      · intro column value stored
        obtain ⟨found, position, owner, present, placed, named, indexed⟩ := matched.owned stored
        cases known.symm.trans present
        exact ⟨(position, owner), Table.mem_indexes.mpr ⟨placed, indexed⟩, named⟩
    · rintro pair rest current ⟨⟨turned, split, done⟩, left, apart, owned⟩
      have member : pair ∈ table.indexes := by rw [← split]; simp
      have names := Table.nodup_indexes distinct
      rw [← split, List.map_append, List.map_cons] at names
      have otherName : ∀ other ∈ turned ++ rest, other.2.name ≠ pair.2.name := by
        intro other inside same
        have apart := (List.nodup_middle.mp names)
        rw [List.nodup_cons, ← List.map_append] at apart
        exact apart.1 (same ▸ List.mem_map_of_mem inside)
      refine ((turns pair member current (left pair List.mem_cons_self)).and
        (writes pair).ensures).mono fun result next holds => ?_
      obtain ⟨turnedNow, unchanged⟩ := holds
      cases result with
      | error fault => trivial
      | ok _ =>
        have kept : ∀ other ∈ turned ++ rest, Contents.entries next table.name other.2.name =
            Contents.entries current table.name other.2.name := by
          intro other inside
          funext value
          exact unchanged _ (by simp [otherName other inside])
        refine ⟨⟨turned ++ [pair], by simp [split], ?_⟩, ?_, ?_, ?_⟩
        · intro other inside
          rcases List.mem_append.mp inside with earlier | now
          · rw [kept other (List.mem_append_left _ earlier)]
            exact done other earlier
          · rw [List.mem_singleton.mp now]
            exact turnedNow
        · intro other inside
          rw [kept other (List.mem_append_right _ inside)]
          exact left other (List.mem_cons_of_mem _ inside)
        · intro name different
          rw [← apart name different]
          funext column value
          exact unchanged _ (by simp [different])
        · intro column value stored
          by_cases same : column = pair.2.name
          · exact ⟨pair, member, same.symm⟩
          · refine owned column value ?_
            rwa [Contents.entries, unchanged _ (by simp [same])] at stored
  refine looped.mono fun result next turning => ?_
  cases result with
  | error fault => trivial
  | ok _ =>
    obtain ⟨⟨turned, split, done⟩, _, apart, owned⟩ := turning
    rw [List.append_nil] at split
    subst split
    refine ⟨?_, ?_⟩
    · intro name found position column present placed indexed
      by_cases own : name = table.name
      · subst own
        rw [tables] at present
        cases known.symm.trans present
        exact done (position, column) (Table.mem_indexes.mpr ⟨placed, indexed⟩)
      · rw [apart name own, others name own]
        exact matched.lists (tables ▸ present) placed indexed
    · intro name column value stored
      by_cases own : name = table.name
      · subst own
        obtain ⟨⟨position, found⟩, member, named⟩ := owned column value stored
        obtain ⟨placed, indexed⟩ := Table.mem_indexes.mp member
        exact ⟨table, position, found, by rw [tables, known], placed, named, indexed⟩
      · rw [apart name own] at stored
        rw [tables]
        exact matched.owned stored

end Loop

open Contents

/-- Adding a row to the indexes. -/
theorem createIndexes_ensures (known : old.table table.name = some table)
    (distinct : (table.columns.map Column.name).Nodup) (absent : old.row table.name id = none)
    (number : id.isNaN = false) (matched : contents.IndexedBy old) :
    (createIndexes table id row).Leaves refuses contents
      (Ends (fun _ (next : Contents) =>
        next.IndexedBy (old.setRow table.name id (some row))) fun _ _ => True) := by
  refine each_indexes known rfl (fun name different => Relations.setRow_row_of_ne _ _ _ different)
    distinct (fun pair => ?_) (fun pair member current inverts => ?_) matched
  · exact (reads_lift _).writes.andThen fun value => writes_indexInsert ⟨value, rfl⟩ id
  · refine (reads_lift _).ensures_andThen (fun _ _ => trivial) fun value found => ?_
    rw [answer_lift] at found
    rw [Relations.setRow_row_self]
    exact indexInsert_ensures row inverts absent (element_eq_ok found) number

theorem indexedBy_of_indexes_nil (id : Value) (row : Option Row)
    (known : old.table table.name = some table) (none : table.indexes = [])
    (matched : contents.IndexedBy old) : contents.IndexedBy (old.setRow table.name id row) where
  lists := by
    intro name found position column present placed indexed
    by_cases own : name = table.name
    · subst own
      cases known.symm.trans present
      have member := Table.mem_indexes.mpr ⟨placed, indexed⟩
      rw [none] at member
      cases member
    · rw [Relations.setRow_row_of_ne _ _ _ own]
      exact matched.lists present placed indexed
  owned := matched.owned

/-- Removing a row from the indexes, unless its key is NaN. -/
theorem deleteIndexes_ensures (known : contents.relations.table table.name = some table)
    (distinct : (table.columns.map Column.name).Nodup)
    (matched : contents.IndexedBy contents.relations)
    (numbers : table.indexes ≠ [] → contents.relations.row table.name id ≠ none →
      id.isNaN = false) :
    (deleteIndexes table id).Leaves refuses contents
      (Ends (fun _ (next : Contents) =>
        next.IndexedBy (contents.relations.setRow table.name id none)) fun _ _ => True) := by
  unfold deleteIndexes
  split
  · next none => exact indexedBy_of_indexes_nil id .none known none matched
  · next filled =>
    simp only [bind_eq_andThen]
    refine (reads_read _).ensures_andThen (fun _ _ => trivial) fun found read => ?_
    cases found with
    | none =>
      have absent : contents.relations.row table.name id = none := Except.ok.inj read
      change contents.IndexedBy (contents.relations.setRow table.name id none)
      rw [Relations.setRow_none_of_absent absent]
      exact matched
    | some row =>
      have present : contents.relations.row table.name id = some row := Except.ok.inj read
      have number := numbers filled (by simp [present])
      refine each_indexes known rfl
        (fun name different => Relations.setRow_row_of_ne _ _ _ different)
        distinct (fun pair => ?_) (fun pair member current inverts => ?_) matched
      · exact (reads_lift _).writes.andThen fun value => writes_indexRemove ⟨value, rfl⟩ id
      · refine (reads_lift _).ensures_andThen (fun _ _ => trivial) fun value found => ?_
        rw [answer_lift] at found
        rw [Relations.setRow_row_self]
        exact indexRemove_ensures inverts present (element_eq_ok found) number

/-- Moving a row to its new index entries. -/
theorem updateIndexes_ensures (indexed : contents.Indexed)
    (known : contents.relations.table table.name = some table) (plain : PlainRow table id row) :
    (updateIndexes table id row).Leaves refuses contents
      (Ends (fun _ (next : Contents) =>
        next.IndexedBy (contents.relations.setRow table.name id (some row))) fun _ _ => True) := by
  unfold updateIndexes
  split
  · next none => exact indexedBy_of_indexes_nil id _ known none indexed.matched
  · simp only [bind_eq_andThen]
    refine (reads_read _).ensures_andThen (fun _ _ => trivial) fun found read => ?_
    cases found with
    | none => trivial
    | some old =>
      have present : contents.relations.row table.name id = some old := Except.ok.inj read
      have number := isNaN_of_isPlain plain.1
      refine each_indexes known rfl
        (fun name different => Relations.setRow_row_of_ne _ _ _ different)
        (indexed.sound.formed known).distinct (fun pair => ?_)
        (fun pair member current inverts => ?_) indexed.matched
      · exact writes_updateIndex (fun value => ⟨value, rfl⟩) id old row
      · obtain ⟨placed, marked⟩ := Table.mem_indexes.mp member
        refine (reads_lift _).ensures_andThen (fun _ _ => trivial) fun before foundBefore => ?_
        refine (reads_lift _).ensures_andThen (fun _ _ => trivial) fun after foundAfter => ?_
        rw [answer_lift] at foundBefore foundAfter
        have here := element_eq_ok foundBefore
        have there := element_eq_ok foundAfter
        rw [Relations.setRow_row_self]
        split
        · -- equal plain values are the same, so the entry stays
          next same =>
          have equal := (Value.equals_iff_eq ((indexed.plain known present).2 _ _ _ placed marked
            here) (plain.2 _ _ _ placed marked there)).mp same
          exact inverts.replace present (there.trans (equal ▸ here.symm))
        · refine (indexRemove_ensures inverts present here number).andThen (fun _ _ _ => trivial)
            fun _ next removed => ?_
          refine (indexInsert_ensures row removed (Function.update_self _ _ _) there
            number).mono fun result last added => ?_
          cases result with
          | error fault => trivial
          | ok _ =>
            dsimp only [Ends] at added ⊢
            rwa [Function.update_idem] at added

theorem indexedBy_congr {first second : Contents} {relations : Relations}
    (same : ∀ name column value, second.entries name column value = first.entries name column value)
    (matched : first.IndexedBy relations) : second.IndexedBy relations where
  lists := by
    intro name table position column known placed indexed
    have entries : second.entries name column.name = first.entries name column.name :=
      funext fun value => same _ _ _
    rw [entries]
    exact matched.lists known placed indexed
  owned := by
    intro name column value stored
    rw [same] at stored
    exact matched.owned stored

/-- A database is indexed after a row was put or removed together with its entries. -/
theorem indexed_of_setRow {after : Contents} {row : Option Row} (indexed : contents.Indexed)
    (known : contents.relations.table table.name = some table)
    (plain : ∀ found, row = some found → PlainRow table id found) (sound : after.relations.Sound)
    (changed : after.relations = contents.relations.setRow table.name id row)
    (matched : after.IndexedBy (contents.relations.setRow table.name id row)) : after.Indexed where
  sound := sound
  matched := changed ▸ matched
  plain := by
    intro name owner key found present stored
    rw [changed] at present stored
    rw [Relations.setRow_row] at stored
    split at stored
    · next same =>
      obtain ⟨rfl, rfl⟩ := same
      cases known.symm.trans present
      exact plain found stored
    · exact indexed.plain present stored

theorem create_indexed (indexed : contents.Indexed)
    (plain : ∀ table id, contents.table name = some table → table.getRowKey row = .ok id →
      PlainRow table id row) :
    (create name row).Leaves refuses contents
      (Ends (fun _ (after : Contents) => after.Indexed) fun _ _ => True) := by
  refine ensures_create (fun _ => trivial) fun table id known validated key absent => ?_
  obtain rfl := indexed.sound.named known
  have plainRow := plain table id known key
  have put := step_put indexed.sound known validated key (by
    have signed := plainRow.1
    simp only [Value.isPlain, Bool.and_eq_true, Bool.not_eq_true'] at signed
    exact signed.2)
  have moved : IndexedBy (Store.replay contents (.set (.row table.name id) row))
      contents.relations :=
    indexedBy_congr (fun _ _ _ => Store.get_set_of_ne _ _ (by simp)) indexed.matched
  refine ((createIndexes_ensures known (indexed.sound.formed known).distinct absent
    (isNaN_of_isPlain plainRow.1) moved).and (relations_of_writes
      (writes_createIndexes (fun column value => ⟨_, _, _, rfl⟩) id row))).mono
    fun result after holds => ?_
  cases result with
  | error fault => trivial
  | ok _ =>
    obtain ⟨matched, unchanged⟩ := holds
    rw [relations_setRow] at unchanged
    refine indexed_of_setRow indexed known (fun found same => ?_)
      (unchanged ▸ indexed.sound.step put) unchanged matched
    cases same
    exact plainRow

/-- Deleting a row removes it from the indexes, unless its key is NaN. -/
theorem delete_matched (known : contents.table table.name = some table)
    (distinct : (table.columns.map Column.name).Nodup)
    (matched : contents.IndexedBy contents.relations)
    (numbers : table.indexes ≠ [] → contents.relations.row table.name id ≠ none →
      id.isNaN = false) :
    (delete table.name id).Leaves refuses contents
      (Ends (fun _ (after : Contents) => after.IndexedBy after.relations) fun _ _ => True) := by
  refine ensures_delete (fun _ _ => trivial) fun found _ known' _ _ => ?_
  cases known.symm.trans known'
  refine ((deleteIndexes_ensures known distinct matched numbers).and (relations_of_writes
    (writes_deleteIndexes (fun column value => ⟨_, _, _, rfl⟩) id))).andThen
    (fun _ _ _ => trivial) fun _ (middle : Contents) holds => ?_
  obtain ⟨turned, unchanged⟩ := holds
  refine ensures_perform (fun _ _ => trivial) fun _ => ?_
  rw [← unchanged, ← relations_deleteRow] at turned
  exact indexedBy_congr (fun _ _ _ => Store.get_delete_of_ne _ (by simp)) turned

section

variable (indexed : contents.Indexed)

include indexed

theorem delete_indexed :
    (delete name id).Leaves refuses contents
      (Ends (fun _ (after : Contents) => after.Indexed) fun _ _ => True) := by
  cases known : contents.table name with
  | none =>
    refine ensures_delete (fun _ _ => trivial) fun table _ known' => ?_
    cases known.symm.trans known'
  | some table =>
    obtain rfl := indexed.sound.named known
    refine ((delete_matched known (indexed.sound.formed known).distinct indexed.matched
      fun _ stored => ?_).and (delete_ensures indexed.sound)).mono
      fun result (after : Contents) holds => ?_
    · obtain ⟨row, present⟩ := Option.ne_none_iff_exists'.mp stored
      exact isNaN_of_isPlain (indexed.plain known present).1
    · cases result with
      | error fault => trivial
      | ok _ =>
        obtain ⟨matched, unreferenced, removed⟩ := holds
        exact indexed_of_setRow indexed known (fun _ same => by cases same)
          (removed ▸ indexed.sound.drop unreferenced) removed (removed ▸ matched)

theorem update_indexed (signed : id.isNegativeZero = false)
    (plain : ∀ table key, contents.table name = some table → table.getRowKey row = .ok key →
      PlainRow table key row) :
    (update name id row).Leaves refuses contents
      (Ends (fun _ (after : Contents) => after.Indexed) fun _ _ => True) := by
  unfold update
  simp only [bind_eq_andThen]
  refine (reads_mustReadTable name).ensures_andThen (fun _ _ => trivial) fun table read => ?_
  have known := reply_mustReadTable.mp read
  obtain rfl := indexed.sound.named known
  refine (reads_lift _).ensures_andThen (fun _ _ => trivial) fun key primary => ?_
  rw [answer_lift] at primary
  have plainRow := plain table key known primary
  have plainKey := plainRow.1
  simp only [Value.isPlain, Bool.and_eq_true, Bool.not_eq_true'] at plainKey
  split
  · next equals =>
    obtain rfl := Value.eq_of_equals equals signed plainKey.2
    refine ((updateIndexes_ensures indexed known plainRow).and (relations_of_writes
      (writes_updateIndexes (fun column value => ⟨_, _, _, rfl⟩) id row))).andThen
      (fun _ _ _ => trivial) fun _ (middle : Contents) holds => ?_
    obtain ⟨matched, unchanged⟩ := holds
    have known' : middle.table table.name = some table :=
      (congrFun (congrArg Relations.table unchanged) _).trans known
    refine (table.reads_validateRow row).ensures_andThen (fun _ _ => trivial)
      fun _ validated => ?_
    refine ensures_perform (fun _ _ => trivial) fun _ => ?_
    have put := step_put (unchanged ▸ indexed.sound) known' validated primary signed
    have changed := relations_setRow middle table.name id row
    rw [← changed] at put
    rw [unchanged] at changed put
    refine indexed_of_setRow indexed known (fun found same => ?_) (indexed.sound.step put) changed
      (indexedBy_congr (fun _ _ _ => Store.get_set_of_ne _ _ (by simp)) matched)
    cases same
    exact plainRow
  · refine ((delete_indexed indexed).and (delete_ensures indexed.sound)).andThen
      (fun _ _ _ => trivial) fun _ (middle : Contents) holds => ?_
    obtain ⟨still, _, removed⟩ := holds
    have tables : middle.relations.table = contents.relations.table := by rw [removed]; rfl
    refine create_indexed still fun other key' found => ?_
    exact plain other key' ((congrFun tables _).symm.trans found)

theorem createTable_indexed (distinct : (table.columns.map Column.name).Nodup) :
    (createTable table).Leaves refuses contents
      (Ends (fun _ (after : Contents) => after.Indexed) fun _ _ => True) := by
  refine createTable_ensures.mono fun result (after : Contents) holds => ?_
  cases result with
  | error fault => trivial
  | ok _ =>
    obtain ⟨fresh, validated, rfl⟩ := holds
    have created := step_create distinct fresh validated
    have changed := relations_setTable contents table.name table
    have rows : ∀ id, contents.relations.row table.name id = none := by
      intro id
      cases stored : contents.relations.row table.name id with
      | none => rfl
      | some row =>
        obtain ⟨owner, known, _⟩ := indexed.sound.kept stored
        cases fresh.symm.trans known
    have unlisted : ∀ column value, contents.entries table.name column value = none := by
      intro column value
      by_contra stored
      obtain ⟨owner, _, _, known, _⟩ := indexed.matched.owned stored
      cases fresh.symm.trans known
    have moved : IndexedBy (Store.replay contents (.set (.table table.name) table))
        contents.relations :=
      indexedBy_congr (fun _ _ _ => Store.get_set_of_ne _ _ (by simp)) indexed.matched
    have older : ∀ {name other}, contents.relations.table name = some other →
        name ≠ table.name := by
      rintro name other known rfl
      cases fresh.symm.trans known
    refine ⟨changed ▸ indexed.sound.step created, changed ▸ ⟨?_, ?_⟩, ?_⟩
    · intro name other position column known placed marked
      rw [Relations.setTable_table] at known
      split at known
      · next same =>
        subst same
        exact .of_none (fun value => (Store.get_set_of_ne _ _ (by simp)).trans (unlisted _ value))
          rows
      · exact moved.lists known placed marked
    · intro name column value stored
      obtain ⟨owner, position, found, known, rest⟩ := moved.owned stored
      refine ⟨owner, position, found, ?_, rest⟩
      rw [Relations.setTable_table, if_neg (older known), known]
    · intro name other id row known stored
      rw [changed] at known stored
      obtain ⟨owner, present, _⟩ := indexed.sound.kept stored
      rw [Relations.setTable_table, if_neg (older present)] at known
      exact indexed.plain known stored

theorem deleteTable_indexed :
    (deleteTable name).Leaves refuses contents
      (Ends (fun _ (after : Contents) => after.Indexed) fun _ _ => True) := by
  refine ensures_deleteTable (fun _ => indexed.sound.named) (fun _ _ => trivial)
    fun table known listed => ?_
  obtain rfl := indexed.sound.named known
  have kept : (deleteRows table (contents.rows table.name)).Leaves refuses
      contents (Ends (fun _ (after : Contents) => after.Indexed) fun _ _ => True) := by
    refine ensures_each_rest (fun _ (after : Contents) => after.Indexed) (fun _ _ => True)
      indexed fun row rest (before : Contents) held => ?_
    exact (reads_lift _).ensures_andThen (fun _ _ => trivial) fun id _ => delete_indexed held
  refine ((deleteRows_ensures indexed.sound known).and kept).andThen (fun _ _ _ => trivial)
    fun _ (middle : Contents) holds => ?_
  obtain ⟨emptied, held⟩ := holds
  refine ensures_perform (fun _ _ => trivial) fun _ => ?_
  have changed := relations_deleteTable middle table.name
  have rows : ∀ id, middle.relations.row table.name id = none := by
    intro id
    cases stored : middle.relations.row table.name id with
    | none => rfl
    | some row => cases emptied.left id row stored
  have present : middle.relations.table table.name = some table :=
    (congrFun emptied.tables _).trans known
  have removed : (middle.relations.setTable table.name none).Sound := by
    refine held.sound.remove rows fun other owner column found member reference => ?_
    rw [emptied.tables] at found
    exact unreferenced_of_tableReferences indexed.sound listed found member reference
  have moved : IndexedBy (Store.replay middle (.delete (.table table.name))) middle.relations :=
    indexedBy_congr (fun _ _ _ => Store.get_delete_of_ne _ (by simp)) held.matched
  have other : ∀ {owner found}, (middle.relations.setTable table.name none).table owner =
      some found → owner ≠ table.name ∧ middle.relations.table owner = some found := by
    intro owner found there
    rw [Relations.setTable_table] at there
    split at there
    · cases there
    · next different => exact ⟨different, there⟩
  refine ⟨changed ▸ removed, changed ▸ ⟨?_, ?_⟩, ?_⟩
  · intro owner found position column there placed marked
    exact moved.lists (other there).2 placed marked
  · intro owner column value stored
    obtain ⟨found, position, named, there, placed, same, marked⟩ := moved.owned stored
    refine ⟨found, position, named, ?_, placed, same, marked⟩
    rw [Relations.setTable_table, if_neg ?_, there]
    -- the entries of the deleted table list its rows, of which none is left
    rintro rfl
    refine stored ?_
    subst same
    exact (moved.lists there placed marked).eq_none rows
  · intro owner found id row there stored
    rw [changed] at there stored
    exact held.plain (other there).2 stored

end

/-- Column names are distinct, primary keys and indexed values are neither NaN nor
negative zero. -/
def Call.Plain (contents : Contents) : Call → Prop
  | .createTable table => (table.columns.map Column.name).Nodup
  | .deleteTable _ => True
  | .create name row => ∀ table id, contents.table name = some table →
      table.getRowKey row = .ok id → PlainRow table id row
  | .update name id row => id.isNegativeZero = false ∧ ∀ table key,
      contents.table name = some table → table.getRowKey row = .ok key → PlainRow table key row
  | .delete _ _ => True

theorem Call.indexed {call : Call} (indexed : contents.Indexed) (plain : call.Plain contents) :
    call.script.Leaves refuses contents
      (Ends (fun _ (after : Contents) => after.Indexed) fun _ _ => True) := by
  cases call with
  | createTable table => exact createTable_indexed indexed plain
  | deleteTable name => exact deleteTable_indexed indexed
  | create name row => exact create_indexed indexed plain
  | update name id row => exact update_indexed indexed plain.1 plain.2
  | delete name id => exact delete_indexed indexed

end Kv

namespace Contents

variable {contents : Contents}

/-- An indexed column is found by its name, and reading its index loads the entry. -/
theorem reply_readIndex {column : Column} (known : contents.table name = some table)
    (distinct : (table.columns.map Column.name).Nodup)
    (placed : table.columns[position]? = some column) (indexed : column.index = true)
    (value : Value) :
    contents.reply (Kv.readIndex name column.name value) =
      .ok (contents.index name column.name value) := by
  have found : table.getColumn column.name = .ok column := by
    have index := getColumnIndex_of_distinct distinct placed
    unfold Table.getColumnIndex at index
    split at index
    · next first =>
      cases index
      rw [Table.getColumn, List.find?_eq_bind_findIdx?_getElem?, first]
      simp only [Option.bind_some, placed]
    · cases index
  unfold Kv.readIndex
  simp only [bind_eq_andThen, reply, answer_andThen, bind_eq_ok, answer_lift]
  exact ⟨table, reply_mustReadTable.mpr known, column, found, (), answer_require.mpr indexed, rfl⟩

/-- Reading an index returns exactly the primary keys of the rows whose value equals the
given one (which is not negative zero), and no entry of a table that does not exist is
stored. -/
structure IndexesMatch (contents : Contents) : Prop where
  keyed : ∀ {name table id row}, contents.table name = some table →
    contents.row name id = some row → table.getRowKey row = .ok id
  read : ∀ {name table} {position : Nat} {column : Column} {value : Value},
    contents.table name = some table → table.columns[position]? = some column →
    column.index = true → value.isNegativeZero = false →
    ∃ set, contents.reply (Kv.readIndex name column.name value) = .ok set ∧ set.Nodup ∧
      ∀ id, id ∈ set ↔ ∃ row found, contents.row name id = some row ∧
        row[position]? = some found ∧ found.equals value = true
  dropped : ∀ {name}, contents.table name = none → ∀ column value,
    Store.get contents (.index name column value) = none

theorem Indexed.indexesMatch (indexed : contents.Indexed) : contents.IndexesMatch where
  keyed known stored := (indexed.sound.row_of_table known stored).2.1
  read := by
    intro name table position column value known placed marked signed
    have inverts := indexed.matched.lists known placed marked
    refine ⟨_, reply_readIndex known (indexed.sound.formed known).distinct placed marked value,
      inverts.distinct value, fun id => (inverts.mem_iff value id).trans ?_⟩
    constructor
    · rintro ⟨row, stored, here⟩
      refine ⟨row, value, stored, here, ?_⟩
      have plain := (indexed.plain known stored).2 _ _ _ placed marked here
      simp [isNaN_of_isPlain plain]
    · rintro ⟨row, found, stored, here, same⟩
      have plain := (indexed.plain known stored).2 _ _ _ placed marked here
      simp only [Value.isPlain, Bool.and_eq_true, Bool.not_eq_true'] at plain
      exact ⟨row, stored, Value.eq_of_equals same plain.2 signed ▸ here⟩
  dropped := by
    intro name missing column value
    by_contra stored
    obtain ⟨table, _, _, known, _⟩ := indexed.matched.owned stored
    cases missing.symm.trans known

end Contents

open Radb.Storage Radb.Storage.Mvcc

/-- Calls are plain. -/
def PlainCalls (db : Database) : Operation → Prop
  | .call txn call => ∀ st view, db.transactions[txn]? = some st → Shows st db.engine view →
      call.Plain view
  | _ => True

theorem indexed_empty : Contents.Indexed ∅ where
  sound := by
    rw [Contents.relations_empty]
    exact .empty
  matched := by
    rw [Contents.relations_empty]
    refine ⟨nofun, fun stored => ?_⟩
    rw [Contents.entries, Store.get_empty] at stored
    exact absurd rfl stored
  plain := by
    rw [Contents.relations_empty]
    nofun

/-- Run serially, plain calls that return keep the indexes in step with the rows, in what
is committed and in what the open transaction sees. -/
theorem indexes_match_of_plain_calls {schedule : List Operation} {last : Database}
    {results : List (Except Fault Unit)} (bounded : Schedule.begins schedule < 2 ^ 64 - 2)
    (throughout : Schedule.Throughout (fun db operation result =>
      Schedule.Serial db operation ∧ PlainCalls db operation ∧ result = .ok ())
      Database.empty schedule)
    (ran : Schedule.run Database.empty schedule = some (last, results)) :
    (∃ contents, Publishes last.engine contents ∧ contents.IndexesMatch) ∧
      ∀ txn st, last.transactions[txn]? = some st → txn ∉ last.ended →
        ∃ contents, Shows st last.engine contents ∧ contents.IndexesMatch := by
  obtain ⟨consistent, store, holds⟩ := serial_holds Contents.Indexed indexed_empty
    (fun db operation result => PlainCalls db operation ∧ result = .ok ())
    (fun db txn call result met st view found shown indexed returned => by
      have kept : call.script.Ensures KeyPrefix.covers (refusals st db.engine) view _ :=
        call.indexed indexed (met.1 st view found shown)
      rw [Script.Ensures, returned, met.2] at kept
      exact kept) bounded throughout ran
  refine ⟨?_, fun txn st found running => ?_⟩
  · obtain ⟨contents, publishes, indexed⟩ := holds.publishes
    exact ⟨contents, publishes, indexed.indexesMatch⟩
  · obtain ⟨view, shown, indexed⟩ := holds.shows consistent found running
    exact ⟨view, shown, indexed.indexesMatch⟩

/-- A table with an index on numbers. -/
def readings : Table :=
  ⟨"readings", [⟨"id", .integer, true, false, none, true, none, false⟩,
    ⟨"level", .float, false, true, some .null, false, none, true⟩]⟩

/-- The number one. -/
def one : Binary64 := ⟨0x3FF0000000000000⟩

/-- One transaction that creates, changes and deletes indexed rows. -/
def recording : List Operation :=
  [.begin, .call 0 (.createTable readings),
    .call 0 (.create "readings" [.integer 1, .float Binary64.zero]),
    .call 0 (.create "readings" [.integer 2, .float Binary64.zero]),
    .call 0 (.update "readings" (.integer 1) [.integer 1, .float one]),
    .call 0 (.update "readings" (.integer 1) [.integer 3, .null]),
    .call 0 (.delete "readings" (.integer 2)), .commit 0]

theorem plainRow_of_forall (plain : ∀ value ∈ row, value.isPlain = true)
    (key : table.getRowKey row = .ok id) :
    Contents.PlainRow table id row :=
  ⟨plain id (mem_of_getRowKey key), fun _ _ value _ _ here =>
    plain value (List.mem_of_getElem? here)⟩

theorem recording_plain : Schedule.Throughout
    (fun db operation _ => Schedule.Serial db operation ∧ PlainCalls db operation)
    Database.empty recording := by
  intro next result _
  refine ⟨⟨fun txn below => absurd below (Nat.not_lt_zero txn), trivial⟩, .of_forall ?_ next⟩
  intro operation member db result
  simp only [List.mem_cons, List.not_mem_nil, or_false] at member
  have distinct : (readings.columns.map Column.name).Nodup := by decide
  rcases member with rfl | rfl | rfl | rfl | rfl | rfl | rfl
  · exact ⟨trivial, fun _ _ _ _ => distinct⟩
  · exact ⟨trivial, fun _ _ _ _ _ _ _ key => plainRow_of_forall (by decide +kernel) key⟩
  · exact ⟨trivial, fun _ _ _ _ _ _ _ key => plainRow_of_forall (by decide +kernel) key⟩
  · exact ⟨trivial, fun _ _ _ _ =>
      ⟨rfl, fun _ _ _ key => plainRow_of_forall (by decide +kernel) key⟩⟩
  · exact ⟨trivial, fun _ _ _ _ =>
      ⟨rfl, fun _ _ _ key => plainRow_of_forall (by decide +kernel) key⟩⟩
  · exact ⟨trivial, fun _ _ _ _ => trivial⟩
  · exact ⟨trivial, trivial⟩

theorem indexes_match_of_plain_calls_recording :
    ∃ last, Schedule.run Database.empty recording =
        some (last, [.ok (), .ok (), .ok (), .ok (), .ok (), .ok (), .ok (), .ok ()]) ∧
      ∃ contents, Publishes last.engine contents ∧ contents.IndexesMatch := by
  have returned : (Schedule.run Database.empty recording).map Prod.snd =
      some [.ok (), .ok (), .ok (), .ok (), .ok (), .ok (), .ok (), .ok ()] := by decide +kernel
  obtain ⟨⟨last, results⟩, ran, rfl⟩ := Option.map_eq_some_iff.mp returned
  have throughout := recording_plain.of_results ran
  refine ⟨last, ran, (indexes_match_of_plain_calls (by decide) (throughout.mono ?_) ran).1⟩
  rintro db operation result ⟨⟨serial, plain⟩, recorded⟩
  exact ⟨serial, plain, by simpa using recorded⟩

/-- One transaction that changes an indexed zero to negative zero, and then to one. -/
def drifting : List Operation :=
  [.begin, .call 0 (.createTable readings),
    .call 0 (.create "readings" [.integer 1, .float Binary64.zero]),
    .call 0 (.update "readings" (.integer 1) [.integer 1, .float Binary64.negativeZero]),
    .call 0 (.update "readings" (.integer 1) [.integer 1, .float one])]

/-- The first update leaves the entry of zero, since the values are equal, and the second
looks for the row in the entry of negative zero: the index still lists the row under
zero, though every call returned. -/
theorem stale_entry_of_drifting :
    ∃ last contents,
      Schedule.run Database.empty drifting = some (last, [.ok (), .ok (), .ok (), .ok (), .ok ()]) ∧
      Schedule.Throughout (fun db operation _ => Schedule.Serial db operation) Database.empty
        drifting ∧
      last.transactions = [⟨1, false, ∅⟩] ∧ last.ended = ∅ ∧
      Shows ⟨1, false, ∅⟩ last.engine contents ∧ ¬ contents.IndexesMatch := by
  have returned : (Schedule.run Database.empty drifting).map Prod.snd =
      some [.ok (), .ok (), .ok (), .ok (), .ok ()] := by decide +kernel
  obtain ⟨⟨last, results⟩, ran, rfl⟩ := Option.map_eq_some_iff.mp returned
  have began : last.transactions = [⟨1, false, ∅⟩] :=
    Schedule.of_run ran Database.transactions (by decide +kernel)
  have ended : last.ended = ∅ := Schedule.of_run ran Database.ended (by decide +kernel)
  have found : last.transactions[0]? = some ⟨1, false, ∅⟩ := by rw [began]; rfl
  obtain ⟨view, shown⟩ := exists_view ran (by decide) found (by rw [ended]; simp)
  refine ⟨last, view, ran, ?_, began, ended, shown, fun matched => ?_⟩
  · intro next result _
    refine ⟨fun txn below => absurd below (Nat.not_lt_zero txn), .of_forall ?_ next⟩
    intro operation member db result
    simp only [List.mem_cons, List.not_mem_nil, or_false] at member
    rcases member with rfl | rfl | rfl | rfl <;> trivial
  · have table := seen_of_run ran shown (.table "readings") readings (by decide +kernel)
    have row := seen_of_run ran shown (.row "readings" (.integer 1)) [.integer 1, .float one]
      (by decide +kernel)
    have entry := seen_of_run ran shown (.index "readings" "level" (.float Binary64.zero))
      [.integer 1] (by decide +kernel)
    have placed : readings.columns[1]? =
      some ⟨"level", .float, false, true, some .null, false, none, true⟩ := rfl
    have signed : (Value.float Binary64.zero).isNegativeZero = false := by decide +kernel
    obtain ⟨set, replied, _, members⟩ := matched.read table placed rfl signed
    rw [Contents.reply_readIndex table (by decide) placed rfl] at replied
    cases replied
    have listed : Value.integer 1 ∈ view.index "readings" "level" (.float Binary64.zero) := by
      rw [Contents.index, entry]
      simp
    obtain ⟨found, value, stored, here, same⟩ := (members (.integer 1)).mp listed
    cases row.symm.trans stored
    cases here
    exact absurd same (by decide +kernel)

end Radb.Sql
