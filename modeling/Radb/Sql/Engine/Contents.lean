import Radb.Sql.Engine.Kv
import Radb.Sql.Engine.Relations

/-! # Visible contents

The relations and index entries in the contents of a database, and what the reading
tasks of a transaction return on them.
-/

namespace Radb.Sql

open Foundation Foundation.Script

variable {position : Nat} {value id : Value} {name : String} {column : Column}

theorem element_eq_ok {row : Row} (found : element row position = .ok value) :
    row[position]? = some value := by
  unfold element at found
  split at found
  · next present =>
    cases found
    exact present
  · cases found

/-- What holds of the result of a task and of the contents it leaves. -/
abbrev Task.Leaves {Result : Type} (task : Task Result) (refuses : Key → Option Fault) :=
  task.Ensures KeyPrefix.covers refuses

namespace Contents

/-- The schema stored under a name. -/
def table (contents : Contents) (name : String) : Option Table := Store.get contents (.table name)

/-- The row stored under a key. -/
def row (contents : Contents) (name : String) (id : Value) : Option Row :=
  Store.get contents (.row name id)

/-- The index entry of a value, which is empty if none is stored. -/
def index (contents : Contents) (name column : String) (value : Value) : HashSet :=
  (Store.get contents (.index name column value)).getD []

/-- The tables and rows of a database. -/
def relations (contents : Contents) : Relations := ⟨contents.table, contents.row⟩

/-- The schemas, by name. -/
def tables (contents : Contents) : List Table :=
  Kv.tablesOf (Store.scanGroup contents KeyPrefix.table.covers)

/-- The rows of a table, by primary key. -/
def rows (contents : Contents) (name : String) : List Row :=
  Kv.rowsOf (Store.scanGroup contents (KeyPrefix.row name).covers)

/-- A write of an index entry changes no table and no row. -/
theorem relations_congr {first second : Contents}
    (same : ∀ key, (¬ ∃ name column value, key = .index name column value) →
      Store.get first key = Store.get second key) : first.relations = second.relations := by
  apply Relations.ext
  · funext name
    exact same _ (by simp)
  · funext name id
    exact same _ (by simp)

@[simp] theorem relations_empty : relations ∅ = ⟨fun _ => none, fun _ _ => none⟩ := by
  apply Relations.ext
  · funext name
    exact Store.get_empty _
  · funext name id
    exact Store.get_empty _

theorem relations_setTable (contents : Contents) (name : String) (table : Table) :
    relations (Store.replay contents (.set (.table name) table)) =
      contents.relations.setTable name (some table) := by
  apply Relations.ext
  · funext other
    rw [Relations.setTable_table]
    split
    · next same =>
      subst same
      exact Store.get_set_self _ _ _
    · next different => exact Store.get_set_of_ne _ _ (by simpa using different)
  · funext other id
    exact Store.get_set_of_ne _ _ (by simp)

theorem relations_deleteTable (contents : Contents) (name : String) :
    relations (Store.replay contents (.delete (.table name))) =
      contents.relations.setTable name none := by
  apply Relations.ext
  · funext other
    rw [Relations.setTable_table]
    split
    · next same =>
      subst same
      exact Store.get_delete_self _ _
    · next different => exact Store.get_delete_of_ne _ (by simpa using different)
  · funext other id
    exact Store.get_delete_of_ne _ (by simp)

theorem relations_setRow (contents : Contents) (name : String) (id : Value) (row : Row) :
    relations (Store.replay contents (.set (.row name id) row)) =
      contents.relations.setRow name id (some row) := by
  apply Relations.ext
  · funext other
    exact Store.get_set_of_ne _ _ (by simp)
  · funext other key
    rw [Relations.setRow_row]
    split
    · next same =>
      obtain ⟨rfl, rfl⟩ := same
      exact Store.get_set_self _ _ _
    · next different => exact Store.get_set_of_ne _ _ (by simpa using different)

theorem relations_deleteRow (contents : Contents) (name : String) (id : Value) :
    relations (Store.replay contents (.delete (.row name id))) =
      contents.relations.setRow name id none := by
  apply Relations.ext
  · funext other
    exact Store.get_delete_of_ne _ (by simp)
  · funext other key
    rw [Relations.setRow_row]
    split
    · next same =>
      obtain ⟨rfl, rfl⟩ := same
      exact Store.get_delete_self _ _
    · next different => exact Store.get_delete_of_ne _ (by simpa using different)

/-- What a task that only reads returns. -/
abbrev reply {Result : Type} (contents : Contents) (task : Task Result) : Except Fault Result :=
  task.answer KeyPrefix.covers contents

variable {contents : Contents}

theorem mem_tables {table : Table} :
    table ∈ contents.tables ↔ ∃ name, contents.table name = some table := by
  unfold tables Kv.tablesOf
  rw [List.mem_filterMap]
  constructor
  · rintro ⟨⟨key, stored⟩, member, found⟩
    cases key with
    | table name =>
      cases found
      exact ⟨name, ((Store.mem_scanGroup contents _ _ _).mp member).2⟩
    | index | row => cases found
  · rintro ⟨name, present⟩
    exact ⟨⟨.table name, table⟩, (Store.mem_scanGroup contents _ _ _).mpr ⟨rfl, present⟩, rfl⟩

theorem mem_rows {row : Row} :
    row ∈ contents.rows name ↔ ∃ id, contents.row name id = some row := by
  unfold rows Kv.rowsOf
  rw [List.mem_filterMap]
  constructor
  · rintro ⟨⟨key, stored⟩, member, found⟩
    obtain ⟨covered, present⟩ := (Store.mem_scanGroup contents _ _ _).mp member
    cases key with
    | table | index => cases found
    | row owner id =>
      cases found
      obtain rfl : name = owner := by simpa [KeyPrefix.covers] using covered
      exact ⟨id, present⟩
  · rintro ⟨id, present⟩
    exact ⟨⟨.row name id, row⟩, (Store.mem_scanGroup contents _ _ _).mpr
      ⟨by simp [KeyPrefix.covers], present⟩, rfl⟩

@[simp] theorem reply_readTable (name : String) :
    contents.reply (Kv.readTable name) = .ok (contents.table name) := rfl

theorem reply_mustReadTable {table : Table} :
    contents.reply (Kv.mustReadTable name) = .ok table ↔ contents.table name = some table := by
  unfold Kv.mustReadTable
  rw [bind_eq_andThen, reply, answer_andThen, bind_eq_ok]
  simp only [reply_readTable, Except.ok.injEq, exists_eq_left']
  cases contents.table name with
  | none => simp
  | some found => simp

@[simp] theorem reply_scanTables : contents.reply Kv.scanTables = .ok contents.tables := rfl

@[simp] theorem reply_read (name : String) (id : Value) :
    contents.reply (Kv.read name id) = .ok (contents.row name id) := rfl

@[simp] theorem reply_indexLoad (name column : String) (value : Value) :
    contents.reply (Kv.indexLoad name column value) = .ok (contents.index name column value) := rfl

theorem reply_scan {filter : Option Expression} {items : List (Except Fault Row)} :
    contents.reply (Kv.scan name filter) = .ok items ↔
      ∃ table, contents.table name = some table ∧
        items = (contents.rows table.name).filterMap (Kv.filterRow filter) := by
  unfold Kv.scan
  rw [bind_eq_andThen, reply, answer_andThen, bind_eq_ok]
  simp only [reply_mustReadTable]
  exact exists_congr fun table => and_congr_right fun _ => ⟨fun found => by cases found; rfl,
    fun found => by cases found; rfl⟩

/-- A scan without a filter returns every row. -/
theorem filterMap_filterRow (rows : List Row) :
    rows.filterMap (Kv.filterRow none) = rows.map Except.ok :=
  congrFun List.filterMap_eq_map rows

/-- Exactly the tables with a reference are returned as references. -/
theorem reply_tableReferences {withSelf : Bool} {references : List (String × List String)}
    (replied : contents.reply (Kv.tableReferences name withSelf) = .ok references)
    {owner : String} {columns : List String} :
    (owner, columns) ∈ references ↔ ∃ key table, contents.table key = some table ∧
      (withSelf = true ∨ table.name ≠ name) ∧ owner = table.name ∧
      columns = Kv.referencing table name ∧ columns ≠ [] := by
  have listed : references = ((contents.tables.filter fun table => withSelf ∨ table.name ≠ name).map
      fun table => (table.name, Kv.referencing table name)).filter fun pair => pair.2 ≠ [] := by
    cases replied
    rfl
  rw [listed]
  simp only [List.mem_filter, List.mem_map, mem_tables, decide_eq_true_eq, Prod.mk.injEq]
  constructor
  · rintro ⟨⟨table, ⟨⟨key, known⟩, wanted⟩, rfl, rfl⟩, some⟩
    exact ⟨key, table, known, wanted, rfl, rfl, some⟩
  · rintro ⟨key, table, known, wanted, rfl, rfl, some⟩
    exact ⟨⟨table, ⟨⟨key, known⟩, wanted⟩, rfl, rfl⟩, some⟩

/-- The index of a column is found by its name if the names are distinct. -/
theorem getColumnIndex_of_distinct {table : Table}
    (distinct : (table.columns.map Column.name).Nodup)
    (placed : table.columns[position]? = some column) :
    table.getColumnIndex column.name = .ok position := by
  have found : table.columns.findIdx? (fun other => decide (other.name = column.name)) =
      some position := by
    obtain ⟨bound, rfl⟩ := List.getElem?_eq_some_iff.mp placed
    refine List.findIdx?_eq_some_iff_getElem.mpr ⟨bound, by simp, fun earlier before => ?_⟩
    simp only [decide_eq_true_eq]
    intro same
    have inside : earlier < (table.columns.map Column.name).length := by
      simpa using before.trans bound
    refine before.ne ((List.getElem?_inj inside distinct).mp ?_)
    simp [before.trans bound, bound, same]
  simp only [Table.getColumnIndex, found]

/-- Every position of a row of the right length pairs a column with its value. -/
theorem mem_zip_of_positions {table : Table} {row : Row}
    (placed : table.columns[position]? = some column) (here : row[position]? = some value) :
    (column, value) ∈ table.columns.zip row := by
  refine List.mem_of_getElem? (i := position) ?_
  rw [List.getElem?_zip_eq_some]
  exact ⟨placed, here⟩

/-- What a validated value satisfies: the column accepts it, a reference is found, and a
unique value is not found in another row. -/
theorem reply_validateValue {table : Table} {pk : Value}
    (replied : contents.reply (column.validateValue table pk value) = .ok ()) :
    contents.reply (column.validateDatatype value) = .ok () ∧
      contents.reply (column.validateReference table pk value) = .ok () ∧
      contents.reply (column.validateUnique table pk value) = .ok () := by
  unfold Column.validateValue at replied
  simp only [bind_eq_andThen, reply, answer_andThen, bind_eq_ok] at replied
  obtain ⟨_, datatype, _, _, _, reference, unique⟩ := replied
  exact ⟨datatype, reference, unique⟩

/-- What a validated row satisfies. -/
theorem reply_validateRow {table : Table} {row : Row}
    (replied : contents.reply (table.validateRow row) = .ok ()) :
    row.length = table.columns.length ∧ ∃ pk, table.getRowKey row = .ok pk ∧
      ∀ {position : Nat} {column : Column} {value : Value},
        table.columns[position]? = some column → row[position]? = some value →
        contents.reply (column.validateValue table pk value) = .ok () := by
  unfold Table.validateRow at replied
  simp only [bind_eq_andThen, reply, answer_andThen, bind_eq_ok, answer_lift] at replied
  obtain ⟨_, size, pk, key, all⟩ := replied
  refine ⟨answer_require.mp size, pk, key, fun placed here => ?_⟩
  exact answer_each.mp all _ (mem_zip_of_positions placed here)

theorem accepts_of_validateDatatype
    (replied : contents.reply (column.validateDatatype value) = .ok ()) :
    column.Accepts value := by
  unfold Column.validateDatatype at replied
  split at replied
  · next none =>
    refine .inr ⟨?_, answer_require.mp replied⟩
    cases value <;> first | rfl | cases none
  · next datatype known => exact .inl (known.trans (congrArg some (answer_require.mp replied)))

/-- A validated row fits its table. -/
theorem fits_of_validateRow {table : Table} {row : Row}
    (replied : contents.reply (table.validateRow row) = .ok ()) : table.Fits row := by
  obtain ⟨size, pk, _, validated⟩ := reply_validateRow replied
  exact ⟨size, fun position column value placed here =>
    accepts_of_validateDatatype (reply_validateValue (validated placed here)).1⟩

/-- The values of a validated row in unique columns are those of no other row. -/
theorem unshared_of_validateRow {table : Table} {row : Row} (sound : contents.relations.Sound)
    (known : contents.table table.name = some table)
    (replied : contents.reply (table.validateRow row) = .ok ())
    (primary : table.getRowKey row = .ok id) (signed : id.isNegativeZero = false) :
    contents.relations.Unshared table id row := by
  intro position column value key other found placed unique ordinary here present stored
    different located
  rw [← Bool.not_eq_true]
  intro same
  obtain ⟨_, pk, agreed, validated⟩ := reply_validateRow replied
  cases primary.symm.trans agreed
  have searched := (reply_validateValue (validated placed here)).2.2
  have nonnull : value.equals .null = false := by
    cases value with
    | null => exact absurd rfl present
    | _ => rfl
  unfold Column.validateUnique at searched
  rw [if_pos ⟨unique, by simp [ordinary], by simp [nonnull]⟩] at searched
  simp only [bind_eq_andThen, reply, answer_andThen, bind_eq_ok, answer_lift] at searched
  obtain ⟨index, indexed, items, scanned, all⟩ := searched
  cases (getColumnIndex_of_distinct (sound.formed known).distinct placed).symm.trans indexed
  obtain ⟨again, known', rfl⟩ := reply_scan.mp scanned
  cases known.symm.trans known'
  rw [filterMap_filterRow] at all
  have checked := answer_each.mp all (.ok other) (List.mem_map_of_mem (mem_rows.mpr ⟨key, stored⟩))
  unfold Column.validateOther at checked
  simp only [bind_eq_andThen, answer_andThen, bind_eq_ok, answer_lift, Except.ok.injEq,
    exists_eq_left', located, Option.getD_some, same, if_true] at checked
  obtain ⟨owned, found', required⟩ := checked
  obtain ⟨_, keyed, plain⟩ := sound.row_of_table known stored
  cases keyed.symm.trans found'
  exact different (Value.eq_of_equals (answer_require.mp required) plain signed)

/-- The references of a validated row are found once the row is there. -/
theorem resolves_of_validateRow {table : Table} {row : Row}
    (replied : contents.reply (table.validateRow row) = .ok ())
    (primary : table.getRowKey row = .ok id) :
    (contents.relations.setRow table.name id (some row)).Resolves table row := by
  intro position column value target placed reference here present number
  obtain ⟨_, pk, agreed, validated⟩ := reply_validateRow replied
  cases primary.symm.trans agreed
  have looked := (reply_validateValue (validated placed here)).2.1
  unfold Column.validateReference at looked
  simp only [reference] at looked
  split at looked
  · next passes =>
    rcases passes with null | nan | ⟨rfl, own⟩
    · exact absurd null present
    · exact absurd nan (by simp [number])
    · exact ⟨id, row, by rw [Relations.setRow_row, if_pos ⟨rfl, rfl⟩], own⟩
  · simp only [bind_eq_andThen, reply, answer_andThen, bind_eq_ok, reply_read, Except.ok.injEq,
      exists_eq_left'] at looked
    obtain ⟨found, stored⟩ := Option.ne_none_iff_exists'.mp (answer_require.mp looked)
    by_cases replaced : target = table.name ∧ value = id
    · exact ⟨value, row, by rw [Relations.setRow_row, if_pos replaced], by simp [number]⟩
    · exact ⟨value, found, by rw [Relations.setRow_row, if_neg replaced]; exact stored,
        by simp [number]⟩

/-- A key whose references were checked is not referenced. -/
theorem unreferenced_of_checkReferences {table : Table} {references : List (String × List String)}
    (sound : contents.relations.Sound) (known : contents.table table.name = some table)
    (listed : contents.reply (Kv.tableReferences table.name true) = .ok references)
    (checked : contents.reply (each (Kv.checkReferences table id) references) = .ok ()) :
    contents.relations.Unreferenced table.name id := by
  intro name other key row value position column present placed reference stored here same
  obtain rfl := sound.named present
  have referencing : column.name ∈ Kv.referencing other table.name :=
    List.mem_map_of_mem (List.mem_filter.mpr ⟨List.mem_of_getElem? placed, by simpa using reference⟩)
  have member := (reply_tableReferences listed).mpr
    ⟨other.name, other, present, .inl rfl, rfl, rfl, List.ne_nil_of_mem referencing⟩
  have passed := answer_each.mp checked _ member
  unfold Kv.checkReferences at passed
  simp only [bind_eq_andThen, answer_andThen, bind_eq_ok, answer_lift] at passed
  obtain ⟨again, read, columns, mapped, items, scanned, all⟩ := passed
  cases present.symm.trans (reply_mustReadTable.mp read)
  obtain ⟨image, inside, found⟩ := mem_of_mapM_eq_ok mapped referencing
  rw [getColumnIndex_of_distinct (sound.formed present).distinct placed] at found
  cases found
  obtain ⟨again, read, rfl⟩ := reply_scan.mp scanned
  cases present.symm.trans read
  rw [filterMap_filterRow] at all
  have cleared := answer_each.mp all (.ok row) (List.mem_map_of_mem (mem_rows.mpr ⟨key, stored⟩))
  simp only [answer_andThen, bind_eq_ok, answer_lift, Except.ok.injEq, exists_eq_left'] at cleared
  have settled := answer_each.mp cleared _ inside
  unfold Kv.checkReference at settled
  simp only [bind_eq_andThen, answer_andThen, bind_eq_ok, answer_lift, element, here,
    Except.ok.injEq, exists_eq_left', same, if_true] at settled
  split at settled
  · cases settled
  · next own =>
    have owned : table.name = other.name := not_not.mp own
    simp only [answer_andThen, bind_eq_ok, answer_lift] at settled
    obtain ⟨primary, found, required⟩ := settled
    cases known.symm.trans (owned ▸ present)
    cases (sound.row_of_table present stored).2.1.symm.trans found
    exact ⟨rfl, answer_require.mp required⟩

/-- What a validated schema satisfies. -/
theorem reply_validate {table : Table} (replied : contents.reply table.validate = .ok ()) :
    table.columns.countP Column.primaryKey = 1 ∧
      ∀ column ∈ table.columns, contents.reply (column.validateReferences table) = .ok () := by
  unfold Table.validate at replied
  simp only [bind_eq_andThen, reply, answer_andThen, bind_eq_ok] at replied
  obtain ⟨_, _, _, single, all⟩ := replied
  refine ⟨?_, fun column member => ?_⟩
  · unfold Table.validatePrimaryKeys at single
    split at single
    · next counted => exact counted
    · cases single
    · cases single
  · have validated := answer_each.mp all column member
    unfold Column.validate at validated
    simp only [bind_eq_andThen, answer_andThen, bind_eq_ok] at validated
    obtain ⟨_, _, _, _, referenced⟩ := validated
    exact referenced

/-- The references of a validated schema are to the table itself or an existing one. -/
theorem linked_of_validate {table : Table} (replied : contents.reply table.validate = .ok ())
    (member : column ∈ table.columns) {target : String}
    (reference : column.references = some target) :
    target = table.name ∨ ∃ other, contents.table target = some other := by
  have validated := (reply_validate replied).2 column member
  unfold Column.validateReferences at validated
  simp only [reference, bind_eq_andThen, reply, answer_andThen, bind_eq_ok] at validated
  obtain ⟨other, found, _⟩ := validated
  unfold Column.referenceTarget at found
  split at found
  · next own => exact .inl own
  · simp only [bind_eq_andThen, answer_andThen, bind_eq_ok, reply_readTable, Except.ok.injEq,
      exists_eq_left'] at found
    split at found
    · next known => exact .inr ⟨_, known⟩
    · cases found

end Contents

end Radb.Sql
