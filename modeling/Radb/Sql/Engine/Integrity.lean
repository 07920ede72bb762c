import Radb.Sql.Engine.Contents

/-! # Integrity

Every call that changes the database is a sequence of steps that keep the constraints,
whatever it returns and whichever of its writes are refused, if column names are
distinct and primary keys are not negative zero.
-/

namespace Radb.Sql

open Foundation Foundation.Script

variable {name : String} {row : Row} {post : Except Fault Unit → Contents → Prop} {id : Value}
  {table : Table}

/-- The tables and rows changed by steps that keep the constraints. -/
def Contents.Leads (before after : Contents) : Prop :=
  Relation.ReflTransGen Relations.Step before.relations after.relations

namespace Contents.Leads

variable {before after : Contents}

theorem of_same (same : after.relations = before.relations) : before.Leads after := by
  rw [Contents.Leads, same]

theorem single (step : before.relations.Step after.relations) : before.Leads after :=
  Relation.ReflTransGen.single step

theorem trans {middle : Contents} (first : before.Leads middle) (second : middle.Leads after) :
    before.Leads after := Relation.ReflTransGen.trans first second

end Contents.Leads

namespace Kv

variable {contents : Contents} {refuses : Key → Option Fault}

/-- A task that writes only index entries changes no table and no row. -/
theorem relations_of_writes {Result : Type} {task : Task Result}
    (writes : task.Writes fun key => ∃ name column value, key = .index name column value) :
    task.Leaves refuses contents fun _ (after : Contents) =>
      after.relations = contents.relations :=
  writes.ensures.mono fun _ _ same => Contents.relations_congr same

/-- To create a row is to fail before the first write, or to put the row and add it to the
indexes. -/
theorem ensures_create (fails : ∀ fault, post (.error fault) contents)
    (puts : ∀ table id, contents.table name = some table →
      contents.reply (table.validateRow row) = .ok () → table.getRowKey row = .ok id →
      contents.row table.name id = none →
      (createIndexes table id row).Leaves refuses
        (Store.replay contents (.set (.row table.name id) row)) post) :
    (create name row).Leaves refuses contents post := by
  unfold create
  simp only [bind_eq_andThen]
  refine (reads_mustReadTable name).ensures_andThen (fun _ _ => fails _) fun table read => ?_
  refine (table.reads_validateRow row).ensures_andThen (fun _ _ => fails _)
    fun _ validated => ?_
  refine (reads_lift _).ensures_andThen (fun _ _ => fails _) fun id key => ?_
  refine (reads_read _).ensures_andThen (fun _ _ => fails _) fun found looked => ?_
  refine (reads_require _ _).ensures_andThen (fun _ _ => fails _) fun _ required => ?_
  refine ensures_perform_andThen (fun _ _ => fails _) fun _ => ?_
  cases looked
  rw [answer_lift] at key
  exact puts table id (Contents.reply_mustReadTable.mp read) validated key
    (answer_require.mp required)

/-- To delete a row is to fail the checks, or to remove it from the indexes and from the table. -/
theorem ensures_delete (fails : ∀ fault, (∀ table references, contents.table name = some table →
      contents.reply (tableReferences table.name true) = .ok references →
      contents.reply (each (checkReferences table id) references) ≠ .ok ()) →
      post (.error fault) contents) (passes : ∀ table references, contents.table name = some table →
      contents.reply (tableReferences table.name true) = .ok references →
      contents.reply (each (checkReferences table id) references) = .ok () →
      ((deleteIndexes table id).andThen fun _ => perform (.delete (.row table.name id))).Ensures
        KeyPrefix.covers refuses contents post) :
    (delete name id).Leaves refuses contents post := by
  unfold delete
  simp only [bind_eq_andThen]
  refine (reads_mustReadTable name).ensures_andThen (fun fault failed => ?_) fun table read => ?_
  · refine fails fault fun table _ known => ?_
    cases (Contents.reply_mustReadTable.mpr known).symm.trans failed
  have known := Contents.reply_mustReadTable.mp read
  refine (reads_tableReferences _ _).ensures_andThen (fun _ failed => by cases failed)
    fun references listed => ?_
  refine (reads_each (reads_checkReferences table id) _).ensures_andThen (fun fault failed => ?_)
    fun _ checked => passes table references known listed checked
  refine fails fault fun other found known' listed' checked => ?_
  cases known.symm.trans known'
  cases listed.symm.trans listed'
  cases checked.symm.trans failed

/-- Deletes the given rows of a table: the loop of `deleteTable`. -/
def deleteRows (table : Table) (rows : List Row) : Task Unit :=
  each (fun row => (lift (table.getRowKey row)).andThen fun id => delete table.name id) rows

/-- To delete a table is to fail before the first write, or to delete its rows and then its
schema. -/
theorem ensures_deleteTable
    (named : ∀ table, contents.table name = some table → table.name = name)
    (fails : ∀ fault, (∀ table, contents.table name = some table →
      contents.reply (tableReferences table.name false) ≠ .ok []) → post (.error fault) contents)
    (passes : ∀ table, contents.table name = some table →
      contents.reply (tableReferences table.name false) = .ok [] →
      ((deleteRows table (contents.rows table.name)).andThen fun _ =>
        perform (.delete (.table table.name))).Ensures KeyPrefix.covers refuses contents post) :
    (deleteTable name).Leaves refuses contents post := by
  unfold deleteTable
  simp only [bind_eq_andThen]
  refine (reads_mustReadTable name).ensures_andThen (fun fault failed => ?_) fun table read => ?_
  · refine fails fault fun table known => ?_
    cases (Contents.reply_mustReadTable.mpr known).symm.trans failed
  have known := Contents.reply_mustReadTable.mp read
  obtain rfl := named table known
  refine (reads_tableReferences _ _).ensures_andThen (fun _ failed => by cases failed)
    fun references listed => ?_
  have referenced (some : references ≠ []) (fault : Fault) : post (.error fault) contents := by
    refine fails fault fun other known' listed' => ?_
    cases known.symm.trans known'
    exact some (Except.ok.inj (listed.symm.trans listed'))
  split
  · exact referenced (List.cons_ne_nil _ _) _
  · exact referenced (List.cons_ne_nil _ _) _
  · refine (reads_scan _ _).ensures_andThen (fun fault failed => ?_) fun items scanned => ?_
    · cases (Contents.reply_scan.mpr ⟨table, known, rfl⟩).symm.trans failed
    obtain ⟨again, read', rfl⟩ := Contents.reply_scan.mp scanned
    cases known.symm.trans read'
    have looped (rows : List Row) : each (fun item => (lift item).andThen fun row =>
        (lift (table.getRowKey row)).andThen fun id => delete table.name id)
        (rows.map Except.ok) = deleteRows table rows := by
      induction rows with
      | nil => rfl
      | cons row rest ih => exact congrArg (Script.andThen _) (funext fun _ => ih)
    rw [Contents.filterMap_filterRow, looped]
    exact passes table known listed

section

variable (sound : contents.relations.Sound)

include sound

/-- A row that was validated under its key may be put. -/
theorem step_put (known : contents.table table.name = some table)
    (validated : contents.reply (table.validateRow row) = .ok ())
    (key : table.getRowKey row = .ok id) (signed : id.isNegativeZero = false) :
    contents.relations.Step (contents.relations.setRow table.name id (some row)) :=
  .put known (Contents.fits_of_validateRow validated) key signed
    (Contents.unshared_of_validateRow sound known validated key signed)
    (Contents.resolves_of_validateRow validated key)

/-- Creating a row puts it, or changes no table and no row. -/
theorem create_leads
    (signed : ∀ table id, contents.table name = some table → table.getRowKey row = .ok id →
      id.isNegativeZero = false) :
    (create name row).Leaves refuses contents fun _ (after : Contents) =>
      contents.Leads after := by
  refine ensures_create (fun _ => .of_same rfl) fun table id known validated key _ => ?_
  obtain rfl := sound.named known
  have put := step_put sound known validated key (signed table id known key)
  rw [← Contents.relations_setRow] at put
  refine (relations_of_writes (writes_createIndexes (fun column value => ⟨_, _, _, rfl⟩) id
    row)).mono fun _ (after : Contents) unchanged => ?_
  exact (Contents.Leads.single put).trans (.of_same unchanged)

/-- Deleting a row removes it if it returns, and the row was not referenced. Otherwise no
table and no row changes. -/
theorem delete_ensures :
    (delete name id).Leaves refuses contents
      (Ends (fun _ (after : Contents) => contents.relations.Unreferenced name id ∧
          after.relations = contents.relations.setRow name id none)
        fun _ (after : Contents) => after.relations = contents.relations) := by
  refine ensures_delete (fun _ _ => rfl) fun table references known listed checked => ?_
  obtain rfl := sound.named known
  have unreferenced := Contents.unreferenced_of_checkReferences sound known listed checked
  refine (relations_of_writes (writes_deleteIndexes (fun column value => ⟨_, _, _, rfl⟩)
    id)).andThen (fun _ _ unchanged => unchanged) fun _ (after : Contents) unchanged => ?_
  refine ensures_perform (fun _ _ => unchanged) fun _ => ⟨unreferenced, ?_⟩
  rw [Contents.relations_deleteRow, unchanged]

/-- Updating a row puts it, drops it and puts another, or does a part of that. -/
theorem update_leads (signed : id.isNegativeZero = false)
    (signedKey : ∀ table key, contents.table name = some table → table.getRowKey row = .ok key →
      key.isNegativeZero = false) :
    (update name id row).Leaves refuses contents fun _ (after : Contents) =>
      contents.Leads after := by
  unfold update
  simp only [bind_eq_andThen]
  have same : contents.Leads contents := .of_same rfl
  refine (reads_mustReadTable name).ensures_andThen (fun _ _ => same) fun table read => ?_
  have known := Contents.reply_mustReadTable.mp read
  obtain rfl := sound.named known
  refine (reads_lift _).ensures_andThen (fun _ _ => same) fun key primary => ?_
  rw [answer_lift] at primary
  have plain := signedKey table key known primary
  split
  · next equals =>
    obtain rfl := Value.eq_of_equals equals signed plain
    refine (relations_of_writes (writes_updateIndexes (fun column value => ⟨_, _, _, rfl⟩) id
      row)).andThen (fun _ _ unchanged => .of_same unchanged)
      fun _ (after : Contents) unchanged => ?_
    have still : after.relations.Sound := unchanged ▸ sound
    have known' : after.table table.name = some table :=
      (congrFun (congrArg Relations.table unchanged) _).trans known
    have untouched : contents.Leads after := .of_same unchanged
    refine (table.reads_validateRow row).ensures_andThen (fun _ _ => untouched)
      fun _ validated => ?_
    refine ensures_perform (fun _ _ => untouched) fun _ => ?_
    have put := step_put still known' validated primary signed
    rw [← Contents.relations_setRow] at put
    exact untouched.trans (.single put)
  · refine (delete_ensures sound).andThen (fun _ _ unchanged => .of_same unchanged)
      fun _ (after : Contents) removed => ?_
    obtain ⟨unreferenced, removed⟩ := removed
    have dropped : contents.Leads after := .single (removed ▸ .drop unreferenced)
    have tables : after.relations.table = contents.relations.table := by rw [removed]; rfl
    refine (create_leads (sound.steps dropped) fun other key' found => ?_).mono
      fun _ last created => dropped.trans created
    exact signedKey other key' ((congrFun tables _).symm.trans found)

end

/-- Creating a table stores its schema, if the name is new and the schema is valid, or
changes nothing. -/
theorem createTable_ensures :
    (createTable table).Leaves refuses contents
      (Ends (fun _ (after : Contents) => contents.table table.name = none ∧
          contents.reply table.validate = .ok () ∧
          after = Store.replay contents (.set (.table table.name) table))
        fun _ (after : Contents) => after = contents) := by
  unfold createTable
  simp only [bind_eq_andThen]
  refine (reads_read _).ensures_andThen (fun _ _ => rfl) fun found read => ?_
  refine (reads_require _ _).ensures_andThen (fun _ _ => rfl) fun _ required => ?_
  refine table.reads_validate.ensures_andThen (fun _ _ => rfl) fun _ validated => ?_
  refine ensures_perform (fun _ _ => rfl) fun _ => ⟨?_, validated, rfl⟩
  cases read
  exact answer_require.mp required

/-- A valid schema of a new name may be created. -/
theorem step_create (distinct : (table.columns.map Column.name).Nodup)
    (fresh : contents.table table.name = none)
    (validated : contents.reply table.validate = .ok ()) :
    contents.relations.Step (contents.relations.setTable table.name (some table)) :=
  .create fresh ⟨distinct, (Contents.reply_validate validated).1⟩
    fun _ member _ reference => Contents.linked_of_validate validated member reference

theorem createTable_leads (distinct : (table.columns.map Column.name).Nodup) :
    (createTable table).Leaves refuses contents fun _ (after : Contents) =>
      contents.Leads after := by
  refine createTable_ensures.mono fun result (after : Contents) holds => ?_
  cases result with
  | error fault => exact .of_same (congrArg Contents.relations holds)
  | ok _ =>
    obtain ⟨fresh, validated, rfl⟩ := holds
    refine .single ?_
    rw [Contents.relations_setTable]
    exact step_create distinct fresh validated

/-- A table without listed references is referenced by no other table. -/
theorem unreferenced_of_tableReferences (sound : contents.relations.Sound)
    (listed : contents.reply (tableReferences name false) = .ok []) {other : String}
    {column : Column} (known : contents.relations.table other = some table)
    (member : column ∈ table.columns) (reference : column.references = some name) :
    other = name := by
  by_contra different
  have referencing : column.name ∈ Kv.referencing table name :=
    List.mem_map_of_mem (List.mem_filter.mpr ⟨member, by simpa using reference⟩)
  have found := (Contents.reply_tableReferences listed).mpr ⟨other, table, known,
    .inr (fun same => different ((sound.named known).symm.trans same)), rfl, rfl,
    List.ne_nil_of_mem referencing⟩
  cases found

/-- The state of the loop that deletes the rows of a table: the rows that are left are
those still to be deleted. -/
structure Emptying (before : Contents) (name : String) (rest : List (Except Fault Row))
    (after : Contents) : Prop where
  leads : before.Leads after
  tables : after.relations.table = before.relations.table
  left : ∀ id row, after.row name id = some row → .ok row ∈ rest

/-- Deleting the rows of a table one after the other leaves none, if it returns. -/
theorem deleteRows_ensures (sound : contents.relations.Sound)
    (known : contents.table table.name = some table) :
    (deleteRows table (contents.rows table.name)).Leaves refuses contents
      (Ends (fun _ => Emptying contents table.name [])
        fun _ (after : Contents) => contents.Leads after) := by
  refine ensures_each_rest (fun rest => Emptying contents table.name (rest.map Except.ok))
    (fun _ after => contents.Leads after) ?_ ?_
  · refine ⟨.of_same rfl, rfl, fun id row stored => ?_⟩
    exact List.mem_map_of_mem (Contents.mem_rows.mpr ⟨id, stored⟩)
  · intro row rest (before : Contents) emptying
    refine (reads_lift _).ensures_andThen (fun _ _ => emptying.leads) fun id key => ?_
    rw [answer_lift] at key
    have still := sound.steps emptying.leads
    refine (delete_ensures still).mono fun result (after : Contents) removed => ?_
    cases result with
    | error fault => exact emptying.leads.trans (.of_same removed)
    | ok value =>
      obtain ⟨unreferenced, removed⟩ := removed
      have dropped : before.Leads after := .single (removed ▸ .drop unreferenced)
      refine ⟨emptying.leads.trans dropped, ?_, fun other found stored => ?_⟩
      · rw [removed]
        exact emptying.tables
      · have kept : after.relations.row table.name other = some found := stored
        rw [removed, Relations.setRow_row] at kept
        split at kept
        · cases kept
        · next different =>
          refine (List.mem_cons.mp (emptying.left other found kept)).resolve_left fun same => ?_
          cases same
          have present : before.relations.table table.name = some table :=
            (congrFun emptying.tables _).trans known
          cases (still.row_of_table present kept).2.1.symm.trans key
          exact different ⟨rfl, rfl⟩

theorem deleteTable_leads (sound : contents.relations.Sound) :
    (deleteTable name).Leaves refuses contents fun _ (after : Contents) =>
      contents.Leads after := by
  refine ensures_deleteTable (fun _ => sound.named) (fun _ _ => .of_same rfl)
    fun table known listed => ?_
  obtain rfl := sound.named known
  refine (deleteRows_ensures sound known).andThen (fun _ _ leads => leads)
    fun _ (after : Contents) emptied => ?_
  refine ensures_perform (fun _ _ => emptied.leads) fun _ => emptied.leads.trans (.single ?_)
  rw [Contents.relations_deleteTable]
  refine .remove (fun id => ?_) fun other owner column present member reference => ?_
  · cases stored : after.relations.row table.name id with
    | none => rfl
    | some row => cases emptied.left id row stored
  · rw [emptied.tables] at present
    exact unreferenced_of_tableReferences sound listed present member reference

/-- Column names are distinct, and primary keys are not negative zero. -/
def Call.Proper (contents : Contents) : Call → Prop
  | .createTable table => (table.columns.map Column.name).Nodup
  | .deleteTable _ => True
  | .create name row => ∀ table id, contents.table name = some table →
      table.getRowKey row = .ok id → id.isNegativeZero = false
  | .update name id row => id.isNegativeZero = false ∧ ∀ table key,
      contents.table name = some table → table.getRowKey row = .ok key →
      key.isNegativeZero = false
  | .delete _ _ => True

/-- A proper call is a sequence of steps that keep the constraints, whatever it returns
and whichever of its writes are refused. -/
theorem Call.leads {call : Call} (sound : contents.relations.Sound)
    (proper : call.Proper contents) :
    call.script.Leaves refuses contents fun _ (after : Contents) =>
      contents.Leads after := by
  cases call with
  | createTable table => exact createTable_leads proper
  | deleteTable name => exact deleteTable_leads sound
  | create name row => exact create_leads sound proper
  | update name id row => exact update_leads sound proper.1 proper.2
  | delete name id =>
    refine (delete_ensures sound).mono fun result (after : Contents) removed => ?_
    cases result with
    | error fault => exact .of_same removed
    | ok value => exact .single (removed.2 ▸ .drop removed.1)

end Kv

end Radb.Sql
