import Radb.Sql.Engine.Constraints

/-! # Failed calls

A call that returns an error after some of its writes leaves them behind. It changes
nothing if all its errors come before its first write.
-/

namespace Radb.Sql

open Foundation Foundation.Script

variable {name : String} {id : Value} {table : Table}

/-- A fault that is a panic. -/
def Fault.IsPanic : Fault → Prop
  | .error _ => False
  | .panic _ => True

namespace Kv

variable {contents : Contents} {refuses : Key → Option Fault}

/-- If a call stopped with an error, nothing changed. -/
def Harmless (contents : Contents) (fault : Fault) (after : Contents) : Prop :=
  fault.IsPanic ∨ after = contents

/-- Hash sets only panic. -/
theorem stops_indexInsert (table column : String) (value id : Value) :
    (indexInsert table column value id).Stops Fault.IsPanic := by
  refine Stops.andThen (fun _ => trivial) fun index => Stops.andThen (stops_lift ?_) fun next => ?_
  · intro fault failed
    cases id <;> cases failed
    trivial
  · unfold indexSave
    split <;> trivial

theorem stops_indexRemove (table column : String) (value id : Value) :
    (indexRemove table column value id).Stops Fault.IsPanic := by
  refine Stops.andThen (fun _ => trivial) fun index => Stops.andThen (stops_lift ?_) fun next => ?_
  · intro fault failed
    cases id <;> cases failed
    trivial
  · unfold indexSave
    split <;> trivial

theorem stops_element (row : Row) (position : Nat) :
    (lift (element row position) : Task Value).Stops Fault.IsPanic := by
  refine stops_lift fun fault failed => ?_
  unfold element at failed
  split at failed
  · cases failed
  · cases failed
    trivial

theorem stops_createIndexes (table : Table) (id : Value) (row : Row) :
    (createIndexes table id row).Stops Fault.IsPanic :=
  stops_each (fun pair : Nat × Column => (stops_element row pair.1).andThen fun value =>
    stops_indexInsert table.name pair.2.name value id) _

theorem stops_deleteIndexes (table : Table) (id : Value) :
    (deleteIndexes table id).Stops Fault.IsPanic := by
  unfold deleteIndexes
  split
  · trivial
  · refine Stops.andThen (fun _ => trivial) fun found => ?_
    cases found with
    | none => trivial
    | some row =>
      exact stops_each (fun pair : Nat × Column => (stops_element row pair.1).andThen fun value =>
        stops_indexRemove table.name pair.2.name value id) _

/-- No write is refused, or the table has no indexes. -/
def Unhindered (refuses : Key → Option Fault) (contents : Contents) (name : String) : Prop :=
  (∀ key, refuses key = none) ∨ ∀ table, contents.table name = some table → table.indexes = []

theorem create_harmless {row : Row} (unhindered : Unhindered refuses contents name) :
    (create name row).Leaves refuses contents
      (Ends (fun _ _ => True) (Harmless contents)) := by
  refine ensures_create (fun _ => .inr rfl) fun table id known _ _ _ => ?_
  rcases unhindered with unrefused | none
  · refine ((stops_createIndexes table id row).ensures unrefused).mono fun result after ends => ?_
    cases result with
    | ok _ => trivial
    | error fault => exact .inl ends
  · rw [createIndexes, none table known]
    trivial

theorem delete_harmless (unhindered : Unhindered refuses contents name) :
    (delete name id).Leaves refuses contents
      (Ends (fun _ _ => True) (Harmless contents)) := by
  refine ensures_delete (fun _ _ => .inr rfl) fun table _ known _ _ => ?_
  rcases unhindered with unrefused | none
  · refine ((stops_deleteIndexes table id).ensures unrefused).andThen
      (fun _ _ ends => .inl ends) fun _ _ _ => ?_
    refine ensures_perform (fun fault refused => ?_) fun _ => trivial
    rw [unrefused] at refused
    cases refused
  · rw [deleteIndexes, if_pos (none table known)]
    exact ensures_perform (fun _ _ => .inr rfl) fun _ => trivial

/-- An update keeps the primary key and, in the row it replaces, the indexed values. -/
def Steady (contents : Contents) (name : String) (id : Value) (row : Row) : Prop :=
  ∀ table key, contents.table name = some table → table.getRowKey row = .ok key →
    id.equals key = true ∧ ∀ old, contents.row table.name id = some old →
      ∀ pair ∈ table.indexes, ∀ before after, old[pair.1]? = some before →
        row[pair.1]? = some after → before.equals after = true

/-- The indexes are left alone if the indexed values are kept. -/
theorem updateIndexes_steady {row : Row}
    (steady : ∀ old, contents.row table.name id = some old → ∀ pair ∈ table.indexes,
      ∀ before after, old[pair.1]? = some before → row[pair.1]? = some after →
        before.equals after = true) :
    (updateIndexes table id row).Leaves refuses contents
      fun _ after => after = contents := by
  unfold updateIndexes
  split
  · rfl
  · simp only [bind_eq_andThen]
    refine (reads_read _).ensures_andThen (fun _ _ => rfl) fun found read => ?_
    cases found with
    | none => rfl
    | some old =>
      have present : contents.row table.name id = some old := Except.ok.inj read
      refine ensures_each (fun after => after = contents) rfl fun pair member before same => ?_
      subst same
      refine (reads_lift _).ensures_andThen (fun _ _ => rfl) fun first here => ?_
      refine (reads_lift _).ensures_andThen (fun _ _ => rfl) fun second there => ?_
      rw [answer_lift] at here there
      rw [if_pos (steady old present pair member first second (element_eq_ok here)
        (element_eq_ok there))]
      rfl

theorem update_harmless {row : Row} (steady : Steady contents name id row) :
    (update name id row).Leaves refuses contents
      (Ends (fun _ _ => True) (Harmless contents)) := by
  unfold update
  simp only [bind_eq_andThen]
  have same {fault : Fault} : Harmless contents fault contents := .inr rfl
  refine (reads_mustReadTable name).ensures_andThen (fun _ _ => same) fun table read => ?_
  refine (reads_lift _).ensures_andThen (fun _ _ => same) fun key primary => ?_
  rw [answer_lift] at primary
  obtain ⟨equal, kept⟩ := steady table key (Contents.reply_mustReadTable.mp read) primary
  rw [if_pos equal]
  refine (updateIndexes_steady kept).andThen (fun _ _ unchanged => .inr unchanged)
    fun _ after unchanged => ?_
  subst unchanged
  refine (table.reads_validateRow row).ensures_andThen (fun _ _ => same) fun _ _ => ?_
  exact ensures_perform (fun _ _ => same) fun _ => trivial

/-- No table refers to the given one, not even itself. -/
def Isolated (contents : Contents) (name : String) : Prop :=
  ∀ other, ¬ contents.relations.References other name

theorem delete_returns (unrefused : ∀ key, refuses key = none)
    (known : contents.table table.name = some table) (isolated : Isolated contents table.name) :
    (delete table.name id).Leaves refuses contents
      (Ends (fun _ _ => True) fun fault _ => fault.IsPanic) := by
  have nothing {references : List (String × List String)}
      (listed : contents.reply (tableReferences table.name true) = .ok references) :
      references = [] := by
    refine List.eq_nil_iff_forall_not_mem.mpr ?_
    rintro ⟨label, columns⟩ member
    obtain ⟨key, owner, present, _, _, rfl, some⟩ :=
      (Contents.reply_tableReferences listed).mp member
    obtain ⟨name, inside⟩ := List.exists_mem_of_ne_nil _ some
    obtain ⟨column, filtered, rfl⟩ := List.mem_map.mp inside
    obtain ⟨inColumns, reference⟩ := List.mem_filter.mp filtered
    exact isolated key ⟨owner, column, present, inColumns, by simpa using reference⟩
  refine ensures_delete (fun _ refused => ?_) fun found _ known' _ _ => ?_
  · refine absurd ?_ (refused table _ known rfl)
    rw [nothing rfl]
    rfl
  cases known.symm.trans known'
  refine ((stops_deleteIndexes table id).ensures unrefused).andThen (fun _ _ ends => ends)
    fun _ _ _ => ?_
  refine ensures_perform (fun fault refused => ?_) fun _ => trivial
  rw [unrefused] at refused
  cases refused

theorem deleteRows_returns (unrefused : ∀ key, refuses key = none)
    (sound : contents.relations.Sound) (known : contents.table table.name = some table)
    (isolated : Isolated contents table.name) :
    (deleteRows table (contents.rows table.name)).Leaves refuses contents
      (Ends (fun _ _ => True) fun fault _ => fault.IsPanic) := by
  refine Ensures.mono (ensures_each_rest (fun rest (before : Contents) => contents.Leads before ∧
    before.relations.table = contents.relations.table ∧
    ∀ row ∈ rest, ∃ id, table.getRowKey row = .ok id)
    (fun fault _ => fault.IsPanic) ?_ ?_) fun result after ends => ?_
  · refine ⟨.of_same rfl, rfl, fun row member => ?_⟩
    obtain ⟨id, stored⟩ := Contents.mem_rows.mp member
    exact ⟨id, (sound.row_of_table known stored).2.1⟩
  · rintro row rest before ⟨leads, tables, keyed⟩
    obtain ⟨id, key⟩ := keyed row List.mem_cons_self
    refine (reads_lift _).ensures_andThen (fun _ failed => ?_) fun again same => ?_
    · rw [answer_lift, key] at failed
      cases failed
    have present : Contents.table before table.name = some table :=
      (congrFun tables _).trans known
    have alone : Isolated before table.name := by
      rintro other ⟨owner, column, there, rest⟩
      exact isolated other ⟨owner, column, (congrFun tables _).symm.trans there, rest⟩
    refine ((delete_returns unrefused present alone).and
      (delete_ensures (sound.steps leads))).mono fun result after ends => ?_
    cases result with
    | error fault => exact ends.1
    | ok _ =>
      obtain ⟨_, unreferenced, removed⟩ := ends
      refine ⟨leads.trans (.single (removed ▸ .drop unreferenced)), ?_, fun other member =>
        keyed other (List.mem_cons_of_mem _ member)⟩
      rw [removed]
      exact tables
  · cases result with
    | error fault => exact ends
    | ok _ => trivial

theorem deleteTable_harmless (careful : (∀ id, contents.row name id = none) ∨
      (∀ key, refuses key = none) ∧ Isolated contents name) (sound : contents.relations.Sound) :
    (deleteTable name).Leaves refuses contents
      (Ends (fun _ _ => True) (Harmless contents)) := by
  refine ensures_deleteTable (fun _ => sound.named) (fun _ _ => .inr rfl) fun table known _ => ?_
  obtain rfl := sound.named known
  rcases careful with empty | ⟨unrefused, isolated⟩
  · have none : contents.rows table.name = [] := by
      refine List.eq_nil_iff_forall_not_mem.mpr fun row member => ?_
      obtain ⟨id, stored⟩ := Contents.mem_rows.mp member
      rw [empty] at stored
      cases stored
    rw [none]
    exact ensures_perform (fun _ _ => .inr rfl) fun _ => trivial
  · refine (deleteRows_returns unrefused sound known isolated).andThen
      (fun _ _ ends => .inl ends) fun _ _ _ => ?_
    refine ensures_perform (fun fault refused => ?_) fun _ => trivial
    rw [unrefused] at refused
    cases refused

/-- The errors of a call come before its first write: every write is refused, or none is
and there is nothing else to fail, or there is only one write. -/
def Call.Careful (refuses : Key → Option Fault) (contents : Contents) (call : Call) : Prop :=
  (∀ key, refuses key ≠ none) ∨
  match call with
  | .createTable _ => True
  | .deleteTable name => contents.relations.Sound ∧ ((∀ id, contents.row name id = none) ∨
      (∀ key, refuses key = none) ∧ Isolated contents name)
  | .create name _ => Unhindered refuses contents name
  | .update name id row => Steady contents name id row
  | .delete name _ => Unhindered refuses contents name

theorem Call.harmless {call : Call} (careful : call.Careful refuses contents) :
    call.script.Leaves refuses contents
      (Ends (fun _ _ => True) (Harmless contents)) := by
  rcases careful with refused | careful
  · refine (ensures_of_refused call.script refused).mono fun result after same => ?_
    cases result with
    | ok _ => trivial
    | error fault => exact .inr same
  cases call with
  | createTable table =>
    refine createTable_ensures.mono fun result after ends => ?_
    cases result with
    | ok _ => trivial
    | error fault => exact .inr ends
  | deleteTable name => exact deleteTable_harmless careful.2 careful.1
  | create name row => exact create_harmless careful
  | update name id row => exact update_harmless careful
  | delete name id => exact delete_harmless careful

end Kv

open Radb.Storage Radb.Storage.Mvcc

/-- One transaction with one row of a table without indexes. -/
def stocking : List Operation :=
  [.begin, .call 0 (.createTable codes), .call 0 (.create "codes" [.integer 1, .integer 7])]

/-- A table with an index and a required value. -/
def tags : Table :=
  ⟨"tags", [⟨"id", .integer, true, false, none, true, none, false⟩,
    ⟨"tag", .integer, false, true, some .null, false, none, true⟩,
    ⟨"size", .integer, false, false, none, false, none, false⟩]⟩

/-- One transaction with one row of it. -/
def tagging : List Operation :=
  [.begin, .call 0 (.createTable tags),
    .call 0 (.create "tags" [.integer 1, .integer 5, .integer 7])]

/-- A change of the tag together with an invalid size. -/
def retagging : Kv.Call := .update "tags" (.integer 1) [.integer 1, .integer 6, .null]

end Radb.Sql
