import Radb.Sql.Engine.Integrity
import Radb.Sql.Engine.Isolation

/-! # Declared constraints in runs

Run serially, proper calls never violate a constraint. Run concurrently they may, since
a transaction checks them on what it sees; they do not if no table that the transaction
changed, and none tied to it by a reference, was changed by others meanwhile.
-/

namespace Radb.Sql

open Foundation Radb.Storage Radb.Storage.Mvcc

namespace Relations

/-- Two databases have the same table of a name, with the same rows. -/
def Agree (first second : Relations) (name : String) : Prop :=
  first.table name = second.table name ∧ first.row name = second.row name

/-- A table has a reference to another one. -/
def References (relations : Relations) (name target : String) : Prop :=
  ∃ table column, relations.table name = some table ∧ column ∈ table.columns ∧
    column.references = some target

variable {relations : Relations}

/-- A database is sound if every table is as in a sound one, and so is every pair of a
table and one that it references. -/
theorem Sound.of_local
    (single : ∀ name, ∃ other : Relations, other.Sound ∧ relations.Agree other name)
    (pair : ∀ name target, relations.References name target → ∃ other : Relations,
      other.Sound ∧ relations.Agree other name ∧ relations.Agree other target) :
    relations.Sound where
  named := by
    intro name table known
    obtain ⟨other, sound, tables, _⟩ := single name
    exact sound.named (tables ▸ known)
  formed := by
    intro name table known
    obtain ⟨other, sound, tables, _⟩ := single name
    exact sound.formed (tables ▸ known)
  linked := by
    intro name table column target known member reference
    obtain ⟨other, sound, ⟨tables, _⟩, targets, _⟩ :=
      pair name target ⟨table, column, known, member, reference⟩
    obtain ⟨found, present⟩ := sound.linked (tables ▸ known) member reference
    exact ⟨found, targets ▸ present⟩
  kept := by
    intro name id row stored
    obtain ⟨other, sound, tables, rows⟩ := single name
    rw [rows] at stored
    obtain ⟨table, known, rest⟩ := sound.kept stored
    exact ⟨table, tables ▸ known, rest⟩
  unique := by
    intro name table id row known stored position column value key one found placed unique
      primary here present there different located
    obtain ⟨other, sound, tables, rows⟩ := single name
    have named := sound.named (tables ▸ known)
    rw [named, rows] at there
    rw [rows] at stored
    exact sound.unique (tables ▸ known) stored placed unique primary here present
      (named.symm ▸ there) different located
  referenced := by
    intro name table id row known stored position column value target placed reference here
      present number
    obtain ⟨other, sound, ⟨tables, rows⟩, _, targetRows⟩ := pair name target
      ⟨table, column, known, List.mem_of_getElem? placed, reference⟩
    rw [rows] at stored
    obtain ⟨key, found, there, same⟩ :=
      sound.referenced (tables ▸ known) stored placed reference here present number
    exact ⟨key, found, by rw [targetRows]; exact there, same⟩

/-- Every table that `view` changed in `base`, every table it references there and every
committed table that references it are committed as they are in `base`. -/
def Undisturbed (base committed view : Relations) : Prop :=
  ∀ name, ¬ view.Agree base name → committed.Agree base name ∧
    (∀ target, view.References name target → committed.Agree base target) ∧
    ∀ source, committed.References source name → committed.Agree base source

end Relations

open Relations

theorem Merged.agree {base committed view merged : Contents}
    (merge : Merged base committed view merged) (name : String) :
    (view.relations.Agree base.relations name →
      merged.relations.Agree committed.relations name) ∧
    (committed.relations.Agree base.relations name →
      merged.relations.Agree view.relations name) := by
  constructor
  · rintro ⟨tables, rows⟩
    refine ⟨?_, funext fun id => ?_⟩
    · rcases merge (.table name) with ⟨_, taken⟩ | ⟨same, taken⟩
      · exact taken
      · exact taken.trans (tables.trans same.symm)
    · rcases merge (.row name id) with ⟨_, taken⟩ | ⟨same, taken⟩
      · exact taken
      · exact taken.trans ((congrFun rows id).trans same.symm)
  · rintro ⟨tables, rows⟩
    refine ⟨?_, funext fun id => ?_⟩
    · rcases merge (.table name) with ⟨same, taken⟩ | ⟨_, taken⟩
      · exact taken.trans (tables.trans same.symm)
      · exact taken
    · rcases merge (.row name id) with ⟨same, taken⟩ | ⟨_, taken⟩
      · exact taken.trans ((congrFun rows id).trans same.symm)
      · exact taken

theorem Merged.sound {base committed view merged : Contents}
    (merge : Merged base committed view merged)
    (undisturbed : Undisturbed base.relations committed.relations view.relations)
    (left : committed.relations.Sound) (right : view.relations.Sound) :
    merged.relations.Sound := by
  have fromView {name : String} (same : committed.relations.Agree base.relations name) :
      merged.relations.Agree view.relations name := (merge.agree name).2 same
  have fromCommitted {name : String} (same : view.relations.Agree base.relations name) :
      merged.relations.Agree committed.relations name := (merge.agree name).1 same
  apply Sound.of_local
  · intro name
    by_cases same : view.relations.Agree base.relations name
    · exact ⟨_, left, fromCommitted same⟩
    · exact ⟨_, right, fromView (undisturbed name same).1⟩
  · rintro name target ⟨table, column, known, member, reference⟩
    by_cases same : view.relations.Agree base.relations name
    · by_cases sameTarget : view.relations.Agree base.relations target
      · exact ⟨_, left, fromCommitted same, fromCommitted sameTarget⟩
      · -- the transaction changed the table that is referenced
        have references : committed.relations.References name target :=
          ⟨table, column, (fromCommitted same).1.symm.trans known, member, reference⟩
        obtain ⟨own, _, sources⟩ := undisturbed target sameTarget
        exact ⟨_, right, fromView (sources name references), fromView own⟩
    · -- the transaction changed the table that has the reference
      obtain ⟨own, targets, _⟩ := undisturbed name same
      have references : view.relations.References name target :=
        ⟨table, column, (fromView own).1.symm.trans known, member, reference⟩
      exact ⟨_, right, fromView own, fromView (targets target references)⟩

/-- Calls have distinct column names, and primary keys that are not negative zero. -/
def ProperCalls (db : Database) : Operation → Prop
  | .call txn call => ∀ st view, db.transactions[txn]? = some st → Shows st db.engine view →
      call.Proper view
  | _ => True

/-- Whoever commits was undisturbed. -/
def UndisturbedCommits (db : Database) : Operation → Prop
  | .commit txn => ∀ st base committed view, db.transactions[txn]? = some st →
      Shows (TransactionState.before st) db.engine base → Publishes db.engine committed →
      Shows st db.engine view →
      Undisturbed base.relations committed.relations view.relations
  | _ => True

theorem keeps_sound {db : Database} {txn : Nat} {call : Kv.Call} {result : Except Fault Unit}
    (proper : ProperCalls db (.call txn call)) :
    Keeps (fun contents => contents.relations.Sound) db (.call txn call) result := by
  intro st view found shown sound _
  exact sound.steps (call.leads sound (proper st view found shown))

/-- Run serially, proper calls keep the declared constraints, in what is committed and in
what the open transaction sees. -/
theorem constraints_of_serial_calls {schedule : List Operation} {last : Database}
    {results : List (Except Fault Unit)} (bounded : Schedule.begins schedule < 2 ^ 64 - 2)
    (throughout : Schedule.Throughout
      (fun db operation _ => Schedule.Serial db operation ∧ ProperCalls db operation)
      Database.empty schedule)
    (ran : Schedule.run Database.empty schedule = some (last, results)) :
    (∃ contents, Publishes last.engine contents ∧ contents.relations.Constraints) ∧
      ∀ txn st, last.transactions[txn]? = some st → txn ∉ last.ended →
        ∃ contents, Shows st last.engine contents ∧ contents.relations.Constraints := by
  obtain ⟨consistent, store, holds⟩ := serial_holds
    (fun contents => contents.relations.Sound)
    (by rw [Contents.relations_empty]; exact .empty)
    (fun db operation _ => ProperCalls db operation)
    (fun db txn call result proper => keeps_sound proper) bounded throughout ran
  refine ⟨?_, fun txn st found running => ?_⟩
  · obtain ⟨contents, publishes, sound⟩ := holds.publishes
    exact ⟨contents, publishes, sound.constraints⟩
  · obtain ⟨view, shown, sound⟩ := holds.shows consistent found running
    exact ⟨view, shown, sound.constraints⟩

theorem mem_of_getRowKey {table : Table} {row : Row} {id : Value}
    (key : table.getRowKey row = .ok id) : id ∈ row := by
  obtain ⟨_, _, _, _, _, here⟩ := Table.getRowKey_eq_ok key
  exact List.mem_of_getElem? here

/-- A table with a unique column. -/
def codes : Table :=
  ⟨"codes", [⟨"id", .integer, true, false, none, true, none, false⟩,
    ⟨"code", .integer, false, true, some .null, true, none, false⟩]⟩

/-- One transaction that creates a table, fills it and commits. -/
def filling : List Operation :=
  [.begin, .call 0 (.createTable codes), .call 0 (.create "codes" [.integer 1, .integer 7]),
    .call 0 (.create "codes" [.integer 2, .null]),
    .call 0 (.update "codes" (.integer 2) [.integer 3, .integer 8]), .commit 0]

theorem filling_proper : Schedule.Throughout
    (fun db operation _ => Schedule.Serial db operation ∧ ProperCalls db operation)
    Database.empty filling := by
  intro next result _
  refine ⟨⟨fun txn below => absurd below (Nat.not_lt_zero txn), trivial⟩, .of_forall ?_ next⟩
  intro operation member db result
  simp only [List.mem_cons, List.not_mem_nil, or_false] at member
  have plain {table : Table} {id first second : Value} (left : first.isNegativeZero = false)
      (right : second.isNegativeZero = false) (key : table.getRowKey [first, second] = .ok id) :
      id.isNegativeZero = false := by
    have found := mem_of_getRowKey key
    simp only [List.mem_cons, List.not_mem_nil, or_false] at found
    rcases found with rfl | rfl
    · exact left
    · exact right
  have distinct : (codes.columns.map Column.name).Nodup := by decide
  rcases member with rfl | rfl | rfl | rfl | rfl
  · exact ⟨trivial, fun _ _ _ _ => distinct⟩
  · exact ⟨trivial, fun _ _ _ _ _ _ _ key => plain rfl rfl key⟩
  · exact ⟨trivial, fun _ _ _ _ _ _ _ key => plain rfl rfl key⟩
  · exact ⟨trivial, fun _ _ _ _ => ⟨rfl, fun _ _ _ key => plain rfl rfl key⟩⟩
  · exact ⟨trivial, trivial⟩

theorem constraints_of_serial_calls_filling :
    ∃ last, Schedule.run Database.empty filling =
        some (last, [.ok (), .ok (), .ok (), .ok (), .ok (), .ok ()]) ∧
      ∃ contents, Publishes last.engine contents ∧ contents.relations.Constraints := by
  have returned : (Schedule.run Database.empty filling).map Prod.snd =
      some [.ok (), .ok (), .ok (), .ok (), .ok (), .ok ()] := by decide +kernel
  obtain ⟨⟨last, results⟩, ran, rfl⟩ := Option.map_eq_some_iff.mp returned
  exact ⟨last, ran, (constraints_of_serial_calls (by decide) filling_proper ran).1⟩

/-- A table whose primary key is a number. -/
def measures : Table :=
  ⟨"measures", [⟨"id", .float, true, false, none, true, none, false⟩]⟩

/-- One transaction that creates rows with the keys zero and negative zero. -/
def zeros : List Operation :=
  [.begin, .call 0 (.createTable measures),
    .call 0 (.create "measures" [.float Binary64.zero]),
    .call 0 (.create "measures" [.float Binary64.negativeZero])]

/-- Zero and negative zero are stored under different keys, but are equal: a serial run in
which every call returns violates the constraints. -/
theorem equal_keys_of_zeros :
    ∃ last contents,
      Schedule.run Database.empty zeros = some (last, [.ok (), .ok (), .ok (), .ok ()]) ∧
      Schedule.Throughout (fun db operation _ => Schedule.Serial db operation) Database.empty
        zeros ∧
      last.transactions = [⟨1, false, ∅⟩] ∧ last.ended = ∅ ∧
      Shows ⟨1, false, ∅⟩ last.engine contents ∧ ¬ contents.relations.Constraints := by
  have returned : (Schedule.run Database.empty zeros).map Prod.snd =
      some [.ok (), .ok (), .ok (), .ok ()] := by decide +kernel
  obtain ⟨⟨last, results⟩, ran, rfl⟩ := Option.map_eq_some_iff.mp returned
  have began : last.transactions = [⟨1, false, ∅⟩] :=
    Schedule.of_run ran Database.transactions (by decide +kernel)
  have ended : last.ended = ∅ := Schedule.of_run ran Database.ended (by decide +kernel)
  have found : last.transactions[0]? = some ⟨1, false, ∅⟩ := by rw [began]; rfl
  obtain ⟨view, shown⟩ := exists_view ran (by decide) found (by rw [ended]; simp)
  refine ⟨last, view, ran, ?_, began, ended, shown, fun constraints => ?_⟩
  · intro next result _
    refine ⟨fun txn below => absurd below (Nat.not_lt_zero txn), .of_forall ?_ next⟩
    intro operation member db result
    simp only [List.mem_cons, List.not_mem_nil, or_false] at member
    rcases member with rfl | rfl | rfl <;> trivial
  · have table := seen_of_run ran shown (.table "measures") measures (by decide +kernel)
    have first := seen_of_run ran shown (.row "measures" (.float Binary64.zero))
      [.float Binary64.zero] (by decide +kernel)
    have second := seen_of_run ran shown (.row "measures" (.float Binary64.negativeZero))
      [.float Binary64.negativeZero] (by decide +kernel)
    exact constraints.keys table first second (by decide +kernel) rfl rfl (by decide +kernel)

theorem undisturbed_of_serial : ∀ (schedule : List Operation) {db : Database} {store : Isolated},
    db.Consistent → db.engine.nextVersion + Schedule.begins schedule ≤ versionMax →
    Holds (fun contents => contents.relations.Sound) db store → Lone store →
    Schedule.Throughout
      (fun db operation _ => Schedule.Serial db operation ∧ ProperCalls db operation) db schedule →
    Schedule.Throughout
      (fun db operation _ => ProperCalls db operation ∧ UndisturbedCommits db operation)
      db schedule := by
  intro schedule
  induction schedule with
  | nil => exact fun _ _ _ _ _ => trivial
  | cons operation rest ih =>
    intro db store consistent bounded holds lone throughout next result stepped
    obtain ⟨⟨serial, proper⟩, later⟩ := throughout next result stepped
    have alone : ∀ {txn st base committed}, operation = .commit txn →
        db.transactions[txn]? = some st → Shows (TransactionState.before st) db.engine base →
        Publishes db.engine committed → base = committed := by
      rintro txn st base committed rfl
      exact lone.base_eq holds stepped
    have keeps : Keeps (fun contents => contents.relations.Sound) db operation result := by
      cases operation with
      | call txn call => exact keeps_sound proper
      | commit txn =>
        intro st base committed view merged found before publishes _ merge seen _
        obtain rfl := alone rfl found before publishes
        rw [merge.eq_of_same]
        exact seen
      | _ => trivial
    obtain ⟨still, version, _, held, advanced⟩ := holds.step consistent
      (Nat.le_trans (Nat.le_add_right _ _) bounded) stepped keeps
    refine ⟨⟨proper, ?_⟩, ih still (?_) held (lone.advances holds serial advanced) later⟩
    · cases operation with
      | commit txn =>
        intro st base committed view found before publishes _
        obtain rfl := alone rfl found before publishes
        exact fun name _ => ⟨⟨rfl, rfl⟩, fun _ _ => ⟨rfl, rfl⟩, fun _ _ => ⟨rfl, rfl⟩⟩
      | _ => trivial
    · rw [version, Nat.add_assoc]
      refine Nat.le_trans (Nat.le_of_eq ?_) bounded
      rw [Schedule.begins, Schedule.begins, List.count_cons, Nat.add_comm (List.count _ _)]
      simp only [beq_iff_eq]

/-- Two transactions that insert the same unique value under different keys. -/
def skew : List Operation :=
  [.begin, .call 0 (.createTable codes), .commit 0, .begin, .begin,
    .call 1 (.create "codes" [.integer 1, .integer 7]),
    .call 2 (.create "codes" [.integer 2, .integer 7]), .commit 1, .commit 2]

end Radb.Sql
