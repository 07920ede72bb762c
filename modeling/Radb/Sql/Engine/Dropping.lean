import Radb.Sql.Engine.Indexes

/-! # Dropping tables

Dropping a table deletes its rows one after the other, each of them only if no row that is left
refers to it. It removes the table, its rows and its index entries, and nothing else, exactly if no
row refers to one before it, and no key in an indexed table is NaN.
-/

namespace Radb.Sql

open Foundation Foundation.Script

variable {row : Row} {name : String} {first second : Value}

/-- A row refers to a primary key of its own table, which is not its own. -/
def Table.Refers (table : Table) (row : Row) (id : Value) : Prop :=
  ∃ (position : Nat) (column : Column) (value key : Value),
    table.columns[position]? = some column ∧ column.references = some table.name ∧
      row[position]? = some value ∧ value.equals id = true ∧ table.getRowKey row = .ok key ∧
      id.equals key = false

namespace Contents

/-- No other table refers to the given one. -/
def Alone (contents : Contents) (name : String) : Prop :=
  ∀ other table column, contents.table other = some table → column ∈ table.columns →
    column.references = some name → other = name

/-- Nothing of a table is left, and everything else stays. -/
structure Dropped (before : Contents) (name : String) (after : Contents) : Prop where
  gone : ∀ key : Key, key.owner = name → Store.get after key = none
  kept : ∀ key : Key, key.owner ≠ name → Store.get after key = Store.get before key

variable {contents : Contents} {table : Table} {id : Value}

/-- The check of a column of a row of the same table. -/
theorem reply_checkReference {position : Nat} {value key : Value}
    (here : row[position]? = some value) (keyed : table.getRowKey row = .ok key) :
    contents.reply (Kv.checkReference table table id row (position, name)) = .ok () ↔
      (value.equals id = true → id.equals key = true) := by
  unfold Kv.checkReference
  simp only [bind_eq_andThen, reply, answer_andThen, bind_eq_ok, answer_lift, element, here,
    Except.ok.injEq, exists_eq_left', ne_eq, not_true_eq_false, if_false]
  split
  · simp only [answer_andThen, bind_eq_ok, answer_lift, keyed, Except.ok.injEq, exists_eq_left',
      answer_require]
    tauto
  · exact iff_of_true rfl (fun same => absurd same ‹_›)

/-- The checks of a key pass if no row of its table refers to it. -/
theorem reply_checkReferences (keeps : contents.Keeps table)
    (alone : contents.Alone table.name) {references : List (String × List String)}
    (listed : contents.reply (Kv.tableReferences table.name true) = .ok references) :
    contents.reply (each (Kv.checkReferences table id) references) = .ok () ↔
      ∀ row ∈ contents.rows table.name, ¬table.Refers row id := by
  have known := keeps.known
  -- The table itself is the only one that is checked, by the positions of its references.
  let place (name : String) : Nat × String :=
    ((table.columns.findIdx? fun column => column.name = name).getD 0, name)
  have placed {position : Nat} {column : Column} (here : table.columns[position]? = some column) :
      place column.name = (position, column.name) := by
    have found := getColumnIndex_of_distinct keeps.formed.distinct here
    unfold Table.getColumnIndex at found
    split at found
    · next first =>
      cases found
      simp only [place, first, Option.getD_some]
    · cases found
  have mapped : (Kv.referencing table table.name).mapM (fun column => do
      let index ← table.getColumnIndex column
      .ok (index, column)) = .ok ((Kv.referencing table table.name).map place) := by
    rw [mapM_eq_ok, List.forall₂_map_right_iff, List.forall₂_same]
    intro name inside
    obtain ⟨column, filtered, rfl⟩ := List.mem_map.mp inside
    obtain ⟨position, here⟩ := List.getElem?_of_mem (List.mem_filter.mp filtered).1
    rw [getColumnIndex_of_distinct keeps.formed.distinct here, placed here]
    rfl
  have single : contents.reply (Kv.checkReferences table id
      (table.name, Kv.referencing table table.name)) = .ok () ↔
      ∀ row ∈ contents.rows table.name, ¬table.Refers row id := by
    unfold Kv.checkReferences
    simp only [bind_eq_andThen, reply, answer_andThen, bind_eq_ok, answer_lift]
    constructor
    · rintro ⟨found, read, columns, isMapped, items, scanned, all⟩ row inside
        ⟨position, column, value, key, here, reference, stored, same, keyed, other⟩
      cases known.symm.trans (reply_mustReadTable.mp read)
      cases mapped.symm.trans isMapped
      obtain ⟨again, read, rfl⟩ := reply_scan.mp scanned
      cases known.symm.trans read
      rw [filterMap_filterRow] at all
      have checked := answer_each.mp all (.ok row) (List.mem_map_of_mem inside)
      have one := answer_each.mp checked (place column.name) (List.mem_map_of_mem
        (List.mem_map_of_mem (List.mem_filter.mpr ⟨List.mem_of_getElem? here, by simpa using reference⟩)))
      rw [placed here] at one
      exact Bool.false_ne_true (other.symm.trans ((reply_checkReference stored keyed).mp one same))
    · intro clear
      refine ⟨table, reply_mustReadTable.mpr known, _, mapped, _,
        reply_scan.mpr ⟨table, known, rfl⟩, ?_⟩
      rw [filterMap_filterRow, answer_each]
      intro item inside
      obtain ⟨row, isRow, rfl⟩ := List.mem_map.mp inside
      obtain ⟨key, present⟩ := mem_rows.mp isRow
      change (each _ _).answer _ _ = _
      rw [answer_each]
      intro pair inside
      obtain ⟨name, isName, rfl⟩ := List.mem_map.mp inside
      obtain ⟨column, filtered, rfl⟩ := List.mem_map.mp isName
      obtain ⟨member, reference⟩ := List.mem_filter.mp filtered
      obtain ⟨position, here⟩ := List.getElem?_of_mem member
      have short : position < row.length := by
        rw [keeps.wide present]
        exact (List.getElem?_eq_some_iff.mp here).1
      have stored := List.getElem?_eq_getElem short
      rw [placed here]
      refine (reply_checkReference stored (keeps.keyed present).1).mpr fun same => ?_
      by_contra other
      exact clear row isRow ⟨position, column, _, key, here, by simpa using reference, stored, same,
        (keeps.keyed present).1, Bool.eq_false_of_not_eq_true other⟩
  rw [reply, answer_each]
  constructor
  · intro all row inside refers
    have again := refers
    obtain ⟨position, column, _, _, here, reference, _⟩ := again
    have referencing : column.name ∈ Kv.referencing table table.name := List.mem_map_of_mem
      (List.mem_filter.mpr ⟨List.mem_of_getElem? here, by simpa using reference⟩)
    exact single.mp (all _ ((reply_tableReferences listed).mpr ⟨table.name, table, known, .inl rfl,
      rfl, rfl, List.ne_nil_of_mem referencing⟩)) row inside refers
  · rintro clear ⟨owner, columns⟩ member
    obtain ⟨other, found, present, _, rfl, rfl, some⟩ := (reply_tableReferences listed).mp member
    obtain ⟨name, inside⟩ := List.exists_mem_of_ne_nil _ some
    obtain ⟨column, filtered, _⟩ := List.mem_map.mp inside
    obtain ⟨isColumn, reference⟩ := List.mem_filter.mp filtered
    cases alone other found column present isColumn (by simpa using reference)
    cases known.symm.trans present
    exact single.mpr clear

end Contents

namespace Kv

variable {contents : Contents} {refuses : Key → Option Fault} {table : Table} {id : Value}

open Contents

/-- Removing a row from the indexes does not fail. -/
theorem deleteIndexes_returns (unrefused : ∀ key, refuses key = none)
    (keeps : contents.Keeps table) :
    (deleteIndexes table id).Leaves refuses contents
      (Ends (fun _ _ => True) fun _ _ => False) := by
  unfold deleteIndexes
  split
  · trivial
  · simp only [bind_eq_andThen]
    refine (reads_read _).ensures_andThen (fun _ failed => by cases failed) fun found read => ?_
    cases found with
    | none => trivial
    | some row =>
      have present : contents.row table.name id = some row := Except.ok.inj read
      have looped : (each (fun pair => (lift (element row pair.1)).andThen fun value =>
          indexRemove table.name pair.2.name value id) table.indexes).Ensures KeyPrefix.covers
          refuses contents (Ends (fun _ (_ : Contents) => [] ⊆ table.indexes)
            fun _ _ => False) := by
        refine ensures_each_rest (fun rest (_ : Contents) => rest ⊆ table.indexes)
          (fun _ _ => False) (List.Subset.refl _) fun pair rest before inside => ?_
        obtain ⟨indexed, inside⟩ := List.cons_subset.mp inside
        obtain ⟨placed, _⟩ := Table.mem_indexes.mp indexed
        have short : pair.1 < row.length := by
          rw [keeps.wide present]
          exact (List.getElem?_eq_some_iff.mp placed).1
        refine (reads_lift _).ensures_andThen (fun fault failed => ?_) fun value _ => ?_
        · rw [answer_lift, element, List.getElem?_eq_getElem short] at failed
          cases failed
        refine (reads_indexLoad _ _ _).ensures_andThen (fun _ failed => by cases failed)
          fun index _ => ?_
        refine (reads_lift _).ensures_andThen (fun fault failed => ?_) fun next _ => ?_
        · have stored := (keeps.keyed present).2
          rw [answer_lift] at failed
          cases id <;> first | exact stored rfl | cases failed
        · unfold indexSave
          split <;> exact ensures_perform (fun _ refused => by simp [unrefused] at refused)
            fun _ => inside
      exact looped.mono fun result _ ends => by
        cases result with
        | error fault => exact ends
        | ok _ => trivial

/-- Deleting a row fails exactly if another one refers to it. It changes nothing of other tables. -/
theorem delete_ends (unrefused : ∀ key, refuses key = none)
    (keeps : contents.Keeps table) (alone : contents.Alone table.name) :
    (delete table.name id).Leaves refuses contents
      (Ends (fun _ (after : Contents) => (∀ row ∈ contents.rows table.name, ¬table.Refers row id) ∧
          after.relations = contents.relations.setRow table.name id none ∧
          ∀ key : Key, key.owner ≠ table.name → Store.get after key = Store.get contents key)
        fun _ _ => ∃ row ∈ contents.rows table.name, table.Refers row id) := by
  refine ensures_delete (fun _ refused => ?_) fun found references known listed checked => ?_
  · by_contra none
    exact refused table _ keeps.known rfl ((reply_checkReferences keeps alone rfl).mpr
      fun row inside refers => none ⟨row, inside, refers⟩)
  cases keeps.known.symm.trans known
  have clear := (reply_checkReferences keeps alone listed).mp checked
  have writes : (deleteIndexes table id).Writes fun key =>
      ∃ column value, key = .index table.name column value :=
    writes_deleteIndexes (fun column value => ⟨column, value, rfl⟩) id
  refine ((deleteIndexes_returns unrefused keeps).and writes.ensures).andThen
    (fun _ _ wrong => wrong.1.elim) fun _ (middle : Contents) unchanged => ?_
  refine ensures_perform (fun fault refused => ?_) fun _ => ⟨clear, ?_, ?_⟩
  · rw [unrefused] at refused
    cases refused
  · have same : middle.relations = contents.relations := relations_congr fun key other =>
      unchanged.2 key fun ⟨column, value, found⟩ => other ⟨_, column, value, found⟩
    rw [relations_deleteRow, same]
  · intro key other
    rw [Store.get_delete_of_ne _ (by rintro rfl; exact other rfl)]
    exact unchanged.2 key (by rintro ⟨column, value, rfl⟩; exact other rfl)

/-- NaN stays in the index entries that list it. -/
def Sticks (before after : Contents) : Prop :=
  ∀ name column value (id : Value), id.isNaN = true →
    id ∈ (before.entries name column value).getD [] →
    id ∈ (after.entries name column value).getD []

theorem delete_sticks :
    (delete table.name id).Leaves refuses contents fun _ => Sticks contents := by
  have kept : Sticks contents contents := fun _ _ _ _ _ listed => listed
  have looped (row : Row) (indexes : List (Nat × Column)) (owner : String) :
      (each (fun pair => (lift (element row pair.1)).andThen fun value =>
        indexRemove owner pair.2.name value id) indexes).Ensures KeyPrefix.covers refuses contents
        fun _ => Sticks contents := by
    refine ensures_each (Sticks contents) kept fun pair _ (before : Contents) held => ?_
    refine (reads_lift _).ensures_andThen (fun _ _ => held) fun value _ => ?_
    refine (reads_indexLoad _ _ _).ensures_andThen (fun _ _ => held) fun index loaded => ?_
    cases loaded
    refine (reads_lift _).ensures_andThen (fun _ _ => held) fun next removed => ?_
    rw [answer_lift] at removed
    have members (other : Value) (number : other.isNaN = true)
        (listed : other ∈ (before.entries owner pair.2.name value).getD []) : other ∈ next := by
      have result : next = ((before.entries owner pair.2.name value).getD []).filter
          fun stored => !stored.finds id := by
        cases id <;> first | cases removed; done | exact (Except.ok.inj removed).symm
      rw [result, List.mem_filter, Bool.not_eq_true', ← Bool.not_eq_true, Value.finds_iff]
      refine ⟨listed, ?_⟩
      rintro ⟨rfl, wrong⟩
      exact Bool.false_ne_true (wrong.symm.trans number)
    -- Only the entry that is saved changes.
    have saved {after : Contents} (here : (after.entries owner pair.2.name value).getD [] = next)
        (others : ∀ key, key ≠ Key.index owner pair.2.name value →
          Store.get after key = Store.get before key) : Sticks contents after := by
      intro name column value' other number listed
      have before := held name column value' other number listed
      by_cases same : Key.index name column value' = .index owner pair.2.name value
      · cases same
        rw [here]
        exact members other number before
      · rw [Contents.entries, others _ same]
        exact before
    unfold indexSave
    split
    · next empty =>
      subst empty
      exact ensures_perform (fun _ _ => held) fun _ => saved
        (by rw [Contents.entries, Store.get_delete_self]; rfl)
        fun key other => Store.get_delete_of_ne _ other
    · exact ensures_perform (fun _ _ => held) fun _ => saved
        (by rw [Contents.entries, Store.get_set_self]; rfl)
        fun key other => Store.get_set_of_ne _ _ other
  refine ensures_delete (fun _ _ => kept) fun found _ _ _ _ => ?_
  have removed : (deleteIndexes found id).Leaves refuses contents
      fun _ => Sticks contents := by
    unfold deleteIndexes
    split
    · exact kept
    · refine (reads_read _).ensures_andThen (fun _ _ => kept) fun row _ => ?_
      cases row with
      | none => exact kept
      | some row => exact looped row _ _
  refine removed.andThen (fun _ _ held => held) fun _ (middle : Contents) held => ?_
  refine ensures_perform (fun _ _ => held) fun _ name column value other number listed => ?_
  rw [Contents.entries, Store.get_delete_of_ne _ (by simp)]
  exact held name column value other number listed

/-- Rows refer to no row before them. -/
def Forward (table : Table) (rows : List Row) : Prop :=
  rows.Pairwise fun earlier later => ∀ id, table.getRowKey earlier = .ok id → ¬table.Refers later id

/-- No primary key of an indexed table is NaN. -/
def Numbers (contents : Contents) (table : Table) : Prop :=
  table.indexes ≠ [] → ∀ id, contents.row table.name id ≠ none → id.isNaN = false

/-- The state of the loop that deletes the rows of a table: exactly the rows still to be deleted are
left, and those that are gone were not referred to by a later one. -/
structure Deleting (before : Contents) (table : Table) (rest : List Row)
    (after : Contents) : Prop where
  tables : after.table = before.table
  left : ∀ id row, after.row table.name id = some row ↔
    before.row table.name id = some row ∧ row ∈ rest
  inside : ∀ row ∈ rest, ∃ id, before.row table.name id = some row
  distinct : rest.Nodup
  forward : Forward table (before.rows table.name) ↔ Forward table rest
  kept : ∀ key : Key, key.owner ≠ table.name → Store.get after key = Store.get before key
  matched : Numbers before table → after.IndexedBy after.relations
  sticks : Sticks before after

/-- A round of the loop fails exactly if a later row refers to the one that is deleted. -/
theorem deleting_delete {rest : List Row} {before : Contents}
    (unrefused : ∀ key, refuses key = none) (keeps : contents.Keeps table)
    (alone : contents.Alone table.name) (deleting : Deleting contents table (row :: rest) before)
    (keyed : table.getRowKey row = .ok id) :
    (delete table.name id).Leaves refuses before
      (Ends (fun _ (after : Contents) => Deleting contents table rest after)
        fun _ _ => ¬Forward table (contents.rows table.name)) := by
  have known : before.table table.name = some table :=
    (congrFun deleting.tables _).trans keeps.known
  have still : before.Keeps table := by
    refine ⟨known, keeps.formed, fun stored => ?_, fun stored => ?_⟩
    · exact keeps.wide ((deleting.left _ _).mp stored).1
    · exact keeps.keyed ((deleting.left _ _).mp stored).1
  have alone' : before.Alone table.name := by
    rw [Alone, deleting.tables]
    exact alone
  have rows {other : Row} : other ∈ before.rows table.name ↔ other ∈ row :: rest := by
    rw [mem_rows]
    constructor
    · rintro ⟨key, stored⟩
      exact ((deleting.left _ _).mp stored).2
    · intro inside
      obtain ⟨key, stored⟩ := deleting.inside other inside
      exact ⟨key, (deleting.left _ _).mpr ⟨stored, inside⟩⟩
  obtain ⟨key, stored⟩ := deleting.inside row List.mem_cons_self
  cases keyed.symm.trans (keeps.keyed stored).1
  obtain ⟨fresh, distinct⟩ := List.nodup_cons.mp deleting.distinct
  have heads : Forward table (row :: rest) ↔
      (∀ later ∈ rest, ¬table.Refers later id) ∧ Forward table rest := by
    rw [Forward, List.pairwise_cons]
    exact and_congr_left fun _ => forall₂_congr fun later _ =>
      ⟨fun clear => clear id keyed, fun clear other same => by cases keyed.symm.trans same; exact clear⟩
  have matched : (delete table.name id).Leaves refuses before
      (Ends (fun _ (after : Contents) => Numbers contents table → after.IndexedBy after.relations)
        fun _ _ => True) := by
    by_cases numbers : Numbers contents table
    · refine (delete_matched known keeps.formed.distinct (deleting.matched numbers)
        fun filled _ => numbers filled id (by simp [stored])).mono fun result after ends => ?_
      cases result with
      | error fault => trivial
      | ok _ => exact fun _ => ends
    · refine delete_sticks.mono fun result after _ => ?_
      cases result with
      | error fault => trivial
      | ok _ => exact fun wrong => absurd wrong numbers
  refine (((delete_ends unrefused still alone').and matched).and delete_sticks).mono
    fun result (after : Contents) holds => ?_
  obtain ⟨⟨ends, matched⟩, sticks⟩ := holds
  cases result with
  | error fault =>
    obtain ⟨other, inside, refers⟩ := ends
    rw [deleting.forward, heads]
    rintro ⟨clear, _⟩
    obtain rfl | later := List.mem_cons.mp (rows.mp inside)
    · obtain ⟨_, _, value, own, _, _, _, same, keyed', different⟩ := refers
      cases keyed.symm.trans keyed'
      have itself := Value.equals_trans ((Value.equals_comm _ _).trans same) same
      exact Bool.false_ne_true (different.symm.trans itself)
    · exact clear other later refers
  | ok _ =>
    obtain ⟨clear, removed, unchanged⟩ := ends
    have tables : after.table = before.table := congrArg Relations.table removed
    refine ⟨tables.trans deleting.tables, fun other found => ?_, fun other later =>
      deleting.inside other (List.mem_cons_of_mem _ later), distinct, ?_, fun key other =>
      (unchanged key other).trans (deleting.kept key other), matched, ?_⟩
    · rw [show after.row table.name other = _ from congrFun (congrFun (congrArg Relations.row
        removed) table.name) other, Relations.setRow_row]
      by_cases same : other = id
      · rw [if_pos ⟨rfl, same⟩]
        refine iff_of_false (by simp) ?_
        rintro ⟨again, later⟩
        rw [same, stored] at again
        exact fresh (Option.some.inj again ▸ later)
      · rw [if_neg (fun both => same both.2)]
        refine (deleting.left other found).trans (and_congr_right fun present => ?_)
        rw [List.mem_cons, or_iff_right]
        rintro rfl
        exact same (keeps.id_unique present stored)
    · rw [deleting.forward, heads, and_iff_right]
      exact fun later inside => clear later (rows.mpr (List.mem_cons_of_mem _ inside))
    · exact fun name column value other number listed =>
        sticks name column value other number (deleting.sticks name column value other number listed)

/-- Dropping a table removes it and its rows and keeps the other tables, or fails because a row
refers to one before it. -/
theorem deleteTable_ends (unrefused : ∀ key, refuses key = none) (keeps : contents.Keeps table)
    (alone : contents.Alone table.name) (matched : contents.IndexedBy contents.relations) :
    (deleteTable table.name).Leaves refuses contents
      (Ends (fun _ (after : Contents) => Forward table (contents.rows table.name) ∧
          ∃ middle : Contents, Deleting contents table [] middle ∧
            after = Store.replay middle (.delete (.table table.name)))
        fun _ _ => ¬Forward table (contents.rows table.name)) := by
  have nothing {references : List (String × List String)}
      (listed : contents.reply (tableReferences table.name false) = .ok references) :
      references = [] := by
    refine List.eq_nil_iff_forall_not_mem.mpr ?_
    rintro ⟨label, columns⟩ member
    obtain ⟨key, owner, present, other, _, rfl, some⟩ := (reply_tableReferences listed).mp member
    obtain ⟨name, inside⟩ := List.exists_mem_of_ne_nil _ some
    obtain ⟨column, filtered, rfl⟩ := List.mem_map.mp inside
    obtain ⟨inColumns, reference⟩ := List.mem_filter.mp filtered
    cases alone key owner column present inColumns (by simpa using reference)
    cases keeps.known.symm.trans present
    simp at other
  refine ensures_deleteTable (fun found known => ?_) (fun _ refused => ?_)
    fun found known _ => ?_
  · cases keeps.known.symm.trans known
    rfl
  · exact absurd (congrArg Except.ok (nothing rfl)) (refused table keeps.known)
  cases keeps.known.symm.trans known
  have looped : (deleteRows table (contents.rows table.name)).Leaves refuses
      contents (Ends (fun _ (after : Contents) => Deleting contents table [] after)
        fun _ _ => ¬Forward table (contents.rows table.name)) := by
    refine ensures_each_rest (Deleting contents table) _ ?_ ?_
    · refine ⟨rfl, fun id row => ?_, fun _ => mem_rows.mp, keeps.nodup_rows, Iff.rfl,
        fun _ _ => rfl, fun _ => matched, fun _ _ _ _ _ listed => listed⟩
      exact ⟨fun stored => ⟨stored, mem_rows.mpr ⟨id, stored⟩⟩, And.left⟩
    · intro row rest (before : Contents) deleting
      obtain ⟨id, stored⟩ := deleting.inside row List.mem_cons_self
      have keyed := (keeps.keyed stored).1
      refine (reads_lift _).ensures_andThen (fun _ failed => ?_) fun key same => ?_
      · rw [answer_lift, keyed] at failed
        cases failed
      · rw [answer_lift, keyed] at same
        cases same
        exact deleting_delete unrefused keeps alone deleting keyed
  refine looped.andThen (fun _ _ ends => ends) fun _ (middle : Contents) deleting => ?_
  refine ensures_perform (fun fault refused => ?_) fun _ =>
    ⟨deleting.forward.mpr List.Pairwise.nil, middle, deleting, rfl⟩
  rw [unrefused] at refused
  cases refused

/-- Dropping a table that no other one refers to removes exactly that table, exactly if no row
refers to one before it and no key in an indexed table is NaN. -/
theorem deleteTable_drops_iff (unrefused : ∀ key, refuses key = none)
    (keeps : contents.Keeps table) (alone : contents.Alone table.name)
    (matched : contents.IndexedBy contents.relations) :
    (deleteTable table.name).Ensures KeyPrefix.covers refuses contents
      (Ends (fun _ (after : Contents) => contents.Dropped table.name after) fun _ _ => False) ↔
      Forward table (contents.rows table.name) ∧ Numbers contents table := by
  have ends := deleteTable_ends unrefused keeps alone matched
  constructor
  · intro drops
    obtain ⟨result, (after : Contents), ends, dropped⟩ := (ends.and drops).outcome
    cases result with
    | error fault => exact dropped.elim
    | ok _ =>
      obtain ⟨forward, middle, deleting, rfl⟩ := ends
      refine ⟨forward, fun filled id stored => ?_⟩
      by_contra number
      -- The entry that lists the row stays.
      obtain ⟨row, present⟩ := Option.ne_none_iff_exists'.mp stored
      obtain ⟨⟨position, column⟩, indexed⟩ := List.exists_mem_of_ne_nil _ filled
      obtain ⟨placed, marked⟩ := Table.mem_indexes.mp indexed
      have short : position < row.length := by
        rw [keeps.wide present]
        exact (List.getElem?_eq_some_iff.mp placed).1
      have listed := ((matched.lists keeps.known placed marked).mem_iff row[position] id).mpr
        ⟨row, present, List.getElem?_eq_getElem short⟩
      have still := deleting.sticks _ _ _ id (Bool.eq_true_of_not_eq_false number) listed
      have gone := dropped.gone (.index table.name column.name row[position]) rfl
      rw [Store.get_delete_of_ne _ (by simp)] at gone
      rw [Contents.entries, gone] at still
      cases still
  · rintro ⟨forward, numbers⟩
    refine ends.mono fun result (after : Contents) ends => ?_
    cases result with
    | error fault => exact absurd forward ends
    | ok _ =>
      obtain ⟨_, middle, deleting, rfl⟩ := ends
      have rows (id : Value) : middle.row table.name id = none := by
        cases stored : middle.row table.name id with
        | none => rfl
        | some row => cases ((deleting.left id row).mp stored).2
      refine ⟨fun key own => ?_, fun key other => ?_⟩
      · cases key with
        | table name =>
          cases own
          exact Store.get_delete_self _ _
        | row name id =>
          cases own
          exact (Store.get_delete_of_ne _ (by simp)).trans (rows id)
        | index name column value =>
          cases own
          rw [Store.get_delete_of_ne _ (by simp)]
          by_contra stored
          obtain ⟨found, position, owner, known, placed, rfl, marked⟩ :=
            (deleting.matched numbers).owned stored
          exact stored (((deleting.matched numbers).lists known placed marked).eq_none rows)
      · rw [Store.get_delete_of_ne _ (by rintro rfl; exact other rfl)]
        exact deleting.kept key other

/-- A table that refers to itself. -/
def itself : Table :=
  ⟨"self", [⟨"id", .integer, true, false, none, true, none, false⟩,
    ⟨"self_id", .integer, false, true, some .null, false, some "self", false⟩]⟩

/-- Two rows with their references. -/
def pair (first second : Value) : Contents :=
  Program.replayAll Store.replay ∅
    [.set (.table "self") itself, .set (.row "self" (.integer 1)) [.integer 1, first],
      .set (.row "self" (.integer 2)) [.integer 2, second]]

theorem pair_row {id : Value} (stored : (pair first second).row "self" id = some row) :
    id = .integer 1 ∧ row = [.integer 1, first] ∨ id = .integer 2 ∧ row = [.integer 2, second] := by
  obtain before | written := Store.get_replayAll_eq_some ∅ _ stored
  · cases before
  · simpa using written

theorem pair_table {table : Table} (stored : (pair first second).table name = some table) :
    name = "self" ∧ table = itself := by
  obtain before | written := Store.get_replayAll_eq_some ∅ _ stored
  · cases before
  · simpa using written

theorem pair_keeps (known : (pair first second).table "self" = some itself) :
    (pair first second).Keeps itself where
  known := known
  formed := ⟨by decide, by decide⟩
  wide stored := by
    obtain ⟨_, isRow⟩ | ⟨_, isRow⟩ := pair_row stored <;> simp [isRow, itself]
  keyed stored := by
    obtain ⟨isId, isRow⟩ | ⟨isId, isRow⟩ := pair_row stored <;> rw [isId, isRow] <;>
      exact ⟨rfl, by simp⟩

theorem pair_alone (first second : Value) : (pair first second).Alone itself.name :=
  fun _ _ _ stored _ _ => (pair_table stored).1

theorem pair_indexed (first second : Value) :
    (pair first second).IndexedBy (pair first second).relations where
  lists {name table position column} known placed marked := by
    simp only [Contents.relations] at known
    obtain ⟨_, isTable⟩ := pair_table known
    have member := Table.mem_indexes.mpr ⟨placed, marked⟩
    rw [isTable, show itself.indexes = [] by decide] at member
    cases member
  owned {name column value} stored := by
    obtain ⟨entry, found⟩ := Option.ne_none_iff_exists'.mp stored
    obtain before | written := Store.get_replayAll_eq_some ∅ _ found
    · cases before
    · simp at written

theorem deleteTable_drops_pair :
    (deleteTable itself.name).Ensures KeyPrefix.covers (fun _ => none) (pair (.integer 2) .null)
      (Ends (fun _ (after : Contents) => (pair (.integer 2) .null).Dropped itself.name after)
        fun _ _ => False) := by
  have keeps : (pair (.integer 2) .null).Keeps itself := pair_keeps (by decide +kernel)
  have drops := @deleteTable_drops_iff (pair (.integer 2) .null) (fun _ => none) itself
    (fun _ => rfl) keeps (pair_alone (.integer 2) .null) (pair_indexed (.integer 2) .null)
  rw [drops]
  refine ⟨?_, fun filled => absurd (show itself.indexes = [] by decide) filled⟩
  have rows : (pair (.integer 2) .null).rows itself.name =
      [[.integer 1, .integer 2], [.integer 2, .null]] := by decide +kernel
  rw [rows, Forward, List.pairwise_pair]
  rintro id keyed ⟨position, column, value, _, placed, reference, here, same, _⟩
  cases keyed
  match position with
  | 0 =>
    cases placed
    cases reference
  | 1 =>
    cases here
    cases same
  | position + 2 => cases placed

/-- A row refers to the one before it, and the table is not dropped. -/
theorem deleteTable_fails : (pair .null (.integer 1)).Keeps itself ∧
    (pair .null (.integer 1)).Alone itself.name ∧
    (pair .null (.integer 1)).IndexedBy (pair .null (.integer 1)).relations ∧
    (deleteTable itself.name).Ensures KeyPrefix.covers (fun _ => none) (pair .null (.integer 1))
      fun result _ => result =
        .error (.value "Primary key 1 is referenced by table self column self_id") := by
  refine ⟨pair_keeps (by decide +kernel), pair_alone _ _, pair_indexed _ _, ?_⟩
  unfold Ensures
  decide +kernel

end Kv

end Radb.Sql
