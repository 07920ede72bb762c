import Mathlib
import Radb.Sql.Schema
import Radb.Sql.Types.Expression

/-! # Relations

What an SQL database is about, apart from how it is stored: tables, and rows by their
primary key. The declared constraints are properties of relations. They are kept by
four steps: a row is put, a row is dropped, a table is created, a table is removed.
-/

namespace Radb.Sql

variable {table : Table} {row : Row} {id first second : Value} {name : String}
  {relations : Relations}

/-- The tables of a database and their rows. -/
@[ext] structure Relations where
  table : String → Option Table
  row : String → Value → Option Row

/-- A value has the column's datatype, or is NULL in a nullable column. -/
def Column.Accepts (column : Column) (value : Value) : Prop :=
  value.datatype = some column.datatype ∨ value = .null ∧ column.nullable = true

/-- A row has one value for each column, which accepts it. -/
def Table.Fits (table : Table) (row : Row) : Prop :=
  row.length = table.columns.length ∧
    ∀ (position : Nat) (column : Column) (value : Value),
      table.columns[position]? = some column → row[position]? = some value → column.Accepts value

/-- Columns are told apart by their names, and one of them is the primary key. -/
structure Table.WellFormed (table : Table) : Prop where
  distinct : (table.columns.map Column.name).Nodup
  single : table.columns.countP Column.primaryKey = 1

/-- The only element with a property is the first one. -/
theorem findIdx?_of_countP {Item : Type} {property : Item → Bool} {items : List Item}
    {position : Nat} {item : Item} (single : items.countP property = 1)
    (placed : items[position]? = some item) (holds : property item = true) :
    items.findIdx? property = some position := by
  induction items generalizing position with
  | nil => cases placed
  | cons first rest ih =>
    rw [List.countP_cons] at single
    cases position with
    | zero =>
      cases placed
      simp [List.findIdx?_cons, holds]
    | succ position =>
      rw [List.getElem?_cons_succ] at placed
      have counted : 0 < rest.countP property :=
        List.countP_pos_iff.mpr ⟨item, List.mem_of_getElem? placed, holds⟩
      cases other : property first with
      | true =>
        rw [if_pos other] at single
        omega
      | false =>
        simp only [other, Bool.false_eq_true, if_false, Nat.add_zero] at single
        simp [List.findIdx?_cons, other, ih single placed]

/-- The primary key of a row is its value in a primary key column. -/
theorem Table.getRowKey_eq_ok (key : table.getRowKey row = .ok id) :
    ∃ (position : Nat) (column : Column), table.columns[position]? = some column ∧
      table.columns.findIdx? (fun other => other.primaryKey) = some position ∧
      column.primaryKey = true ∧ row[position]? = some id := by
  unfold Table.getRowKey at key
  split at key
  · cases key
  · next position found =>
    split at key
    · next value present =>
      cases key
      obtain ⟨bound, marked, _⟩ := List.findIdx?_eq_some_iff_getElem.mp found
      exact ⟨position, _, List.getElem?_eq_getElem bound, found, marked, present⟩
    · cases key

theorem Table.getRowKey_of_position {position : Nat} {value : Value}
    (primary : table.columns.findIdx? (fun column => column.primaryKey) = some position)
    (present : row[position]? = some value) : table.getRowKey row = .ok value := by
  simp only [Table.getRowKey, primary, present]

namespace Value

/-- Values of one datatype are equal in SQL exactly if they are equal. -/
theorem equal_iff {datatype : DataType} (left : first.datatype = some datatype)
    (right : second.datatype = some datatype) :
    first.equal second = .ok (.boolean true) ↔ first.equals second = true := by
  cases first <;> cases datatype <;> cases left <;> cases second <;> cases right <;>
    simp [equal, compare, equals]

/-- Values a column accepts that are equal in SQL are equal. -/
theorem equals_of_equal {column : Column} (left : column.Accepts first)
    (right : column.Accepts second) (same : first.equal second = .ok (.boolean true)) :
    first.equals second = true := by
  rcases left with left | ⟨rfl, _⟩
  · rcases right with right | ⟨rfl, _⟩
    · exact (equal_iff left right).mp same
    · cases first <;> simp [equal, compare] at same
  · cases second <;> simp [equal, compare] at same

/-- Equal values other than NULL are equal in SQL. -/
theorem equal_of_equals (same : first.equals second = true) (present : first ≠ .null) :
    first.equal second = .ok (.boolean true) := by
  have shared := datatype_eq_of_equals same
  cases known : first.datatype with
  | none => cases first <;> simp [datatype] at known present
  | some datatype => exact (equal_iff known (shared ▸ known)).mpr same

end Value

namespace Relations

/-- Put a table under its name, or remove it. -/
def setTable (relations : Relations) (name : String) (table : Option Table) : Relations :=
  { relations with table := Function.update relations.table name table }

/-- Put a row under its key, or remove it. -/
def setRow (relations : Relations) (name : String) (id : Value) (row : Option Row) : Relations :=
  { relations with
    row := Function.update relations.row name (Function.update (relations.row name) id row) }

@[simp] theorem setTable_row (relations : Relations) (name : String) (table : Option Table) :
    (relations.setTable name table).row = relations.row := rfl

@[simp] theorem setRow_table (relations : Relations) (name : String) (id : Value)
    (row : Option Row) : (relations.setRow name id row).table = relations.table := rfl

theorem setTable_table (relations : Relations) (name other : String) (table : Option Table) :
    (relations.setTable name table).table other =
      if other = name then table else relations.table other :=
  Function.update_apply _ _ _ _

theorem setRow_row (relations : Relations) (name other : String) (id key : Value)
    (row : Option Row) :
    (relations.setRow name id row).row other key =
      if other = name ∧ key = id then row else relations.row other key := by
  by_cases owner : other = name
  · subst owner
    simp only [setRow, Function.update_self, Function.update_apply, true_and]
  · simp only [setRow, Function.update_of_ne owner, owner, false_and, if_false]

theorem setRow_row_self (relations : Relations) (name : String) (id : Value) (row : Option Row) :
    (relations.setRow name id row).row name = Function.update (relations.row name) id row :=
  Function.update_self _ _ _

theorem setRow_row_of_ne (relations : Relations) {other : String} (id : Value) (row : Option Row)
    (different : other ≠ name) :
    (relations.setRow name id row).row other = relations.row other :=
  Function.update_of_ne different _ _

/-- Removing a row that is not there changes nothing. -/
theorem setRow_none_of_absent (absent : relations.row name id = none) :
    relations.setRow name id none = relations := by
  apply Relations.ext
  · rfl
  · funext other key
    rw [setRow_row]
    split
    · next same => rw [same.1, same.2, absent]
    · rfl

/-- The declared constraints: rows fit their table, no two rows of a table have equal
primary keys or equal values other than NULL in a unique column, and a reference other
than NULL and NaN is the primary key of an existing row of an existing table. Equality
is that of SQL. -/
structure Constraints (relations : Relations) : Prop where
  typed : ∀ {name id row}, relations.row name id = some row →
    ∃ table, relations.table name = some table ∧ table.Fits row
  keys : ∀ {name table first second one other key found},
    relations.table name = some table → relations.row name first = some one →
    relations.row name second = some other → first ≠ second →
    table.getRowKey one = .ok key → table.getRowKey other = .ok found →
    key.equal found ≠ .ok (.boolean true)
  unique : ∀ {name table first second one other value found} {position : Nat} {column : Column},
    relations.table name = some table → table.columns[position]? = some column →
    column.unique = true → relations.row name first = some one →
    relations.row name second = some other → first ≠ second → one[position]? = some value →
    other[position]? = some found → value ≠ .null → found ≠ .null →
    value.equal found ≠ .ok (.boolean true)
  references : ∀ {name table id row value target} {position : Nat} {column : Column},
    relations.table name = some table → table.columns[position]? = some column →
    column.references = some target → relations.row name id = some row →
    row[position]? = some value → value ≠ .null → value.isNaN = false →
    ∃ other key found primary, relations.table target = some other ∧
      relations.row target key = some found ∧ other.getRowKey found = .ok primary ∧
      value.equal primary = .ok (.boolean true)

/-- No other row of the table has the value of a row in a unique column. Primary keys
are left out: they are told apart by the keys of the rows. -/
def Unshared (relations : Relations) (table : Table) (id : Value) (row : Row) : Prop :=
  ∀ ⦃position : Nat⦄ ⦃column : Column⦄ ⦃value key other found⦄,
    table.columns[position]? = some column → column.unique = true → column.primaryKey = false →
    row[position]? = some value → value ≠ .null → relations.row table.name key = some other →
    key ≠ id → other[position]? = some found → found.equals value = false

/-- Every reference of a row is the key of a row. -/
def Resolves (relations : Relations) (table : Table) (row : Row) : Prop :=
  ∀ ⦃position : Nat⦄ ⦃column : Column⦄ ⦃value target⦄,
    table.columns[position]? = some column → column.references = some target →
    row[position]? = some value → value ≠ .null → value.isNaN = false →
    ∃ key found, relations.row target key = some found ∧ value.equals key = true

/-- The state of a database whose constraints were never violated: tables are stored
under their names and columns are told apart by theirs, referenced tables exist, and a
row is stored under its primary key, which is not negative zero. -/
structure Sound (relations : Relations) : Prop where
  named : ∀ {name table}, relations.table name = some table → table.name = name
  formed : ∀ {name table}, relations.table name = some table → table.WellFormed
  linked : ∀ {name table column target}, relations.table name = some table →
    column ∈ table.columns → column.references = some target →
    ∃ other, relations.table target = some other
  kept : ∀ {name id row}, relations.row name id = some row →
    ∃ table, relations.table name = some table ∧ table.Fits row ∧
      table.getRowKey row = .ok id ∧ id.isNegativeZero = false
  unique : ∀ {name table id row}, relations.table name = some table →
    relations.row name id = some row → relations.Unshared table id row
  referenced : ∀ {name table id row}, relations.table name = some table →
    relations.row name id = some row → relations.Resolves table row

/-- What a row of a sound database has to do with its table. -/
theorem Sound.row_of_table (sound : relations.Sound) (known : relations.table name = some table)
    (stored : relations.row name id = some row) :
    table.Fits row ∧ table.getRowKey row = .ok id ∧ id.isNegativeZero = false := by
  obtain ⟨found, present, fits, key, signed⟩ := sound.kept stored
  rw [known] at present
  cases present
  exact ⟨fits, key, signed⟩

/-- Different rows of a table have keys that are not equal in SQL. -/
theorem Sound.keys_differ (sound : relations.Sound) {one other : Row}
    (known : relations.table name = some table) (left : relations.row name first = some one)
    (right : relations.row name second = some other) (different : first ≠ second) :
    first.equal second ≠ .ok (.boolean true) := by
  intro same
  obtain ⟨leftFits, leftKey, leftSign⟩ := sound.row_of_table known left
  obtain ⟨rightFits, rightKey, rightSign⟩ := sound.row_of_table known right
  obtain ⟨position, column, at', first', _, here⟩ := Table.getRowKey_eq_ok leftKey
  obtain ⟨again, _, _, second', _, there⟩ := Table.getRowKey_eq_ok rightKey
  rw [first'] at second'
  cases second'
  have equals := Value.equals_of_equal (leftFits.2 _ _ _ at' here) (rightFits.2 _ _ _ at' there) same
  exact different (Value.eq_of_equals equals leftSign rightSign)

/-- A sound database satisfies the declared constraints. -/
theorem Sound.constraints (sound : relations.Sound) :
    relations.Constraints where
  typed stored := by
    obtain ⟨table, known, fits, _⟩ := sound.kept stored
    exact ⟨table, known, fits⟩
  keys known left right different leftKey rightKey := by
    have first := (sound.row_of_table known left).2.1
    have second := (sound.row_of_table known right).2.1
    rw [leftKey] at first
    rw [rightKey] at second
    cases first
    cases second
    exact sound.keys_differ known left right different
  unique := by
    intro name table first second one other value found position column known placed unique
      left right different here there present found' same
    obtain ⟨leftFits, leftKey, _⟩ := sound.row_of_table known left
    obtain ⟨rightFits, rightKey, _⟩ := sound.row_of_table known right
    cases primary : column.primaryKey with
    | true =>
      have first' := findIdx?_of_countP (sound.formed known).single placed primary
      have leftValue := Table.getRowKey_of_position first' here
      have rightValue := Table.getRowKey_of_position first' there
      rw [leftKey] at leftValue
      rw [rightKey] at rightValue
      cases leftValue
      cases rightValue
      exact sound.keys_differ known left right different same
    | false =>
      have equals := Value.equals_of_equal (leftFits.2 _ _ _ placed here)
        (rightFits.2 _ _ _ placed there) same
      rw [Value.equals_comm] at equals
      have apart := sound.unique known left placed unique primary here present
        ((sound.named known).symm ▸ right) different.symm there
      exact Bool.false_ne_true (apart.symm.trans equals)
  references := by
    intro name table id row value target position column known placed reference stored here
      present number
    obtain ⟨key, found, there, same⟩ := sound.referenced known stored placed reference here present
      number
    obtain ⟨other, existing, _, primary, _⟩ := sound.kept there
    exact ⟨other, key, found, key, existing, there, primary, Value.equal_of_equals same present⟩

/-- No row refers to the given key of a table, except that the row with an equal key may
refer to itself. -/
def Unreferenced (relations : Relations) (name : String) (id : Value) : Prop :=
  ∀ ⦃other table key row value⦄ ⦃position : Nat⦄ ⦃column : Column⦄,
    relations.table other = some table → table.columns[position]? = some column →
    column.references = some name → relations.row other key = some row →
    row[position]? = some value → value.equals id = true → other = name ∧ id.equals key = true

/-- The steps that keep the constraints. -/
inductive Step (relations : Relations) : Relations → Prop where
  | put {table : Table} {id : Value} {row : Row}
      (known : relations.table table.name = some table) (fits : table.Fits row)
      (key : table.getRowKey row = .ok id) (signed : id.isNegativeZero = false)
      (unshared : relations.Unshared table id row)
      (resolves : (relations.setRow table.name id (some row)).Resolves table row) :
      Step relations (relations.setRow table.name id (some row))
  | drop {name : String} {id : Value} (unreferenced : relations.Unreferenced name id) :
      Step relations (relations.setRow name id none)
  | create {table : Table} (fresh : relations.table table.name = none)
      (formed : table.WellFormed)
      (linked : ∀ column ∈ table.columns, ∀ target, column.references = some target →
        target = table.name ∨ ∃ other, relations.table target = some other) :
      Step relations (relations.setTable table.name (some table))
  | remove {name : String} (empty : ∀ id, relations.row name id = none)
      (unreferenced : ∀ ⦃other table column⦄, relations.table other = some table →
        column ∈ table.columns → column.references = some name → other = name) :
      Step relations (relations.setTable name none)

namespace Sound

variable {relations : Relations}

section

variable (sound : relations.Sound)

include sound

theorem put (known : relations.table table.name = some table) (fits : table.Fits row)
    (key : table.getRowKey row = .ok id) (signed : id.isNegativeZero = false)
    (unshared : relations.Unshared table id row)
    (resolves : (relations.setRow table.name id (some row)).Resolves table row) :
    (relations.setRow table.name id (some row)).Sound where
  named := sound.named
  formed := sound.formed
  linked := sound.linked
  kept := by
    intro name other found stored
    rw [setRow_row] at stored
    split at stored
    · next same =>
      obtain ⟨rfl, rfl⟩ := same
      cases stored
      exact ⟨table, known, fits, key, signed⟩
    · exact sound.kept stored
  unique := by
    intro name owner first one present stored position column value second other found placed
      unique primary here null there different located
    rw [setRow_row] at stored there
    split at stored
    · -- the row that was put, against an older one
      next same =>
      obtain ⟨rfl, rfl⟩ := same
      cases stored
      cases known.symm.trans present
      rw [if_neg (fun same => different same.2)] at there
      exact unshared placed unique primary here null there different located
    · split at there
      · -- an older row, against the one that was put
        next same =>
        obtain ⟨owned, rfl⟩ := same
        cases there
        obtain rfl := (sound.named present).symm.trans owned
        cases known.symm.trans present
        by_cases missing : found = .null
        · subst missing
          cases value with
          | null => exact absurd rfl null
          | _ => rfl
        · rw [Value.equals_comm]
          exact unshared placed unique primary located missing stored different.symm here
      · exact sound.unique present stored placed unique primary here null there different located
  referenced := by
    intro name owner other found present stored
    rw [setRow_row] at stored
    split at stored
    · next same =>
      obtain ⟨rfl, rfl⟩ := same
      cases stored
      cases known.symm.trans present
      exact resolves
    · intro position column value target placed reference here null number
      obtain ⟨key', row', there, same⟩ :=
        sound.referenced present stored placed reference here null number
      by_cases replaced : target = table.name ∧ key' = id
      · exact ⟨key', row, by rw [setRow_row, if_pos replaced], same⟩
      · exact ⟨key', row', by rw [setRow_row, if_neg replaced, there], same⟩

theorem drop (unreferenced : relations.Unreferenced name id) :
    (relations.setRow name id none).Sound where
  named := sound.named
  formed := sound.formed
  linked := sound.linked
  kept := by
    intro owner other found stored
    rw [setRow_row] at stored
    split at stored
    · cases stored
    · exact sound.kept stored
  unique := by
    intro owner table first one present stored position column value second other found placed
      unique primary here null there different located
    rw [setRow_row] at stored there
    split at stored
    · cases stored
    · split at there
      · cases there
      · exact sound.unique present stored placed unique primary here null there different located
  referenced := by
    intro owner table first one present stored position column value target placed reference here
      null number
    rw [setRow_row] at stored
    split at stored
    · cases stored
    · next survives =>
      obtain ⟨key, found, there, same⟩ :=
        sound.referenced present stored placed reference here null number
      refine ⟨key, found, ?_, same⟩
      rw [setRow_row, if_neg ?_, there]
      -- only the dropped row itself may have referred to the dropped row
      intro dropped
      obtain ⟨rfl, rfl⟩ := dropped
      obtain ⟨own, equal⟩ := unreferenced present placed reference stored here same
      obtain ⟨_, _, _, _, first'⟩ := sound.kept stored
      obtain ⟨_, _, _, _, second'⟩ := sound.kept there
      exact survives ⟨own, (Value.eq_of_equals equal second' first').symm⟩

theorem create (fresh : relations.table table.name = none) (formed : table.WellFormed)
    (linked : ∀ column ∈ table.columns, ∀ target, column.references = some target →
      target = table.name ∨ ∃ other, relations.table target = some other) :
    (relations.setTable table.name (some table)).Sound := by
  have existing : ∀ {name other}, relations.table name = some other →
      (relations.setTable table.name (some table)).table name = some other := by
    intro name other present
    rw [setTable_table, if_neg ?_, present]
    rintro rfl
    rw [fresh] at present
    cases present
  -- a row belongs to an older table
  have older : ∀ {name other id row},
      (relations.setTable table.name (some table)).table name = some other →
      relations.row name id = some row → relations.table name = some other := by
    intro name other id row present stored
    obtain ⟨owner, known, _⟩ := sound.kept stored
    exact known.trans ((existing known).symm.trans present)
  refine ⟨?_, ?_, ?_, ?_, ?_, ?_⟩
  · intro name other present
    rw [setTable_table] at present
    split at present
    · next same =>
      cases present
      exact same.symm
    · exact sound.named present
  · intro name other present
    rw [setTable_table] at present
    split at present
    · cases present
      exact formed
    · exact sound.formed present
  · intro name other column target present member reference
    rw [setTable_table] at present
    split at present
    · cases present
      rcases linked column member target reference with rfl | ⟨owner, known⟩
      · exact ⟨table, by rw [setTable_table, if_pos rfl]⟩
      · exact ⟨owner, existing known⟩
    · obtain ⟨owner, known⟩ := sound.linked present member reference
      exact ⟨owner, existing known⟩
  · intro name id row stored
    obtain ⟨owner, known, rest⟩ := sound.kept stored
    exact ⟨owner, existing known, rest⟩
  · intro name owner id row present stored
    exact sound.unique (older present stored) stored
  · intro name owner id row present stored
    exact sound.referenced (older present stored) stored

theorem remove (empty : ∀ id, relations.row name id = none)
    (unreferenced : ∀ ⦃other table column⦄, relations.table other = some table →
      column ∈ table.columns → column.references = some name → other = name) :
    (relations.setTable name none).Sound := by
  have present : ∀ {other table}, (relations.setTable name none).table other = some table →
      other ≠ name ∧ relations.table other = some table := by
    intro other table found
    rw [setTable_table] at found
    split at found
    · cases found
    · next different => exact ⟨different, found⟩
  have kept : ∀ {other table}, other ≠ name → relations.table other = some table →
      (relations.setTable name none).table other = some table := by
    intro other table different found
    rw [setTable_table, if_neg different, found]
  refine ⟨fun found => sound.named (present found).2, fun found => sound.formed (present found).2,
    ?_, ?_, fun found => sound.unique (present found).2, fun found => sound.referenced (present found).2⟩
  · intro other table column target found member reference
    obtain ⟨different, known⟩ := present found
    obtain ⟨owner, existing⟩ := sound.linked known member reference
    refine ⟨owner, kept ?_ existing⟩
    rintro rfl
    exact different (unreferenced known member reference)
  · intro other id row stored
    obtain ⟨owner, known, rest⟩ := sound.kept stored
    refine ⟨owner, kept ?_ known, rest⟩
    rintro rfl
    rw [setTable_row, empty] at stored
    cases stored

/-- Every step keeps a database sound. -/
theorem step {next : Relations} (step : relations.Step next) : next.Sound := by
  cases step with
  | put known fits key signed unshared resolves =>
    exact sound.put known fits key signed unshared resolves
  | drop unreferenced => exact sound.drop unreferenced
  | create fresh formed linked => exact sound.create fresh formed linked
  | remove empty unreferenced => exact sound.remove empty unreferenced

theorem steps {next : Relations} (steps : Relation.ReflTransGen Step relations next) :
    next.Sound := by
  induction steps with
  | refl => exact sound
  | tail _ last ih => exact ih.step last

end

/-- A database without tables is sound. -/
theorem empty : Sound ⟨fun _ => none, fun _ _ => none⟩ :=
  ⟨nofun, nofun, nofun, nofun, nofun, nofun⟩

end Sound

end Relations

end Radb.Sql
