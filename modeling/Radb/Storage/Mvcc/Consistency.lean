import Radb.Storage.Mvcc.Programs
import Radb.Storage.Mvcc.Schedule

/-! # The multi-version store invariant

What holds of the engine and the transactions begun over it between any two
operations. The key clause is `Orderly.chain`: of two stored versions of one
key, the older one's transaction had ended before the newer one's began. It is
what makes looking at the latest version alone sufficient for conflict checks.
The write records are kept apart from it: they matter for rollbacks only, and an
interrupted operation may leave too few or too many of them.
-/

namespace Radb.Storage.Mvcc

open Foundation Foundation.Program

variable {st : TransactionState} {txn : Nat} {version : Version} {key : Bytes}
  {value : Option Bytes} {active : Finset Version} {next : Engine}

variable {transactions : List TransactionState}

namespace Database

/-- Transaction number `txn` is a read-write transaction with the given state. -/
def Owns (db : Database) (txn : Nat) (st : TransactionState) : Prop :=
  db.transactions[txn]? = some st ∧ st.readOnly = false

/-- How the versions and the active set of the engine fit the transactions. -/
structure Orderly (db : Database) : Prop where
  /-- Only transactions that began have ended. -/
  ended_lt : ∀ txn ∈ db.ended, txn < db.transactions.length
  /-- A version belongs to one read-write transaction. -/
  unique : ∀ {first second : Nat} {left right : TransactionState}, db.Owns first left →
    db.Owns second right → left.version = right.version → first = second
  /-- Writers have versions that were handed out. -/
  writer_lt : ∀ {txn : Nat} {st : TransactionState}, db.Owns txn st →
    st.version < db.engine.nextVersion
  /-- Every transaction runs at most at the next version. -/
  version_le : ∀ {txn : Nat} {st : TransactionState}, db.transactions[txn]? = some st →
    st.version ≤ db.engine.nextVersion
  /-- The active set holds the writers that have not ended. -/
  active_iff : ∀ version, db.engine.Active version ↔
    ∃ txn st, db.Owns txn st ∧ st.version = version ∧ txn ∉ db.ended
  /-- Snapshots of the active set hold past versions only. -/
  snapshot_lt : ∀ {txn : Nat} {st : TransactionState} {version : Version},
    db.transactions[txn]? = some st → version ∈ st.active → version < st.version
  /-- A past writer that is still active was active then. -/
  still_active : ∀ {txn : Nat} {st : TransactionState} {version : Version},
    db.transactions[txn]? = some st → db.engine.Active version → version < st.version →
      version ∈ st.active
  /-- A writer active at two moments was active in between. -/
  nested : ∀ {txn other : Nat} {st writer : TransactionState} {version : Version},
    db.transactions[txn]? = some st → db.Owns other writer → version ∈ st.active →
      version < writer.version → writer.version < st.version → version ∈ writer.active
  /-- Stored versions belong to writers. -/
  stored : ∀ {key : Bytes} {version : Version} {value : Option Bytes},
    Store.get db.engine (.version key version) = some value →
      ∃ txn st, db.Owns txn st ∧ st.version = version
  /-- Of two stored versions of a key, the older one's transaction has ended, and
  had done so when the newer one's began. -/
  chain : ∀ {key : Bytes} {older newer : Version} {first second : Option Bytes},
    Store.get db.engine (.version key older) = some first →
    Store.get db.engine (.version key newer) = some second → older < newer →
      ¬ db.engine.Active older ∧
        ∀ {txn : Nat} {st : TransactionState}, db.Owns txn st → st.version = newer →
          older ∉ st.active

/-- The invariant between operations. -/
structure Consistent (db : Database) : Prop extends Orderly db where
  /-- The write records are those of the active writers' stored versions. -/
  records : ∀ version key, Store.get db.engine (.txnWrite version key) = some () ↔
    db.engine.Active version ∧ ∃ value, Store.get db.engine (.version key version) = some value

theorem orderly_empty : Orderly empty := by
  have none (key : Key) : Store.get Database.empty.engine key = none := Store.get_empty key
  have unowned : ∀ txn st, ¬ Database.empty.Owns txn st := by
    rintro txn st ⟨found, _⟩
    simp [empty] at found
  constructor
  · intro txn ended
    simp [empty] at ended
  · intro first second left right owned
    exact (unowned _ _ owned).elim
  · intro txn st owned
    exact (unowned _ _ owned).elim
  · intro txn st found
    simp [empty] at found
  · intro version
    rw [Engine.Active, none]
    simp [unowned]
  · intro txn st version found
    simp [empty] at found
  · intro txn st version found
    simp [empty] at found
  · intro txn other st writer version found
    simp [empty] at found
  · intro key version value present
    simp [none] at present
  · intro key older newer first second present
    simp [none] at present

theorem consistent_empty : Consistent empty where
  toOrderly := orderly_empty
  records version key := by
    have none (key : Key) : Store.get Database.empty.engine key = none := Store.get_empty key
    simp [none]

/-- A transaction found after one more began was there before, or is that one. -/
theorem getElem?_snoc {found : TransactionState}
    (present : (transactions ++ [st])[txn]? = some found) :
    transactions[txn]? = some found ∨ txn = transactions.length ∧ found = st := by
  rcases Nat.lt_trichotomy txn transactions.length with below | same | above
  · rw [List.getElem?_append_left below] at present
    exact .inl present
  · subst same
    simp only [List.getElem?_concat_length, Option.some.injEq] at present
    exact .inr ⟨rfl, present.symm⟩
  · rw [List.getElem?_eq_none (by simp; omega)] at present
    cases present

theorem getElem?_snoc_of_some {found : TransactionState}
    (present : transactions[txn]? = some found) :
    (transactions ++ [st])[txn]? = some found := by
  obtain ⟨below, _⟩ := List.getElem?_eq_some_iff.mp present
  rw [List.getElem?_append_left below, present]

namespace Orderly

variable {db : Database} (orderly : db.Orderly)
include orderly

theorem active_lt (active : db.engine.Active version) :
    version < db.engine.nextVersion := by
  obtain ⟨txn, st, owned, rfl, _⟩ := (orderly.active_iff version).mp active
  exact orderly.writer_lt owned

theorem stored_lt (present : Store.get db.engine (.version key version) = some value) :
    version < db.engine.nextVersion := by
  obtain ⟨txn, st, owned, rfl⟩ := orderly.stored present
  exact orderly.writer_lt owned

/-- A read-only transaction that begins now keeps the order. -/
theorem beginReadOnly (members : ∀ version, version ∈ active ↔ db.engine.Active version) :
    Orderly ⟨db.engine, db.transactions ++ [⟨db.engine.nextVersion, true, active⟩],
      db.ended⟩ := by
  have owns (txn : Nat) (st : TransactionState) :
      Owns ⟨db.engine, db.transactions ++ [⟨db.engine.nextVersion, true, active⟩], db.ended⟩
        txn st ↔ db.Owns txn st := by
    constructor
    · rintro ⟨found, writable⟩
      rcases getElem?_snoc found with found | ⟨_, rfl⟩
      · exact ⟨found, writable⟩
      · cases writable
    · rintro ⟨found, writable⟩
      exact ⟨getElem?_snoc_of_some found, writable⟩
  constructor
  · intro txn ended
    rw [List.length_append]
    exact Nat.lt_add_right _ (orderly.ended_lt txn ended)
  · intro first second left right ownedLeft ownedRight
    rw [owns] at ownedLeft ownedRight
    exact orderly.unique ownedLeft ownedRight
  · intro txn st owned
    rw [owns] at owned
    exact orderly.writer_lt owned
  · intro txn st found
    rcases getElem?_snoc found with found | ⟨_, rfl⟩
    · exact orderly.version_le found
    · exact Nat.le_refl _
  · intro version
    simp only [owns]
    exact orderly.active_iff version
  · intro txn st version found member
    rcases getElem?_snoc found with found | ⟨_, rfl⟩
    · exact orderly.snapshot_lt found member
    · exact orderly.active_lt ((members version).mp member)
  · intro txn st version found isActive below
    rcases getElem?_snoc found with found | ⟨_, rfl⟩
    · exact orderly.still_active found isActive below
    · exact (members version).mpr isActive
  · intro txn other st writer version found owned member below above
    rw [owns] at owned
    rcases getElem?_snoc found with found | ⟨_, rfl⟩
    · exact orderly.nested found owned member below above
    · exact orderly.still_active owned.1 ((members version).mp member) below
  · intro key version value present
    simp only [owns]
    exact orderly.stored present
  · intro key older newer first second presentOlder presentNewer below
    simp only [owns]
    exact orderly.chain presentOlder presentNewer below

/-- A read-write transaction that begins now keeps the order. -/
theorem begin (members : ∀ version, version ∈ active ↔ db.engine.Active version)
    (advanced : next.nextVersion = db.engine.nextVersion + 1)
    (joined : ∀ version, next.Active version ↔
      version = db.engine.nextVersion ∨ db.engine.Active version)
    (versions : ∀ key version, Store.get next (.version key version) =
      Store.get db.engine (.version key version)) :
    Orderly ⟨next, db.transactions ++ [⟨db.engine.nextVersion, false, active⟩],
      db.ended⟩ := by
  have owns (txn : Nat) (st : TransactionState) :
      Owns ⟨next, db.transactions ++ [⟨db.engine.nextVersion, false, active⟩], db.ended⟩
        txn st ↔ db.Owns txn st ∨
          txn = db.transactions.length ∧ st = ⟨db.engine.nextVersion, false, active⟩ := by
    constructor
    · rintro ⟨found, writable⟩
      rcases getElem?_snoc found with found | new
      · exact .inl ⟨found, writable⟩
      · exact .inr new
    · rintro (⟨found, writable⟩ | ⟨rfl, rfl⟩)
      · exact ⟨getElem?_snoc_of_some found, writable⟩
      · exact ⟨List.getElem?_concat_length, rfl⟩
  constructor
  · intro txn ended
    rw [List.length_append]
    exact Nat.lt_add_right _ (orderly.ended_lt txn ended)
  · intro first second left right ownedLeft ownedRight same
    rw [owns] at ownedLeft ownedRight
    rcases ownedLeft with ownedLeft | ⟨rfl, rfl⟩ <;>
      rcases ownedRight with ownedRight | ⟨rfl, rfl⟩
    · exact orderly.unique ownedLeft ownedRight same
    · exact absurd same (orderly.writer_lt ownedLeft).ne
    · exact absurd same (orderly.writer_lt ownedRight).ne'
    · rfl
  · intro txn st owned
    rw [owns] at owned
    rw [advanced]
    rcases owned with owned | ⟨_, rfl⟩
    · exact Nat.lt_succ_of_lt (orderly.writer_lt owned)
    · exact Nat.lt_succ_self _
  · intro txn st found
    rw [advanced]
    rcases getElem?_snoc found with found | ⟨_, rfl⟩
    · exact Nat.le_succ_of_le (orderly.version_le found)
    · exact Nat.le_succ _
  · intro version
    rw [joined, orderly.active_iff]
    simp only [owns]
    constructor
    · rintro (rfl | ⟨txn, st, owned, same, running⟩)
      · refine ⟨_, _, .inr ⟨rfl, rfl⟩, rfl, ?_⟩
        intro ended
        exact Nat.lt_irrefl _ (orderly.ended_lt _ ended)
      · exact ⟨txn, st, .inl owned, same, running⟩
    · rintro ⟨txn, st, owned | ⟨rfl, rfl⟩, same, running⟩
      · exact .inr ⟨txn, st, owned, same, running⟩
      · exact .inl same.symm
  · intro txn st version found member
    rcases getElem?_snoc found with found | ⟨_, rfl⟩
    · exact orderly.snapshot_lt found member
    · exact orderly.active_lt ((members version).mp member)
  · intro txn st version found isActive below
    rw [joined] at isActive
    rcases getElem?_snoc found with found | ⟨_, rfl⟩
    · rcases isActive with rfl | isActive
      · exact absurd below (Nat.not_lt.mpr (orderly.version_le found))
      · exact orderly.still_active found isActive below
    · rcases isActive with rfl | isActive
      · exact absurd below (Nat.lt_irrefl _)
      · exact (members version).mpr isActive
  · intro txn other st writer version found owned member below above
    rw [owns] at owned
    rcases getElem?_snoc found with found | ⟨_, rfl⟩
    · rcases owned with owned | ⟨_, rfl⟩
      · exact orderly.nested found owned member below above
      · exact absurd above (Nat.not_lt.mpr (orderly.version_le found))
    · rcases owned with owned | ⟨_, rfl⟩
      · exact orderly.still_active owned.1 ((members version).mp member) below
      · exact absurd above (Nat.lt_irrefl _)
  · intro key version value present
    rw [versions] at present
    obtain ⟨txn, st, owned, same⟩ := orderly.stored present
    exact ⟨txn, st, (owns txn st).mpr (.inl owned), same⟩
  · intro key older newer first second presentOlder presentNewer below
    rw [versions] at presentOlder presentNewer
    obtain ⟨inactive, unseen⟩ := orderly.chain presentOlder presentNewer below
    refine ⟨?_, ?_⟩
    · rw [joined]
      rintro (rfl | isActive)
      · exact absurd (orderly.stored_lt presentOlder) (Nat.lt_irrefl _)
      · exact inactive isActive
    · intro txn st owned same
      rw [owns] at owned
      rcases owned with owned | ⟨_, rfl⟩
      · exact unseen owned same
      · subst same
        exact absurd (orderly.stored_lt presentNewer) (Nat.lt_irrefl _)

section

variable (owned : db.Owns txn st)

include owned

/-- An open read-write transaction is in the active set. -/
theorem active_of_owns (running : txn ∉ db.ended) : db.engine.Active st.version :=
  (orderly.active_iff st.version).mpr ⟨txn, st, owned, rfl, running⟩

/-- A read-write transaction that has ended is not in the active set. -/
theorem not_active_of_ended (ended : txn ∈ db.ended) : ¬ db.engine.Active st.version := by
  intro active
  obtain ⟨other, writer, ownedOther, same, running⟩ := (orderly.active_iff _).mp active
  exact running (orderly.unique ownedOther owned same ▸ ended)

/-- If the latest stored version of a key from the conflict floor on is visible
to a read-write transaction, then all its stored versions are. -/
theorem visible_of_latest (bounded : db.engine.nextVersion ≤ versionMax)
    (latest : ∀ version stored, Transaction.conflictFloor st ≤ version → version ≤ versionMax →
      Store.get db.engine (.version key version) = some stored →
        ∃ latest value, version ≤ latest ∧ st.isVisible latest = true ∧
          Store.get db.engine (.version key latest) = some value) {stored : Option Bytes}
    (present : Store.get db.engine (.version key version) = some stored) :
    version ∉ st.active ∧ version ≤ st.version := by
  by_cases above : Transaction.conflictFloor st ≤ version
  · obtain ⟨top, value, below, visible, topPresent⟩ := latest version stored above
      (Nat.le_trans (orderly.stored_lt present).le bounded) present
    have topSeen : top ∉ st.active ∧ top ≤ st.version := by
      simpa [TransactionState.isVisible, owned.2] using visible
    rcases Nat.eq_or_lt_of_le below with rfl | older
    · exact topSeen
    · refine ⟨?_, Nat.le_trans below topSeen.2⟩
      intro member
      obtain ⟨_, unseen⟩ := orderly.chain present topPresent older
      -- The owner of the visible version began after `version` ended, so a
      -- transaction at or after it cannot have seen `version` active.
      rcases Nat.eq_or_lt_of_le topSeen.2 with same | before
      · exact unseen owned same.symm member
      · obtain ⟨other, writer, ownedTop, rfl⟩ := orderly.stored topPresent
        exact unseen ownedTop rfl (orderly.nested owned.1 ownedTop member older before)
  · rw [Nat.not_le, Transaction.conflictFloor] at above
    rcases st.active.eq_empty_or_nonempty with empty | nonempty
    · rw [empty] at above ⊢
      exact ⟨Finset.notMem_empty _, Nat.le_of_lt_succ (by simpa using above)⟩
    · obtain ⟨least, minimal⟩ := Finset.min_of_nonempty nonempty
      rw [minimal] at above
      refine ⟨?_, ?_⟩
      · intro member
        exact absurd (Finset.min_le_of_eq member minimal) (Nat.not_le.mpr above)
      · exact Nat.le_of_lt (Nat.lt_trans above
          (orderly.snapshot_lt owned.1 (Finset.mem_of_min minimal)))

/-- Writing a version none of whose predecessors is hidden keeps the order. -/
theorem write (running : txn ∉ db.ended)
    (visible : ∀ version stored, Store.get db.engine (.version key version) = some stored →
      version ∉ st.active ∧ version ≤ st.version) :
    Orderly { db with
      engine := replayAll Store.replay db.engine (Transaction.versionWrites st key value) } := by
  have next : Engine.nextVersion
      (replayAll Store.replay db.engine (Transaction.versionWrites st key value)) =
        db.engine.nextVersion := by
    rw [Engine.nextVersion, Transaction.get_written_of_ne _ _ _ _ (by simp) (by simp),
      Engine.nextVersion]
  have versions {user : Bytes} {version : Version} {stored : Option Bytes}
      (present : Store.get (replayAll Store.replay db.engine
        (Transaction.versionWrites st key value)) (.version user version) = some stored) :
      user = key ∧ version = st.version ∨
        Store.get db.engine (.version user version) = some stored := by
    by_cases same : user = key ∧ version = st.version
    · exact .inl same
    · rw [Transaction.get_written_of_ne _ _ _ _ (by simp) (by simpa using same)] at present
      exact .inr present
  constructor
  · exact orderly.ended_lt
  · exact orderly.unique
  · intro other writer ownedOther
    rw [next]
    exact orderly.writer_lt ownedOther
  · intro other reader found
    rw [next]
    exact orderly.version_le found
  · intro version
    rw [Transaction.active_written]
    exact orderly.active_iff version
  · exact orderly.snapshot_lt
  · intro other reader version found isActive below
    rw [Transaction.active_written] at isActive
    exact orderly.still_active found isActive below
  · exact orderly.nested
  · intro user version stored present
    rcases versions present with ⟨_, rfl⟩ | present
    · exact ⟨txn, st, owned, rfl⟩
    · exact orderly.stored present
  · intro user older newer first second presentOlder presentNewer below
    rw [Transaction.active_written]
    rcases versions presentNewer with ⟨rfl, rfl⟩ | newerBefore
    · rcases versions presentOlder with ⟨_, rfl⟩ | olderBefore
      · exact absurd below (Nat.lt_irrefl _)
      · obtain ⟨unseen, _⟩ := visible older first olderBefore
        refine ⟨fun isActive => unseen (orderly.still_active owned.1 isActive below), ?_⟩
        intro other writer ownedOther same
        have sameTxn : other = txn := orderly.unique ownedOther owned same
        have sameState : writer = st := by
          have found := ownedOther.1
          rw [sameTxn] at found
          exact Option.some.inj (found.symm.trans owned.1)
        rw [sameState]
        exact unseen
    · rcases versions presentOlder with ⟨rfl, rfl⟩ | olderBefore
      · exact absurd below (Nat.not_lt.mpr (visible newer second newerBefore).2)
      · exact orderly.chain olderBefore newerBefore below

/-- A read-write transaction that leaves the active set, and possibly takes its
versions with it, keeps the order. -/
theorem finish (same : next.nextVersion = db.engine.nextVersion)
    (left : ∀ version, next.Active version ↔
      db.engine.Active version ∧ version ≠ st.version)
    (versions : ∀ {key version value}, Store.get next (.version key version) = some value →
      Store.get db.engine (.version key version) = some value) :
    Orderly ⟨next, db.transactions, insert txn db.ended⟩ := by
  constructor
  · intro other ended
    rcases Finset.mem_insert.mp ended with rfl | ended
    · exact (List.getElem?_eq_some_iff.mp owned.1).1
    · exact orderly.ended_lt other ended
  · exact orderly.unique
  · intro other writer ownedOther
    rw [same]
    exact orderly.writer_lt ownedOther
  · intro other reader found
    rw [same]
    exact orderly.version_le found
  · intro version
    rw [left, orderly.active_iff]
    constructor
    · rintro ⟨⟨other, writer, ownedOther, rfl, running⟩, different⟩
      refine ⟨other, writer, ownedOther, rfl, ?_⟩
      rintro ended
      rcases Finset.mem_insert.mp ended with rfl | ended
      · exact different (congrArg _ (Option.some.inj (ownedOther.1.symm.trans owned.1)))
      · exact running ended
    · rintro ⟨other, writer, ownedOther, rfl, running⟩
      rw [Finset.mem_insert, not_or] at running
      exact ⟨⟨other, writer, ownedOther, rfl, running.2⟩, fun equal =>
        running.1 (orderly.unique ownedOther owned equal)⟩
  · exact orderly.snapshot_lt
  · intro other reader version found isActive below
    exact orderly.still_active found ((left version).mp isActive).1 below
  · exact orderly.nested
  · intro key version value present
    exact orderly.stored (versions present)
  · intro key older newer first second presentOlder presentNewer below
    obtain ⟨inactive, unseen⟩ :=
      orderly.chain (versions presentOlder) (versions presentNewer) below
    exact ⟨fun isActive => inactive ((left older).mp isActive).1, unseen⟩

end

/-- Ending a read-only transaction keeps the order. -/
theorem finishReadOnly (found : db.transactions[txn]? = some st) (readOnly : st.readOnly = true) :
    Orderly { db with ended := insert txn db.ended } := by
  constructor
  · intro other ended
    rcases Finset.mem_insert.mp ended with rfl | ended
    · exact (List.getElem?_eq_some_iff.mp found).1
    · exact orderly.ended_lt other ended
  · exact orderly.unique
  · exact orderly.writer_lt
  · exact orderly.version_le
  · intro version
    rw [orderly.active_iff]
    have writable {other : Nat} {writer : TransactionState} (owned : db.Owns other writer) :
        other ≠ txn := by
      rintro rfl
      rw [Option.some.inj (owned.1.symm.trans found)] at owned
      exact Bool.false_ne_true (owned.2.symm.trans readOnly)
    constructor
    · rintro ⟨other, writer, owned, same, running⟩
      exact ⟨other, writer, owned, same, by simp [writable owned, running]⟩
    · rintro ⟨other, writer, owned, same, running⟩
      exact ⟨other, writer, owned, same, fun ended => running (Finset.mem_insert_of_mem ended)⟩
  · exact orderly.snapshot_lt
  · exact orderly.still_active
  · exact orderly.nested
  · exact orderly.stored
  · exact orderly.chain

end Orderly

namespace Consistent

variable {db : Database} (consistent : db.Consistent)
include consistent

theorem logged (active : db.engine.Active version) :
    db.engine.Logged version := fun key stored present =>
  (consistent.records version key).mpr ⟨active, stored, present⟩

/-- A read-only transaction that begins now keeps the invariant. -/
theorem beginReadOnly (members : ∀ version, version ∈ active ↔ db.engine.Active version) :
    Consistent ⟨db.engine, db.transactions ++ [⟨db.engine.nextVersion, true, active⟩],
      db.ended⟩ where
  toOrderly := consistent.toOrderly.beginReadOnly members
  records := consistent.records

/-- A read-write transaction that begins now keeps the invariant. -/
theorem begin (members : ∀ version, version ∈ active ↔ db.engine.Active version)
    (advanced : next.nextVersion = db.engine.nextVersion + 1)
    (joined : ∀ version, next.Active version ↔
      version = db.engine.nextVersion ∨ db.engine.Active version)
    (versions : ∀ key version, Store.get next (.version key version) =
      Store.get db.engine (.version key version))
    (recorded : ∀ version key, Store.get next (.txnWrite version key) =
      Store.get db.engine (.txnWrite version key)) :
    Consistent ⟨next, db.transactions ++ [⟨db.engine.nextVersion, false, active⟩],
      db.ended⟩ where
  toOrderly := consistent.toOrderly.begin members advanced joined versions
  records version key := by
    rw [recorded, joined, versions, consistent.records]
    constructor
    · rintro ⟨isActive, stored⟩
      exact ⟨.inr isActive, stored⟩
    · rintro ⟨rfl | isActive, value, present⟩
      · exact absurd (consistent.stored_lt present) (Nat.lt_irrefl _)
      · exact ⟨isActive, value, present⟩

/-- Writing a version none of whose predecessors is hidden keeps the invariant. -/
theorem write (owned : db.Owns txn st) (running : txn ∉ db.ended)
    (visible : ∀ version stored, Store.get db.engine (.version key version) = some stored →
      version ∉ st.active ∧ version ≤ st.version) :
    Consistent { db with
      engine := replayAll Store.replay db.engine (Transaction.versionWrites st key value) } where
  toOrderly := consistent.toOrderly.write owned running visible
  records version user := by
    rw [Transaction.active_written]
    by_cases same : user = key ∧ version = st.version
    · obtain ⟨rfl, rfl⟩ := same
      rw [Transaction.get_written_record, Transaction.get_written_self]
      exact ⟨fun _ => ⟨consistent.active_of_owns owned running, value, rfl⟩, fun _ => rfl⟩
    · have different : ¬ (version = st.version ∧ user = key) := fun ⟨first, second⟩ =>
        same ⟨second, first⟩
      rw [Transaction.get_written_of_ne _ _ _ _ (by simpa using different) (by simp),
        Transaction.get_written_of_ne _ _ _ _ (by simp) (by simpa using same)]
      exact consistent.records version user

/-- A read-write transaction that leaves the active set and takes its write
records with it, and possibly its versions too, keeps the invariant. -/
theorem finish (owned : db.Owns txn st) (same : next.nextVersion = db.engine.nextVersion)
    (left : ∀ version, next.Active version ↔
      db.engine.Active version ∧ version ≠ st.version)
    (records : ∀ version key, Store.get next (.txnWrite version key) = some () ↔
      Store.get db.engine (.txnWrite version key) = some () ∧ version ≠ st.version)
    (versions : ∀ {key version value}, Store.get next (.version key version) = some value →
      Store.get db.engine (.version key version) = some value)
    (others : ∀ {key version}, version ≠ st.version → Store.get next (.version key version) =
      Store.get db.engine (.version key version)) :
    Consistent ⟨next, db.transactions, insert txn db.ended⟩ where
  toOrderly := consistent.toOrderly.finish owned same left versions
  records version key := by
    rw [records, left, consistent.records]
    constructor
    · rintro ⟨⟨isActive, value, present⟩, different⟩
      exact ⟨⟨isActive, different⟩, value, (others different).trans present⟩
    · rintro ⟨⟨isActive, different⟩, value, present⟩
      exact ⟨⟨isActive, value, versions present⟩, different⟩

/-- Ending a read-only transaction keeps the invariant. -/
theorem finishReadOnly (found : db.transactions[txn]? = some st) (readOnly : st.readOnly = true) :
    Consistent { db with ended := insert txn db.ended } where
  toOrderly := consistent.toOrderly.finishReadOnly found readOnly
  records := consistent.records

end Consistent

end Database

end Radb.Storage.Mvcc
