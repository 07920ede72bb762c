import Radb.Foundation.SnapshotStore
import Radb.Storage.Mvcc.Transition

/-! # The multi-version store is a snapshot-isolated store

The engine keeps no committed map. Every run of interleaved transactions is
nevertheless explained, event by event, by an abstract store that does.
-/

namespace Radb.Storage.Mvcc

open Foundation Foundation.Program

variable {txn other : Nat} {st : TransactionState} {snapshot : Snapshot Bytes Bytes} {key : Bytes}
  {next : Engine}
  {value : Option Bytes} {reader : TransactionState} {event : Event}

/-- The abstract store of byte strings. -/
abbrev Isolated := SnapshotStore Bytes Bytes

/-- What the abstract store allows an operation to return, and where it leads. -/
inductive Explains (store : Isolated) : Event → Isolated → Prop where
  | begin {st : TransactionState} : Explains store (.begin, .ok (.transaction st)) store.begin
  | beginReadOnly {st : TransactionState} :
      Explains store (.beginReadOnly, .ok (.transaction st)) store.begin
  | resume {txn : Nat} {st : TransactionState} {snapshot : Snapshot Bytes Bytes}
      (found : store.transactions[txn]? = some snapshot) :
      Explains store (.resume txn, .ok (.transaction st)) store
  /-- Only a transaction that has ended cannot be resumed. -/
  | resumeRefused {txn : Nat} {error : Error} {snapshot : Snapshot Bytes Bytes}
      (found : store.transactions[txn]? = some snapshot) (dead : snapshot.live = false) :
      Explains store (.resume txn, .error error) store
  | useRefused {txn : Nat} {command : Command} {error : Error} {snapshot : Snapshot Bytes Bytes}
      (found : store.transactions[txn]? = some snapshot) (dead : snapshot.live = false) :
      Explains store (.use txn .resumed command, .error error) store
  /-- A read returns the own latest write, or else the value at the beginning. -/
  | get {txn : Nat} {mode : Access} {key : Bytes} {snapshot : Snapshot Bytes Bytes}
      (found : store.transactions[txn]? = some snapshot) :
      Explains store (.use txn mode (.get key), .ok (.value (snapshot.read key))) store
  | write {txn : Nat} {mode : Access} {command : Command} {key : Bytes} {value : Option Bytes}
      {snapshot : Snapshot Bytes Bytes} (found : store.transactions[txn]? = some snapshot)
      (live : snapshot.live = true) (written : command.written = some (key, value)) :
      Explains store (.use txn mode command, .ok .done) (store.write txn key value)
  /-- A failed write changes nothing. -/
  | writeRefused {txn : Nat} {mode : Access} {command : Command} {key : Bytes}
      {value : Option Bytes} {error : Error} (written : command.written = some (key, value)) :
      Explains store (.use txn mode command, .error error) store
  /-- Only a live transaction publishes writes. -/
  | commit {txn : Nat} {mode : Access} {snapshot : Snapshot Bytes Bytes}
      (found : store.transactions[txn]? = some snapshot)
      (valid : snapshot.live = true ∨ ∀ key, snapshot.writes key = none) :
      Explains store (.use txn mode .commit, .ok .done) (store.commit txn)
  | rollback {txn : Nat} {mode : Access} {snapshot : Snapshot Bytes Bytes}
      (found : store.transactions[txn]? = some snapshot)
      (valid : snapshot.live = true ∨ ∀ key, snapshot.writes key = none) :
      Explains store (.use txn mode .rollback, .ok .done) (store.rollback txn)

/-- A whole run explained by the abstract store. -/
inductive Explained (start : Isolated) : List Event → Isolated → Prop where
  | nil : Explained start [] start
  | snoc {events : List Event} {mid last : Isolated} {event : Event}
      (before : Explained start events mid) (explains : Explains mid event last) :
      Explained start (events ++ [event]) last

/-- How one numbered transaction is represented in the engine. -/
structure Represents (db : Database) (txn : Nat) (st : TransactionState)
    (snapshot : Snapshot Bytes Bytes) : Prop where
  live : snapshot.live = true ↔ txn ∉ db.ended
  base : ∀ key, db.engine.Latest (fun version => version < st.version ∧ version ∉ st.active) key
    (snapshot.base key)
  writes : st.readOnly = false → txn ∉ db.ended → ∀ key,
    snapshot.writes key = Store.get db.engine (.version key st.version)
  readOnly : st.readOnly = true → ∀ key, snapshot.writes key = none

/-- The engine and the transactions represent an abstract store: the committed
map holds the latest version of each key that is not an active transaction's. -/
structure Refines (db : Database) (store : Isolated) : Prop where
  length : store.transactions.length = db.transactions.length
  committed : ∀ key, db.engine.Latest (fun version => ¬ db.engine.Active version) key
    (store.committed key)
  transactions : ∀ {txn : Nat} {st : TransactionState} {snapshot : Snapshot Bytes Bytes},
    db.transactions[txn]? = some st → store.transactions[txn]? = some snapshot →
      Represents db txn st snapshot

namespace Refines

theorem empty : Refines Database.empty SnapshotStore.empty where
  length := rfl
  committed := fun key => .inr ⟨by simp [Database.empty], rfl⟩
  transactions := by simp [Database.empty]

variable {db : Database} {store : Isolated} (refines : Refines db store)
  (orderly : db.Orderly)
include refines

theorem exists_snapshot (found : db.transactions[txn]? = some st) :
    ∃ snapshot, store.transactions[txn]? = some snapshot := by
  obtain ⟨below, _⟩ := List.getElem?_eq_some_iff.mp found
  exact ⟨_, List.getElem?_eq_getElem (refines.length ▸ below)⟩

include orderly

theorem read (usable : db.Usable txn st) (found : store.transactions[txn]? = some snapshot)
    (latest : db.engine.Latest (fun version => st.isVisible version = true) key value) :
    value = snapshot.read key := by
  have represents := refines.transactions usable.1 found
  have base := represents.base key
  cases readOnly : st.readOnly with
  | true =>
    rw [Snapshot.read, represents.readOnly readOnly key, Option.getD_none]
    refine latest.unique (base.congr fun version stored => ?_)
    simp [TransactionState.isVisible, readOnly, and_comm]
  | false =>
    have running : txn ∉ db.ended := usable.2.resolve_left (by simp [readOnly])
    have visible (version : Version) :
        st.isVisible version = true ↔ version ∉ st.active ∧ version ≤ st.version := by
      simp [TransactionState.isVisible, readOnly]
    rw [Snapshot.read, represents.writes readOnly running key]
    cases own : Store.get db.engine (.version key st.version) with
    | some stored =>
      -- The own version is the highest visible one.
      refine latest.unique (.inl ⟨st.version, ?_, own, ?_⟩)
      · exact (visible _).mpr ⟨fun member =>
          Nat.lt_irrefl _ (orderly.snapshot_lt usable.1 member), Nat.le_refl _⟩
      · intro other _ seen _
        exact ((visible other).mp seen).2
    | none =>
      refine latest.unique (base.congr fun version stored => ?_)
      simp only [visible]
      constructor
      · rintro ⟨⟨below, unseen⟩, present⟩
        exact ⟨⟨unseen, below.le⟩, present⟩
      · rintro ⟨⟨unseen, below⟩, present⟩
        refine ⟨⟨lt_of_le_of_ne below ?_, unseen⟩, present⟩
        rintro rfl
        simp [own] at present

theorem begin (members : ∀ version, version ∈ st.active ↔ db.engine.Active version)
    (stamp : st.version = db.engine.nextVersion) (joined : ∀ version < db.engine.nextVersion,
      next.Active version ↔ db.engine.Active version)
    (versions : ∀ key version, Store.get next (.version key version) =
      Store.get db.engine (.version key version)) :
    Refines ⟨next, db.transactions ++ [st], db.ended⟩ store.begin where
  length := by simp [SnapshotStore.begin, refines.length]
  committed key := by
    refine (refines.committed key).congr fun version stored => ?_
    rw [versions, and_congr_left_iff]
    intro present
    rw [joined version (orderly.stored_lt present)]
  transactions := by
    intro txn found snapshot presentDb presentStore
    rcases Database.getElem?_snoc presentDb with presentDb | ⟨rfl, rfl⟩
    · obtain ⟨below, _⟩ := List.getElem?_eq_some_iff.mp presentDb
      rw [SnapshotStore.begin, List.getElem?_append_left (refines.length ▸ below)] at presentStore
      have represents := refines.transactions presentDb presentStore
      refine ⟨represents.live, ?_, ?_, represents.readOnly⟩
      · intro key
        exact (represents.base key).congr fun version stored => by rw [versions]
      · intro writable running key
        rw [versions]
        exact represents.writes writable running key
    · rw [SnapshotStore.begin, ← refines.length, List.getElem?_concat_length,
        Option.some.injEq] at presentStore
      subst presentStore
      refine ⟨?_, ?_, ?_, fun _ _ => rfl⟩
      · simp only [true_iff]
        exact fun ended => Nat.lt_irrefl _ (orderly.ended_lt _ ended)
      · intro key
        refine (refines.committed key).congr fun version stored => ?_
        rw [versions, and_congr_left_iff, stamp, members]
        intro present
        simp [orderly.stored_lt present]
      · intro _ _ key
        rw [versions, stamp]
        cases stored : Store.get db.engine (.version key db.engine.nextVersion) with
        | none => rfl
        | some value => exact absurd (orderly.stored_lt stored) (Nat.lt_irrefl _)

/-- What a change of one open read-write transaction's versions leaves alone: the
snapshot every transaction reads from. -/
theorem base_congr (key : Bytes) (owned : db.Owns txn st) (running : txn ∉ db.ended)
    (others : ∀ user version, version ≠ st.version → Store.get next (.version user version) =
      Store.get db.engine (.version user version)) (found : db.transactions[other]? = some reader)
    (present : store.transactions[other]? = some snapshot) :
    next.Latest (fun version => version < reader.version ∧ version ∉ reader.active) key
      (snapshot.base key) := by
  refine ((refines.transactions found present).base key).congr fun version stored => ?_
  rw [and_congr_right_iff]
  rintro ⟨below, unseen⟩
  rw [others]
  rintro rfl
  exact unseen (orderly.still_active found (orderly.active_of_owns owned running) below)

theorem version_ne {writer : TransactionState} (owned : db.Owns txn st)
    (ownedOther : db.Owns other writer) (different : other ≠ txn) :
    writer.version ≠ st.version := fun same =>
  different (orderly.unique ownedOther owned same)

theorem write (owned : db.Owns txn st) (running : txn ∉ db.ended) :
    Refines { db with
        engine := replayAll Store.replay db.engine (Transaction.versionWrites st key value) }
      (store.write txn key value) where
  length := by simp [SnapshotStore.write, refines.length]
  committed user := by
    refine (refines.committed user).congr fun version stored => ?_
    have active : Engine.Active
        (replayAll Store.replay db.engine (Transaction.versionWrites st key value)) version ↔
          db.engine.Active version := by
      rw [Engine.Active, Transaction.get_written_of_ne _ _ _ _ (by simp) (by simp), Engine.Active]
    rw [active, and_congr_right_iff]
    intro inactive
    rw [Transaction.get_written_of_ne _ _ _ _ (by simp)]
    rw [ne_eq, Key.version.injEq]
    rintro ⟨_, rfl⟩
    exact inactive (orderly.active_of_owns owned running)
  transactions := by
    intro other reader snapshot found present
    have others (user : Bytes) (version : Version) (different : version ≠ st.version) :
        Store.get (replayAll Store.replay db.engine (Transaction.versionWrites st key value))
          (.version user version) = Store.get db.engine (.version user version) :=
      Transaction.get_written_of_ne _ _ _ _ (by simp) (by simp [different])
    rw [SnapshotStore.write, List.getElem?_modify] at present
    obtain ⟨before, presentBefore, rfl⟩ := Option.map_eq_some_iff.mp present
    have represents := refines.transactions found presentBefore
    have base (user : Bytes) := refines.base_congr orderly user owned running others found
      presentBefore
    by_cases same : txn = other
    · subst same
      obtain rfl := Option.some.inj (found.symm.trans owned.1)
      simp only [↓reduceIte]
      refine ⟨represents.live, base, ?_, ?_⟩
      · intro _ _ user
        rw [Snapshot.write]
        by_cases sameKey : user = key
        · subst sameKey
          simp [Transaction.get_written_self]
        · rw [Transaction.get_written_of_ne _ _ _ _ (by simp) (by simp [sameKey])]
          simpa [sameKey] using represents.writes owned.2 running user
      · intro readOnly
        simp [owned.2] at readOnly
    · simp only [same, ↓reduceIte]
      refine ⟨represents.live, base, ?_, represents.readOnly⟩
      intro writable runningOther user
      rw [others user _ (refines.version_ne orderly owned ⟨found, writable⟩ (Ne.symm same))]
      exact represents.writes writable runningOther user

/-- What holds of every transaction after one of them ended, given that the engine
kept all versions but possibly those of the one that ended. -/
theorem represents_of_end (found : db.transactions[txn]? = some st)
    (others : ∀ user version, st.readOnly = true ∨ version ≠ st.version →
      Store.get next (.version user version) = Store.get db.engine (.version user version))
    (running : st.readOnly = true ∨ txn ∉ db.ended)
    (foundOther : db.transactions[other]? = some reader)
    (present : (store.transactions.modify txn Snapshot.finish)[other]? = some snapshot) :
    Represents ⟨next, db.transactions, insert txn db.ended⟩ other reader snapshot := by
  rw [List.getElem?_modify] at present
  obtain ⟨before, presentBefore, rfl⟩ := Option.map_eq_some_iff.mp present
  have represents := refines.transactions foundOther presentBefore
  have base (key : Bytes) : next.Latest
      (fun version => version < reader.version ∧ version ∉ reader.active) key
      (before.base key) := by
    cases readOnly : st.readOnly with
    | true =>
      exact (represents.base key).congr fun version stored => by
        rw [others key version (.inl readOnly)]
    | false =>
      exact refines.base_congr orderly key ⟨found, readOnly⟩
        (running.resolve_left (by simp [readOnly]))
        (fun user version different => others user version (.inr different)) foundOther
        presentBefore
  by_cases same : txn = other
  · subst same
    simp only [↓reduceIte]
    refine ⟨?_, base, ?_, represents.readOnly⟩
    · simp [Snapshot.finish]
    · intro _ runningSelf
      exact absurd (Finset.mem_insert_self _ _) runningSelf
  · simp only [same, ↓reduceIte]
    refine ⟨?_, base, ?_, represents.readOnly⟩
    · rw [represents.live]
      simp [Ne.symm same]
    · intro writable runningOther key
      rw [others key]
      · exact represents.writes writable
          (fun ended => runningOther (Finset.mem_insert_of_mem ended)) key
      · cases readOnly : st.readOnly with
        | true => exact .inl rfl
        | false =>
          exact .inr (refines.version_ne orderly ⟨found, readOnly⟩ ⟨foundOther, writable⟩
            (Ne.symm same))

theorem own_latest {version : Version} {own stored : Option Bytes} (owned : db.Owns txn st)
    (running : txn ∉ db.ended)
    (written : Store.get db.engine (.version key st.version) = some own)
    (present : Store.get db.engine (.version key version) = some stored) :
    version ≤ st.version := by
  by_contra above
  exact (orderly.chain written present (Nat.not_le.mp above)).1
    (orderly.active_of_owns owned running)

theorem commit (owned : db.Owns txn st) (running : txn ∉ db.ended)
    (removed : Store.Removes db.engine next fun key =>
      key = .txnActive st.version ∨ ∃ user, key = .txnWrite st.version user) :
    Refines ⟨next, db.transactions, insert txn db.ended⟩ (store.commit txn) := by
  have versions (key : Bytes) (version : Version) : Store.get next (.version key version) =
      Store.get db.engine (.version key version) := (removed _).2 (by simp)
  have left (version : Version) :
      next.Active version ↔ db.engine.Active version ∧ version ≠ st.version := by
    simp [Engine.Active, removed.get_eq_some]
  obtain ⟨snapshot, found⟩ := refines.exists_snapshot owned.1
  have represents := refines.transactions owned.1 found
  refine ⟨by simp [SnapshotStore.commit, refines.length], ?_, ?_⟩
  · intro key
    simp only [SnapshotStore.commit, found, Snapshot.overlay,
      represents.writes owned.2 running key]
    cases own : Store.get db.engine (.version key st.version) with
    | some value =>
      refine .inl ⟨st.version, ?_, (versions key _).trans own, ?_⟩
      · exact fun active => ((left _).mp active).2 rfl
      · intro other stored _ present
        rw [versions] at present
        exact refines.own_latest orderly owned running own present
    | none =>
      refine (refines.committed key).congr fun version stored => ?_
      rw [versions, left, and_congr_left_iff]
      intro present
      have different : version ≠ st.version := by
        rintro rfl
        simp [own] at present
      simp [different]
  · intro other reader later foundOther present
    exact refines.represents_of_end orderly owned.1 (fun user version _ => versions user version)
      (.inr running) foundOther present

theorem rollback (owned : db.Owns txn st) (running : txn ∉ db.ended)
    (logged : db.engine.Logged st.version) (removed : Store.Removes db.engine next fun key =>
      key = .txnActive st.version ∨ (∃ user, key = .txnWrite st.version user) ∨
        ∃ user, key = .version user st.version ∧
          Store.get db.engine (.txnWrite st.version user) = some ()) :
    Refines ⟨next, db.transactions, insert txn db.ended⟩ (store.rollback txn) := by
  have versions (key : Bytes) (version : Version) (different : version ≠ st.version) :
      Store.get next (.version key version) = Store.get db.engine (.version key version) :=
    (removed _).2 (by simp [different])
  refine ⟨by simp [SnapshotStore.rollback, refines.length], ?_, ?_⟩
  · intro key
    refine (refines.committed key).congr fun version stored => ?_
    have left : next.Active version ↔ db.engine.Active version ∧ version ≠ st.version := by
      simp [Engine.Active, removed.get_eq_some]
    rw [left]
    by_cases same : version = st.version
    · subst same
      -- Every version the transaction stored has a write record and is removed.
      have active := orderly.active_of_owns owned running
      have undone : Store.get next (.version key st.version) ≠ some stored := by
        intro present
        obtain ⟨before, stays⟩ := removed.get_eq_some.mp present
        exact stays (.inr (.inr ⟨key, rfl, logged key stored before⟩))
      simp [active, undone]
    · rw [versions key version same]
      simp [same]
  · intro other reader later foundOther present
    exact refines.represents_of_end orderly owned.1
      (fun user version different => versions user version (different.resolve_left
        (by simp [owned.2]))) (.inr running) foundOther present

theorem endReadOnly (found : db.transactions[txn]? = some st) (readOnly : st.readOnly = true) :
    Refines { db with ended := insert txn db.ended } (store.rollback txn) := by
  refine ⟨by simp [SnapshotStore.rollback, refines.length], refines.committed, ?_⟩
  intro other reader later foundOther present
  exact refines.represents_of_end orderly found (fun _ _ _ => rfl) (.inl readOnly) foundOther
    present

/-- Every transition is explained, and leads to a store that is refined again, if a
transaction that is rolled back has all its versions in its write records. -/
theorem explains_of_logged {next : Database}
    (logged : ∀ {txn : Nat} {st : TransactionState}, db.Owns txn st → txn ∉ db.ended →
      (∃ mode, event.1 = .use txn mode .rollback) → db.engine.Logged st.version)
    (transition : Database.Transition db event next) :
    ∃ later, Explains store event later ∧ Refines next later := by
  cases transition with
  | begin members =>
    refine ⟨store.begin, .begin, refines.begin orderly members rfl ?_ ?_⟩
    · intro version below
      rw [Transaction.active_begun]
      simp [below.ne]
    · intro key version
      exact Transaction.get_begun _ _ (by simp) (by simp) (by simp)
  | beginReadOnly members =>
    exact ⟨store.begin, .beginReadOnly, refines.begin orderly members rfl
      (fun _ _ => Iff.rfl) (fun _ _ => rfl)⟩
  | resume usable =>
    obtain ⟨snapshot, found⟩ := refines.exists_snapshot usable.1
    exact ⟨store, .resume found, refines⟩
  | resumeRefused owned ended =>
    obtain ⟨snapshot, found⟩ := refines.exists_snapshot owned.1
    refine ⟨store, .resumeRefused found ?_, refines⟩
    simpa [ended] using (refines.transactions owned.1 found).live
  | useRefused owned ended =>
    obtain ⟨snapshot, found⟩ := refines.exists_snapshot owned.1
    refine ⟨store, .useRefused found ?_, refines⟩
    simpa [ended] using (refines.transactions owned.1 found).live
  | get usable latest =>
    obtain ⟨snapshot, found⟩ := refines.exists_snapshot usable.1
    rw [refines.read orderly usable found latest]
    exact ⟨store, .get found, refines⟩
  | writeReadOnly found readOnly written | conflict owned running written =>
    exact ⟨store, .writeRefused written, refines⟩
  | write owned running written visible =>
    obtain ⟨snapshot, found⟩ := refines.exists_snapshot owned.1
    exact ⟨_, .write found ((refines.transactions owned.1 found).live.mpr running) written,
      refines.write orderly owned running⟩
  | commit owned running removed =>
    obtain ⟨snapshot, found⟩ := refines.exists_snapshot owned.1
    exact ⟨_, .commit found (.inl ((refines.transactions owned.1 found).live.mpr running)),
      refines.commit orderly owned running removed⟩
  | rollback owned running removed =>
    obtain ⟨snapshot, found⟩ := refines.exists_snapshot owned.1
    exact ⟨_, .rollback found (.inl ((refines.transactions owned.1 found).live.mpr running)),
      refines.rollback orderly owned running (logged owned running ⟨_, rfl⟩) removed⟩
  | @endReadOnly txn st mode command found readOnly ends =>
    obtain ⟨snapshot, present⟩ := refines.exists_snapshot found
    have nothing := (refines.transactions found present).readOnly readOnly
    have ended := refines.endReadOnly orderly found readOnly
    have same : store.commit txn = store.rollback txn := by
      have overlaid : snapshot.overlay store.committed = store.committed := by
        funext key
        simp [Snapshot.overlay, nothing key]
      simp only [SnapshotStore.commit, SnapshotStore.rollback, present, overlaid]
    cases command with
    | commit => exact ⟨_, .commit present (.inr nothing), same ▸ ended⟩
    | rollback => exact ⟨_, .rollback present (.inr nothing), ended⟩
    | _ => cases ends

omit orderly in
theorem explains (consistent : db.Consistent) {next : Database}
    (transition : Database.Transition db event next) :
    ∃ later, Explains store event later ∧ Refines next later :=
  refines.explains_of_logged consistent.toOrderly
    (fun owned running _ => consistent.logged (consistent.active_of_owns owned running)) transition

end Refines

/-- A run over an empty engine is explained, step by step, by stores that it refines. -/
theorem Database.run_refines {schedule : List Operation} {last : Database} {events : List Event}
    (bounded : begins schedule < 2 ^ 64 - 2)
    (ran : empty.run schedule = some (last, events)) :
    ∃ store, Explained SnapshotStore.empty events store ∧ Refines last store := by
  obtain ⟨_, _, reached⟩ := run_invariant_empty
    (fun db past => ∃ store, Explained SnapshotStore.empty past store ∧ Refines db store)
    ⟨_, .nil, .empty⟩ (by
      rintro db event next past consistent transition ⟨store, explained, refines⟩
      obtain ⟨later, explains, refinesLater⟩ := refines.explains consistent transition
      exact ⟨later, explained.snoc explains, refinesLater⟩)
    bounded ran
  exact reached

/-- Every run of interleaved transactions over an empty engine is explained by an
abstract snapshot-isolated store: each read returns the transaction's own latest
write of the key, or else the key's committed value of the moment the transaction
began. -/
theorem run_explained {schedule : List Operation} {last : Database} {events : List Event}
    (bounded : begins schedule < 2 ^ 64 - 2)
    (ran : Database.empty.run schedule = some (last, events)) :
    ∃ store, Explained SnapshotStore.empty events store := by
  obtain ⟨store, explained, _⟩ := Database.run_refines bounded ran
  exact ⟨store, explained⟩

/-- A writer that commits after a reader began and before another writer did. -/
def interleaving : List Operation :=
  [.begin, .use 0 .handle (.set [1] [10]), .beginReadOnly, .use 0 .handle .commit,
    .use 1 .resumed (.get [1]), .begin, .use 2 .handle (.get [1])]

/-- Its events: the reader does not see the write, the later writer does. -/
def interleavingEvents : List Event :=
  [(.begin, .ok (.transaction ⟨1, false, ∅⟩)),
    (.use 0 .handle (.set [1] [10]), .ok .done),
    (.beginReadOnly, .ok (.transaction ⟨2, true, {1}⟩)),
    (.use 0 .handle .commit, .ok .done),
    (.use 1 .resumed (.get [1]), .ok (.value none)),
    (.begin, .ok (.transaction ⟨2, false, ∅⟩)),
    (.use 2 .handle (.get [1]), .ok (.value (some [10])))]

theorem run_explained_interleaving :
    (Database.empty.run interleaving).map Prod.snd = some interleavingEvents ∧
      ∃ store, Explained SnapshotStore.empty interleavingEvents store := by
  have events : (Database.empty.run interleaving).map Prod.snd = some interleavingEvents := by
    decide +kernel
  obtain ⟨⟨last, _⟩, ran, rfl⟩ := Option.map_eq_some_iff.mp events
  exact ⟨events, run_explained (by decide) ran⟩

end Radb.Storage.Mvcc
