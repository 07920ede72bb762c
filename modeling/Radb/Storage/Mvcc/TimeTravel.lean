import Radb.Storage.Mvcc.Bookkeeping
import Radb.Storage.Mvcc.SnapshotIsolation

/-! # Time travel

Read-only transactions as of a past version, beside the transactions of a schedule.
They write nothing, so the others do not notice them, and what they read is what a
transaction would have read when the version was handed out.
-/

namespace Radb.Storage.Mvcc

open Foundation Foundation.Program

variable {version : Version} {store : Isolated} {snapshot : Snapshot Bytes Bytes}
  {st : TransactionState}
  {txn : Nat} {engine : Engine} {active : Finset Version} {key : Bytes}
  {value : Option Bytes}

/-- An operation on a database that also serves transactions as of past versions; these
are numbered on their own. -/
inductive Travel where
  | operate (operation : Operation)
  | beginAsOf (version : Version)
  | use (traveller : Nat) (access : Access) (command : Command)
  deriving DecidableEq

/-- A database, the transactions begun as of past versions, and those among them that
have ended. -/
structure Timeline where
  db : Database
  travellers : List TransactionState
  left : Finset Nat

namespace Timeline

/-- Nothing has happened yet. -/
def empty : Timeline := ⟨.empty, [], ∅⟩

/-- The travellers as the transactions of the same engine. -/
def guests (timeline : Timeline) : Database :=
  ⟨timeline.db.engine, timeline.travellers, timeline.left⟩

/-- The timeline after an operation of a traveller. -/
def join (timeline : Timeline) (guests : Database) : Timeline :=
  ⟨{ timeline.db with engine := guests.engine }, guests.transactions, guests.ended⟩

/-- One step. -/
def step (timeline : Timeline) : Travel → Option (Timeline × Except Error Response)
  | .operate operation =>
    (timeline.db.step operation).map fun next => ({ timeline with db := next.1 }, next.2)
  | .beginAsOf version =>
    let next := timeline.guests.start (Transaction.beginReadOnly (some version))
    some (timeline.join next.1, next.2)
  | .use traveller mode command =>
    (timeline.guests.step (.use traveller mode command)).map fun next =>
      (timeline.join next.1, next.2)

/-- Run a list of operations, recording every result. -/
def run (timeline : Timeline) :
    List Travel → Option (Timeline × List (Travel × Except Error Response))
  | [] => some (timeline, [])
  | travel :: rest =>
    match timeline.step travel with
    | none => none
    | some (next, result) =>
      (next.run rest).map fun final => (final.1, (travel, result) :: final.2)

end Timeline

/-- The operations that are not a traveller's. -/
def Travel.operation? : Travel → Option Operation
  | .operate operation => some operation
  | _ => none

/-- The events that are not a traveller's. -/
def operated (events : List (Travel × Except Error Response)) : List Event :=
  events.filterMap fun event => event.1.operation?.map fun operation => (operation, event.2)

theorem access_readOnly (engine : Engine) (st : TransactionState) (readOnly : st.readOnly = true)
    (mode : Access) (command : Command) :
    ((Database.access st mode command).run engine).journal = [] := by
  have program : ((command.program st).run engine).journal = [] := by
    cases command with
    | get key =>
      obtain ⟨value, read, _⟩ := Transaction.get_run engine st key
      simp only [Command.program, bind_eq_andThen]
      rw [andThen_of_run _ read]
      rfl
    | set key value =>
      simp only [Command.program, bind_eq_andThen, Transaction.set]
      rw [andThen_of_stop _ (Transaction.writeVersion_readOnly engine st key _ readOnly)]
    | delete key =>
      simp only [Command.program, bind_eq_andThen, Transaction.delete]
      rw [andThen_of_stop _ (Transaction.writeVersion_readOnly engine st key _ readOnly)]
    | commit =>
      simp only [Command.program, bind_eq_andThen]
      rw [andThen_of_run _ (Transaction.commit_readOnly engine st readOnly)]
      rfl
    | rollback =>
      simp only [Command.program, bind_eq_andThen]
      rw [andThen_of_run _ (Transaction.rollback_readOnly engine st readOnly)]
      rfl
  cases mode with
  | handle => exact program
  | resumed =>
    simp only [Database.access, bind_eq_andThen]
    rw [andThen_of_run _ (Transaction.resume_run engine st (.inl readOnly))]
    exact program

/-- A transaction as of a version that was handed out has the active set stored for it. -/
theorem Transaction.beginReadOnly_asOf (engine : Engine) (past : version < engine.nextVersion) :
    (beginReadOnly (some version)).run engine =
      ⟨[], .ok ⟨version, true, engine.activeSnapshot version⟩⟩ := by
  have handedOut : ¬ version ≥ (Store.get engine .nextVersion).getD 1 := Nat.not_le.mpr past
  simp only [beginReadOnly, bind_eq_andThen, view_andThen_run]
  rw [if_neg handedOut]
  rfl

/-- A transaction as of a version that was not handed out is refused. -/
theorem Transaction.beginReadOnly_refused (engine : Engine)
    (future : engine.nextVersion ≤ version) :
    ∃ error, (beginReadOnly (some version)).run engine = ⟨[], .error error⟩ := by
  have unknown : version ≥ (Store.get engine .nextVersion).getD 1 := future
  simp only [beginReadOnly, bind_eq_andThen, view_andThen_run]
  rw [if_pos unknown]
  exact ⟨_, rfl⟩

namespace Timeline

variable {timeline next last : Timeline}

/-- Travellers only read. -/
def ReadOnly (timeline : Timeline) : Prop :=
  ∀ st ∈ timeline.travellers, st.readOnly = true

/-- A step of a traveller leaves the database alone; a step of the database is one. -/
theorem step_db (readOnly : timeline.ReadOnly) {travel : Travel}
    {result : Except Error Response} (stepped : timeline.step travel = some (next, result)) :
    next.ReadOnly ∧
      match travel.operation? with
      | some operation => timeline.db.step operation = some (next.db, result)
      | none => next.db = timeline.db := by
  cases travel with
  | operate operation =>
    obtain ⟨outcome, performed, same⟩ := Option.map_eq_some_iff.mp stepped
    cases same
    exact ⟨readOnly, performed⟩
  | beginAsOf version =>
    simp only [step, Option.some.injEq, Prod.mk.injEq] at stepped
    obtain ⟨rfl, _⟩ := stepped
    rcases Nat.lt_or_ge version timeline.guests.engine.nextVersion with past | future
    · have begun := Transaction.beginReadOnly_asOf timeline.guests.engine past
      simp only [Database.start, begun, after, replayAll_nil]
      refine ⟨?_, rfl⟩
      intro st member
      rcases List.mem_append.mp member with member | new
      · exact readOnly st member
      · rw [List.mem_singleton.mp new]
    · obtain ⟨error, refused⟩ :=
        Transaction.beginReadOnly_refused timeline.guests.engine future
      simp only [Database.start, refused, after, replayAll_nil]
      exact ⟨readOnly, rfl⟩
  | use traveller mode command =>
    obtain ⟨outcome, performed, same⟩ := Option.map_eq_some_iff.mp stepped
    cases same
    simp only [Database.step] at performed
    cases found : timeline.guests.transactions[traveller]? with
    | none => simp only [found, reduceCtorEq] at performed
    | some st =>
      simp only [found] at performed
      split at performed
      · cases performed
      · have silent := access_readOnly timeline.guests.engine st
          (readOnly st (List.mem_of_getElem? found)) mode command
        simp only [Database.perform, after, silent, replayAll_nil, Option.some.injEq]
          at performed
        obtain rfl := performed
        exact ⟨readOnly, rfl⟩

theorem run_db {travels : List Travel} {events : List (Travel × Except Error Response)}
    (readOnly : timeline.ReadOnly) (ran : timeline.run travels = some (last, events)) :
    last.ReadOnly ∧
      timeline.db.run (travels.filterMap Travel.operation?) = some (last.db, operated events) := by
  induction travels generalizing timeline events with
  | nil =>
    cases ran
    exact ⟨readOnly, rfl⟩
  | cons travel rest ih =>
    simp only [run] at ran
    cases stepped : timeline.step travel with
    | none => simp only [stepped, reduceCtorEq] at ran
    | some outcome =>
      obtain ⟨next, result⟩ := outcome
      simp only [stepped] at ran
      obtain ⟨final, continued, same⟩ := Option.map_eq_some_iff.mp ran
      cases same
      obtain ⟨readOnlyNext, moved⟩ := step_db readOnly stepped
      obtain ⟨readOnlyLast, ranRest⟩ := ih readOnlyNext continued
      refine ⟨readOnlyLast, ?_⟩
      cases named : travel.operation? with
      | none =>
        simp only [named] at moved
        rw [List.filterMap_cons_none named, ← moved, ranRest, operated, operated,
          List.filterMap_cons_none (by simp [named])]
      | some operation =>
        simp only [named] at moved
        rw [List.filterMap_cons_some named, Database.run, moved]
        simp only [ranRest, operated]
        rw [List.filterMap_cons_some (b := (operation, result)) (by simp [named])]

end Timeline

/-- Whatever happens, the snapshot a transaction began with stays. -/
theorem Explains.base {later : Isolated} {event : Event} (explains : Explains store event later)
    (found : store.transactions[txn]? = some snapshot) :
    ∃ kept, later.transactions[txn]? = some kept ∧ kept.base = snapshot.base := by
  have begun : ∃ kept, store.begin.transactions[txn]? = some kept ∧ kept.base = snapshot.base := by
    obtain ⟨below, _⟩ := List.getElem?_eq_some_iff.mp found
    exact ⟨snapshot, by rw [SnapshotStore.begin, List.getElem?_append_left below, found], rfl⟩
  have modified (other : Nat) (change : Snapshot Bytes Bytes → Snapshot Bytes Bytes)
      (same : ∀ given, (change given).base = given.base) :
      ∃ kept, (store.transactions.modify other change)[txn]? = some kept ∧
        kept.base = snapshot.base := by
    rw [List.getElem?_modify, found, Option.map_eq_map, Option.map_some]
    refine ⟨_, rfl, ?_⟩
    split
    · exact same snapshot
    · rfl
  cases explains with
  | begin => exact begun
  | beginReadOnly => exact begun
  | write | commit | rollback => exact modified _ _ fun _ => rfl
  | _ => exact ⟨snapshot, found, rfl⟩

/-- The state of a transaction that began with a snapshot sees that snapshot, if it only
reads. -/
theorem Engine.Latest.visible
    (latest : engine.Latest (fun other => other < version ∧ other ∉ active) key value) :
    engine.Latest (fun other => TransactionState.isVisible ⟨version, true, active⟩ other = true)
      key value :=
  latest.congr fun other stored => by
    simp [TransactionState.isVisible, and_comm]

/-- A read returns the latest visible value. -/
theorem Transaction.get_of_latest
    (latest : engine.Latest (fun version => st.isVisible version = true) key value) :
    (Transaction.get st key).run engine = ⟨[], .ok value⟩ := by
  obtain ⟨read, ran, same⟩ := Transaction.get_run engine st key
  rw [ran, same.unique latest]

namespace Database

variable {db last : Database}

/-- A run keeps the snapshot of a transaction that has begun, and so all that its state
sees of it. -/
theorem run_base (consistent : db.Consistent) (refines : Refines db store)
    {schedule : List Operation} (room : db.engine.nextVersion + begins schedule ≤ versionMax)
    {events : List Event} (ran : db.run schedule = some (last, events))
    (found : db.transactions[txn]? = some st) (present : store.transactions[txn]? = some snapshot)
    (key : Bytes) :
    last.engine.Latest (fun version => version < st.version ∧ version ∉ st.active) key
      (snapshot.base key) := by
  have kept := @run_invariant (fun later _ => ∃ store kept, Refines later store ∧
      later.transactions[txn]? = some st ∧ store.transactions[txn]? = some kept ∧
      kept.base = snapshot.base)
    (fun later event next past consistent transition holds => by
      obtain ⟨store, kept, refines, found, present, same⟩ := holds
      obtain ⟨storeNext, explains, refinesNext⟩ := refines.explains consistent transition
      obtain ⟨again, presentNext, sameNext⟩ := explains.base present
      exact ⟨storeNext, again, refinesNext, transition.found found, presentNext,
        sameNext.trans same⟩)
    schedule db last [] events consistent room ⟨store, snapshot, refines, found, present, rfl⟩ ran
  obtain ⟨_, _, storeLast, again, refinesLast, foundLast, presentLast, same⟩ := kept
  rw [← same]
  exact (refinesLast.transactions foundLast presentLast).base key

theorem latest_committed (consistent : db.Consistent) (refines : Refines db store)
    (members : ∀ version, version ∈ active ↔ db.engine.Active version) (key : Bytes) :
    db.engine.Latest (fun version => version < db.engine.nextVersion ∧ version ∉ active) key
      (store.committed key) := by
  refine (refines.committed key).congr fun version stored => ?_
  rw [and_congr_left_iff, members]
  intro present
  simp [consistent.stored_lt present]

end Database

/-- A version that was handed out is a lasting view: a transaction that begins as of it,
at whatever later point of a run, has the state that a read-only transaction would have
had right before the version was handed out, and it reads, then and later, the committed
map of that moment. -/
theorem time_travel_stable {before after : List Travel} {mid last : Timeline}
    {past events : List (Travel × Except Error Response)}
    (bounded : begins ((before ++ .operate .begin :: after).filterMap Travel.operation?) <
      2 ^ 64 - 2)
    (ranBefore : Timeline.empty.run before = some (mid, past))
    (ran : mid.run (.operate .begin :: after) = some (last, events)) :
    ∃ reader store, Explained SnapshotStore.empty (operated past) store ∧
      (events.head?.map Prod.snd) =
        some (.ok (.transaction ⟨reader.version, false, reader.active⟩)) ∧
      (Transaction.beginReadOnly none).run mid.db.engine = ⟨[], .ok reader⟩ ∧
      (Transaction.beginReadOnly (some reader.version)).run last.db.engine =
        ⟨[], .ok reader⟩ ∧
      ∀ key, (Transaction.get reader key).run mid.db.engine = ⟨[], .ok (store.committed key)⟩ ∧
        (Transaction.get reader key).run last.db.engine = ⟨[], .ok (store.committed key)⟩ := by
  obtain ⟨readOnly, ranDb⟩ := Timeline.run_db (by intro st member; cases member) ranBefore
  obtain ⟨_, ranLater⟩ := Timeline.run_db readOnly ran
  have head : (Travel.operate .begin).operation? = some .begin := rfl
  rw [List.filterMap_append, List.filterMap_cons_some head] at bounded
  rw [List.filterMap_cons_some head] at ranLater
  obtain ⟨next, result, later, stepped, continued, consistent, snapshots, transition, room⟩ :=
    Database.run_next bounded ranDb ranLater
  have fewer : begins (before.filterMap Travel.operation?) < 2 ^ 64 - 2 := by
    rw [begins, List.count_append] at bounded
    exact Nat.lt_of_le_of_lt (Nat.le_add_right _ _) bounded
  obtain ⟨store, explained, refines⟩ := Database.run_refines fewer ranDb
  obtain ⟨active, begun, members⟩ := Transaction.beginReadOnly_run mid.db.engine
  cases transition with
  | @begin taken membersTaken =>
    have same : taken = active := by
      ext version
      rw [membersTaken, members]
    subst same
    have transition := Database.Transition.begin membersTaken
    have consistentNext := transition.consistent consistent
    have advanced : mid.db.engine.nextVersion < Engine.nextVersion (replayAll Store.replay
        mid.db.engine (Transaction.beginWrites mid.db.engine.nextVersion taken)) := by
      rw [Transaction.nextVersion_begun]
      exact Nat.lt_succ_self _
    have kept := Database.run_activeSnapshot consistentNext room continued advanced
    rw [Transaction.activeSnapshot_begun _ _ (snapshots _ (Nat.le_refl _))] at kept
    have lastVersion := Nat.lt_of_lt_of_le advanced
      (Database.run_nextVersion_le consistentNext room continued)
    have began : (events.head?.map Prod.snd) =
        some (.ok (.transaction ⟨mid.db.engine.nextVersion, false, taken⟩)) := by
      simp only [Timeline.run, Timeline.step, stepped, Option.map_some] at ran
      obtain ⟨final, _, same⟩ := Option.map_eq_some_iff.mp ran
      cases same
      rfl
    refine ⟨⟨mid.db.engine.nextVersion, true, taken⟩, store, explained, began, begun, ?_, ?_⟩
    · rw [Transaction.beginReadOnly_asOf last.db.engine lastVersion, kept]
    · intro key
      refine ⟨Transaction.get_of_latest
        (Database.latest_committed consistent refines membersTaken key).visible, ?_⟩
      obtain ⟨storeNext, explains, refinesNext⟩ := refines.explains consistent transition
      cases explains
      have found : (mid.db.transactions ++ [⟨mid.db.engine.nextVersion, false, taken⟩])[
          mid.db.transactions.length]? =
            some ⟨mid.db.engine.nextVersion, false, taken⟩ := List.getElem?_concat_length
      have present : store.begin.transactions[mid.db.transactions.length]? =
          some ⟨store.committed, fun _ => none, true⟩ := by
        rw [← refines.length]
        exact List.getElem?_concat_length
      exact Transaction.get_of_latest
        (Database.run_base consistentNext refinesNext room continued found present key).visible

/-- A value is committed and written again by a transaction that stays open. -/
def rewriting : List Travel :=
  [.operate .begin, .operate (.use 0 .handle (.set [1] [10])), .operate (.use 0 .handle .commit),
    .operate .begin, .operate (.use 1 .handle (.set [1] [20]))]

/-- A version is handed out, the open transaction commits, the value is written once
more, and a transaction begins as of the version and reads the value. -/
def revisiting : List Travel :=
  [.operate .begin, .operate (.use 1 .handle .commit), .operate .begin,
    .operate (.use 3 .handle (.set [1] [30])), .beginAsOf 3, .use 0 .handle (.get [1])]

theorem time_travel_stable_revisiting :
    ∃ mid past last events reader store, Timeline.empty.run rewriting = some (mid, past) ∧
      mid.run revisiting = some (last, events) ∧
      events.map Prod.snd = [.ok (.transaction ⟨3, false, {2}⟩), .ok .done,
        .ok (.transaction ⟨4, false, {3}⟩), .ok .done, .ok (.transaction ⟨3, true, {2}⟩),
        .ok (.value (some [10]))] ∧
      Explained SnapshotStore.empty (operated past) store ∧
      (Transaction.beginReadOnly none).run mid.db.engine = ⟨[], .ok reader⟩ ∧
      (Transaction.beginReadOnly (some reader.version)).run last.db.engine =
        ⟨[], .ok reader⟩ ∧
      ∀ key, (Transaction.get reader key).run last.db.engine =
        ⟨[], .ok (store.committed key)⟩ := by
  have responses : ((Timeline.empty.run rewriting).bind fun started =>
      (started.1.run revisiting).map fun final => final.2.map Prod.snd) =
        some [.ok (.transaction ⟨3, false, {2}⟩), .ok .done, .ok (.transaction ⟨4, false, {3}⟩),
          .ok .done, .ok (.transaction ⟨3, true, {2}⟩), .ok (.value (some [10]))] := by
    decide +kernel
  obtain ⟨⟨mid, past⟩, ranBefore, continued⟩ := Option.bind_eq_some_iff.mp responses
  obtain ⟨⟨last, events⟩, ran, same⟩ := Option.map_eq_some_iff.mp continued
  obtain ⟨reader, store, explained, _, begun, again, reads⟩ :=
    time_travel_stable (by decide) ranBefore ran
  exact ⟨mid, past, last, events, reader, store, ranBefore, ran, same, explained, begun, again,
    fun key => (reads key).2⟩

end Radb.Storage.Mvcc
