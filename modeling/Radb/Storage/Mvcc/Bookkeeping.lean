import Radb.Storage.Mvcc.Transition

/-! # The bookkeeping of the multi-version store

What the records besides the versions say between any two operations: the write
records, the active set, its snapshots and the next version. A version that has ended
is settled: whatever happens later, exactly what its commit or rollback left of it stays.
-/

namespace Radb.Storage.Mvcc

open Foundation Foundation.Program

variable {version : Version} {last : Database} {events : List Event} {operation : Operation}
  {schedule : List Operation} {txn : Nat} {st : TransactionState}
  {before after : List Operation} {mid : Database} {past : List Event} {mode : Access}

/-- The active set stored for a version, which is empty if none is. -/
def Engine.activeSnapshot (engine : Engine) (version : Version) : Finset Version :=
  (Store.get engine (.txnActiveSnapshot version)).getD ∅

namespace Transaction

theorem activeSnapshot_begun (engine : Engine) (active : Finset Version)
    (fresh : Store.get engine (.txnActiveSnapshot engine.nextVersion) = none) :
    Engine.activeSnapshot
      (replayAll Store.replay engine (beginWrites engine.nextVersion active))
      engine.nextVersion = active := by
  by_cases alone : active = ∅
  · rw [Engine.activeSnapshot, Store.get_replayAll_of_ne, fresh, alone, Option.getD_none]
    intro write member
    simp only [beginWrites, alone, ↓reduceIte, List.nil_append, List.mem_cons,
      List.not_mem_nil, or_false] at member
    rcases member with rfl | rfl <;> simp
  · simp only [Engine.activeSnapshot, beginWrites, alone, ↓reduceIte, List.singleton_append,
      replayAll_cons, replayAll_nil]
    rw [Store.get_set_of_ne _ _ (by simp), Store.get_set_self, Option.getD_some]

theorem snapshot_begun_of_ne (engine : Engine) (active : Finset Version)
    (different : version ≠ engine.nextVersion) :
    Store.get (replayAll Store.replay engine (beginWrites engine.nextVersion active))
      (.txnActiveSnapshot version) = Store.get engine (.txnActiveSnapshot version) := by
  apply Store.get_replayAll_of_ne
  intro write member
  rw [beginWrites] at member
  split at member <;>
    simp only [List.nil_append, List.singleton_append, List.mem_cons, List.not_mem_nil,
      or_false] at member
  · rcases member with rfl | rfl <;> simp
  · rcases member with rfl | rfl | rfl <;> simp [different]

end Transaction

namespace Database

variable {db next : Database} {event : Event}

theorem run_append {first second : List Operation}
    (ran : db.run (first ++ second) = some (last, events)) :
    ∃ mid past later, db.run first = some (mid, past) ∧ mid.run second = some (last, later) ∧
      events = past ++ later := by
  induction first generalizing db events with
  | nil => exact ⟨db, [], events, rfl, ran, rfl⟩
  | cons operation rest ih =>
    simp only [List.cons_append, run] at ran ⊢
    cases stepped : db.step operation with
    | none => simp only [stepped, reduceCtorEq] at ran
    | some outcome =>
      obtain ⟨next, result⟩ := outcome
      simp only [stepped] at ran ⊢
      cases continued : next.run (rest ++ second) with
      | none => simp only [continued, reduceCtorEq] at ran
      | some final =>
        obtain ⟨_, remaining⟩ := final
        simp only [continued, Option.some.injEq, Prod.mk.injEq] at ran
        obtain ⟨rfl, rfl⟩ := ran
        obtain ⟨mid, past, later, ranFirst, ranSecond, rfl⟩ := ih continued
        exact ⟨mid, (operation, result) :: past, later, by rw [ranFirst], ranSecond, rfl⟩

theorem run_cons {rest : List Operation} (ran : db.run (operation :: rest) = some (last, events)) :
    ∃ next result later, db.step operation = some (next, result) ∧
      next.run rest = some (last, later) := by
  simp only [run] at ran
  cases stepped : db.step operation with
  | none => simp only [stepped, reduceCtorEq] at ran
  | some outcome =>
    obtain ⟨next, result⟩ := outcome
    simp only [stepped] at ran
    cases continued : next.run rest with
    | none => simp only [continued, reduceCtorEq] at ran
    | some final =>
      simp only [continued, Option.some.injEq, Prod.mk.injEq] at ran
      exact ⟨next, result, final.2, rfl, by rw [continued, ← ran.1]⟩

theorem run_operations (ran : db.run schedule = some (last, events)) :
    events.map Prod.fst = schedule := by
  induction schedule generalizing db events with
  | nil =>
    cases ran
    rfl
  | cons operation rest ih =>
    simp only [run] at ran
    cases stepped : db.step operation with
    | none => simp only [stepped, reduceCtorEq] at ran
    | some outcome =>
      simp only [stepped] at ran
      cases continued : outcome.1.run rest with
      | none => simp only [continued, reduceCtorEq] at ran
      | some =>
        simp only [continued, Option.some.injEq, Prod.mk.injEq] at ran
        obtain ⟨rfl, rfl⟩ := ran
        rw [List.map_cons, ih continued]

namespace Transition

section

variable (transition : Transition db event next)

include transition

/-- A transaction once begun keeps its number and its state. -/
theorem found (found : db.transactions[txn]? = some st) : next.transactions[txn]? = some st := by
  cases transition with
  | begin | beginReadOnly => exact getElem?_snoc_of_some found
  | _ => exact found

theorem ended (ended : txn ∈ db.ended) : txn ∈ next.ended := by
  cases transition with
  | commit | rollback | endReadOnly => exact Finset.mem_insert_of_mem ended
  | _ => exact ended

theorem version_of_ended (orderly : db.Orderly) (owned : db.Owns txn st) (ended : txn ∈ db.ended)
    (key : Bytes) :
    Store.get next.engine (.version key st.version) =
      Store.get db.engine (.version key st.version) := by
  have other {writer : Nat} {writing : TransactionState} (ownedOther : db.Owns writer writing)
      (running : writer ∉ db.ended) : st.version ≠ writing.version := by
    intro same
    exact running (orderly.unique owned ownedOther same ▸ ended)
  cases transition with
  | begin => exact Transaction.get_begun _ _ (by simp) (by simp) (by simp)
  | write ownedOther running =>
    exact Transaction.get_written_of_ne _ _ _ _ (by simp) (by simp [other ownedOther running])
  | commit ownedOther running removed => exact (removed _).2 (by simp)
  | rollback ownedOther running removed =>
    exact (removed _).2 (by simp [other ownedOther running])
  | _ => rfl

theorem snapshot_of_ne (different : version ≠ db.engine.nextVersion) :
    Store.get next.engine (.txnActiveSnapshot version) =
      Store.get db.engine (.txnActiveSnapshot version) := by
  cases transition with
  | begin => exact Transaction.snapshot_begun_of_ne _ _ different
  | write => exact Transaction.get_written_of_ne _ _ _ _ (by simp) (by simp)
  | commit owned running removed | rollback owned running removed => exact (removed _).2 (by simp)
  | _ => rfl

theorem nextVersion_le : db.engine.nextVersion ≤ next.engine.nextVersion := by
  rw [transition.nextVersion]
  exact Nat.le_add_right _ _

end

end Transition

/-- Snapshots of the active set are only stored for versions that were handed out. -/
def Snapshots (db : Database) : Prop :=
  ∀ version, db.engine.nextVersion ≤ version →
    Store.get db.engine (.txnActiveSnapshot version) = none

theorem snapshots_empty : Snapshots empty := fun _ _ => Store.get_empty _

theorem Snapshots.transition (snapshots : db.Snapshots) (transition : Transition db event next) :
    next.Snapshots := by
  have nextVersion := transition.nextVersion
  cases transition with
  | begin =>
    intro version above
    simp only [↓reduceIte] at nextVersion
    rw [nextVersion] at above
    rw [Transaction.snapshot_begun_of_ne _ _ (Nat.ne_of_gt above)]
    exact snapshots version (Nat.le_of_succ_le above)
  | write =>
    intro version above
    rw [nextVersion] at above
    rw [Transaction.get_written_of_ne _ _ _ _ (by simp) (by simp)]
    exact snapshots version above
  | commit owned running removed | rollback owned running removed =>
    intro version above
    rw [nextVersion] at above
    rw [(removed _).2 (by simp)]
    exact snapshots version above
  | _ => exact snapshots

/-- What holds between operations whatever the schedule. -/
theorem run_snapshots (bounded : begins schedule < 2 ^ 64 - 2)
    (ran : empty.run schedule = some (last, events)) :
    last.Consistent ∧ last.engine.nextVersion ≤ versionMax ∧ last.Snapshots :=
  run_invariant_empty (fun db _ => db.Snapshots) snapshots_empty
    (fun _ _ _ _ _ transition snapshots => snapshots.transition transition) bounded ran

theorem run_nextVersion (bounded : begins schedule < 2 ^ 64 - 2)
    (ran : empty.run schedule = some (last, events)) :
    last.engine.nextVersion = 1 + begins schedule := by
  have counted := run_invariant_empty
    (fun db past => db.engine.nextVersion = 1 + begins (past.map Prod.fst))
    (by simp [empty, Engine.nextVersion, begins])
    (fun db event next past _ transition counted => by
      rw [transition.nextVersion, counted, begins, begins, List.map_append, List.count_append,
        List.map_singleton, List.count_singleton, Nat.add_assoc]
      simp only [beq_iff_eq]) bounded ran
  rw [counted.2.2, run_operations ran]

/-- An operation in the middle of a run: the step it takes, and the rest of the run. -/
theorem run_next (bounded : begins (before ++ operation :: after) < 2 ^ 64 - 2)
    (ranBefore : empty.run before = some (mid, past))
    (ran : mid.run (operation :: after) = some (last, events)) :
    ∃ next result later, mid.step operation = some (next, result) ∧
      next.run after = some (last, later) ∧ mid.Consistent ∧ mid.Snapshots ∧
      Transition mid (operation, result) next ∧
      next.engine.nextVersion + begins after ≤ versionMax := by
  obtain ⟨next, result, later, stepped, continued⟩ := run_cons ran
  have counted : begins (before ++ operation :: after) =
      begins before + (begins after + if operation = .begin then 1 else 0) := by
    rw [begins, List.count_append, List.count_cons, begins, begins]
    simp only [beq_iff_eq]
  have fewer : begins before < 2 ^ 64 - 2 := by omega
  have versions : mid.engine.nextVersion = 1 + begins before := run_nextVersion fewer ranBefore
  obtain ⟨consistent, room, snapshots⟩ := run_snapshots fewer ranBefore
  have transition := transition_of_step consistent.toOrderly room stepped
  refine ⟨next, result, later, stepped, continued, consistent, snapshots, transition, ?_⟩
  have advanced : next.engine.nextVersion =
      1 + begins before + if operation = .begin then 1 else 0 := versions ▸ transition.nextVersion
  rw [advanced]
  change (1 + begins before + (if operation = .begin then 1 else 0) + begins after : Nat) ≤
    2 ^ 64 - 1
  omega

theorem run_around (bounded : begins (before ++ operation :: after) < 2 ^ 64 - 2)
    (ranBefore : empty.run before = some (mid, past))
    (ran : empty.run (before ++ operation :: after) = some (last, events)) :
    ∃ next result later, mid.step operation = some (next, result) ∧
      next.run after = some (last, later) ∧ mid.Consistent ∧ mid.Snapshots ∧
      Transition mid (operation, result) next ∧
      next.engine.nextVersion + begins after ≤ versionMax := by
  obtain ⟨middle, earlier, rest, ranFirst, ranRest, _⟩ := run_append ran
  rw [ranBefore] at ranFirst
  cases ranFirst
  exact run_next bounded ranBefore ranRest

theorem run_version_of_ended (consistent : db.Consistent)
    (room : db.engine.nextVersion + begins schedule ≤ versionMax)
    (ran : db.run schedule = some (last, events)) (owned : db.Owns txn st)
    (ended : txn ∈ db.ended) (key : Bytes) :
    Store.get last.engine (.version key st.version) =
      Store.get db.engine (.version key st.version) := by
  have settled := @run_invariant (fun later _ => later.Owns txn st ∧ txn ∈ later.ended ∧
      Store.get later.engine (.version key st.version) =
        Store.get db.engine (.version key st.version))
    (fun later event next past consistent transition holds => by
      obtain ⟨owned, ended, same⟩ := holds
      refine ⟨⟨transition.found owned.1, owned.2⟩, transition.ended ended, ?_⟩
      rw [transition.version_of_ended consistent.toOrderly owned ended key, same])
    schedule db last [] events consistent room ⟨owned, ended, rfl⟩ ran
  exact settled.2.2.2.2

theorem run_nextVersion_le (consistent : db.Consistent)
    (room : db.engine.nextVersion + begins schedule ≤ versionMax)
    (ran : db.run schedule = some (last, events)) :
    db.engine.nextVersion ≤ last.engine.nextVersion :=
  (@run_invariant (fun later _ => db.engine.nextVersion ≤ later.engine.nextVersion)
    (fun _ _ _ _ _ transition reached => Nat.le_trans reached transition.nextVersion_le)
    schedule db last [] events consistent room (Nat.le_refl _) ran).2.2

theorem run_activeSnapshot (consistent : db.Consistent)
    (room : db.engine.nextVersion + begins schedule ≤ versionMax)
    (ran : db.run schedule = some (last, events)) (past : version < db.engine.nextVersion) :
    last.engine.activeSnapshot version = db.engine.activeSnapshot version := by
  have kept := @run_invariant (fun later _ => version < later.engine.nextVersion ∧
      later.engine.activeSnapshot version = db.engine.activeSnapshot version)
    (fun later event next past consistent transition holds => by
      refine ⟨Nat.lt_of_lt_of_le holds.1 transition.nextVersion_le, ?_⟩
      rw [Engine.activeSnapshot, transition.snapshot_of_ne (Nat.ne_of_lt holds.1)]
      exact holds.2)
    schedule db last [] events consistent room ⟨past, rfl⟩ ran
  exact kept.2.2.2

end Database

open Database in
/-- What the records say of a run that led to a database. -/
structure Bookkeeping (schedule : List Operation) (last : Database) : Prop where
  /-- The write records are those of the active transactions' stored versions. -/
  records : ∀ version key, Store.get last.engine (.txnWrite version key) = some () ↔
    last.engine.Active version ∧ ∃ value, Store.get last.engine (.version key version) = some value
  /-- Every version in a stored key was handed out. -/
  stamp_lt : ∀ key version, key.stamp = some version → Store.get last.engine key ≠ none →
    version < last.engine.nextVersion
  /-- The snapshot of a version is the active set of the moment it began. -/
  snapshot : ∀ before after mid past, schedule = before ++ .begin :: after →
    empty.run before = some (mid, past) → ∀ version,
      version ∈ last.engine.activeSnapshot mid.engine.nextVersion ↔ mid.engine.Active version
  /-- Nothing of a transaction is left after its rollback. -/
  undone : ∀ before after mid past txn mode st next,
    schedule = before ++ .use txn mode .rollback :: after → empty.run before = some (mid, past) →
    mid.Owns txn st → mid.step (.use txn mode .rollback) = some (next, .ok .done) → ∀ key,
      Store.get last.engine (.version key st.version) = none ∧
        Store.get last.engine (.txnWrite st.version key) = none
  /-- All versions of a transaction are left after its commit. -/
  kept : ∀ before after mid past txn mode st next,
    schedule = before ++ .use txn mode .commit :: after → empty.run before = some (mid, past) →
    mid.Owns txn st → mid.step (.use txn mode .commit) = some (next, .ok .done) → ∀ key,
      Store.get last.engine (.version key st.version) =
        Store.get mid.engine (.version key st.version)

namespace Database

variable {db next : Database}

theorem stamp_lt_of_stored (consistent : db.Consistent) (snapshots : db.Snapshots) {key : Key}
    (stamped : key.stamp = some version) (present : Store.get db.engine key ≠ none) :
    version < db.engine.nextVersion := by
  cases key with
  | nextVersion => cases stamped
  | txnActive =>
    cases stamped
    obtain ⟨_, stored⟩ := Option.ne_none_iff_exists'.mp present
    exact consistent.active_lt stored
  | txnActiveSnapshot =>
    cases stamped
    by_contra above
    exact present (snapshots _ (Nat.not_lt.mp above))
  | txnWrite =>
    cases stamped
    obtain ⟨_, stored⟩ := Option.ne_none_iff_exists'.mp present
    exact consistent.active_lt ((consistent.records _ _).mp stored).1
  | version =>
    cases stamped
    obtain ⟨value, stored⟩ := Option.ne_none_iff_exists'.mp present
    exact consistent.stored_lt stored
  | unversioned user => cases stamped

theorem Transition.undone (transition : Transition db (.use txn mode .rollback, .ok .done) next)
    (consistent : db.Consistent) (owned : db.Owns txn st) :
    txn ∈ next.ended ∧ ∀ key, Store.get next.engine (.version key st.version) = none := by
  cases transition with
  | write ownedOther running written => cases written
  | rollback ownedOther running removed =>
    obtain rfl := Option.some.inj (owned.1.symm.trans ownedOther.1)
    refine ⟨Finset.mem_insert_self _ _, fun key => ?_⟩
    rw [Option.eq_none_iff_forall_ne_some]
    intro value present
    obtain ⟨stored, stays⟩ := removed.get_eq_some.mp present
    have active := consistent.active_of_owns owned running
    exact stays (.inr (.inr ⟨key, rfl, consistent.logged active key value stored⟩))
  | endReadOnly found readOnly ends =>
    obtain rfl := Option.some.inj (owned.1.symm.trans found)
    simp [owned.2] at readOnly

theorem Transition.kept (transition : Transition db (.use txn mode .commit, .ok .done) next)
    (owned : db.Owns txn st) :
    txn ∈ next.ended ∧ ∀ key, Store.get next.engine (.version key st.version) =
      Store.get db.engine (.version key st.version) := by
  cases transition with
  | write ownedOther running written visible => cases written
  | commit ownedOther running removed =>
    exact ⟨Finset.mem_insert_self _ _, fun key => (removed _).2 (by simp)⟩
  | endReadOnly found readOnly ends =>
    obtain rfl := Option.some.inj (owned.1.symm.trans found)
    simp [owned.2] at readOnly

end Database

/-- The bookkeeping of every run of interleaved transactions over an empty engine. -/
theorem run_bookkeeping {schedule : List Operation} {last : Database} {events : List Event}
    (bounded : begins schedule < 2 ^ 64 - 2)
    (ran : Database.empty.run schedule = some (last, events)) : Bookkeeping schedule last := by
  obtain ⟨consistent, _, snapshots⟩ := Database.run_snapshots bounded ran
  refine ⟨consistent.records, ?_, ?_, ?_, ?_⟩
  · intro key version stamped present
    exact Database.stamp_lt_of_stored consistent snapshots stamped present
  · intro before after mid past split ranBefore version
    subst split
    obtain ⟨next, result, later, _, continued, consistentMid, snapshotsMid, transition, room⟩ :=
      Database.run_around bounded ranBefore ran
    cases transition with
    | begin members =>
      rw [Database.run_activeSnapshot ((Database.Transition.begin members).consistent
        consistentMid) room continued, Transaction.activeSnapshot_begun _ _
        (snapshotsMid _ (Nat.le_refl _)), members]
      rw [Transaction.nextVersion_begun]
      exact Nat.lt_succ_self _
  · intro before after mid past txn mode st next split ranBefore owned stepped key
    subst split
    obtain ⟨_, _, later, steppedAgain, continued, consistentMid, _, transition, room⟩ :=
      Database.run_around bounded ranBefore ran
    rw [stepped] at steppedAgain
    cases steppedAgain
    obtain ⟨ended, gone⟩ := transition.undone consistentMid owned
    have absent : Store.get last.engine (.version key st.version) = none := by
      rw [Database.run_version_of_ended (transition.consistent consistentMid) room continued
        ⟨transition.found owned.1, owned.2⟩ ended key, gone key]
    refine ⟨absent, ?_⟩
    rw [Option.eq_none_iff_forall_ne_some]
    intro _ recorded
    obtain ⟨_, value, stored⟩ := (consistent.records _ _).mp recorded
    rw [absent] at stored
    cases stored
  · intro before after mid past txn mode st next split ranBefore owned stepped key
    subst split
    obtain ⟨_, _, later, steppedAgain, continued, consistentMid, _, transition, room⟩ :=
      Database.run_around bounded ranBefore ran
    rw [stepped] at steppedAgain
    cases steppedAgain
    obtain ⟨ended, same⟩ := transition.kept owned
    rw [Database.run_version_of_ended (transition.consistent consistentMid) room continued
      ⟨transition.found owned.1, owned.2⟩ ended key, same key]

/-- A transaction begins beside an open one, which then rolls back, and commits. -/
def overlapping : List Operation :=
  [.begin, .use 0 .handle (.set [1] [10]), .begin, .use 0 .handle .rollback,
    .use 1 .handle (.set [2] [20]), .use 1 .resumed .commit]

theorem run_bookkeeping_overlapping :
    ∃ last events, Database.empty.run overlapping = some (last, events) ∧
      events.map Prod.snd = [.ok (.transaction ⟨1, false, ∅⟩), .ok .done,
        .ok (.transaction ⟨2, false, {1}⟩), .ok .done, .ok .done, .ok .done] ∧
      Bookkeeping overlapping last := by
  have responses : (Database.empty.run overlapping).map (fun final => final.2.map Prod.snd) =
      some [.ok (.transaction ⟨1, false, ∅⟩), .ok .done,
        .ok (.transaction ⟨2, false, {1}⟩), .ok .done, .ok .done, .ok .done] := by
    decide +kernel
  obtain ⟨⟨last, events⟩, ran, same⟩ := Option.map_eq_some_iff.mp responses
  exact ⟨last, events, ran, same, run_bookkeeping (by decide) ran⟩

end Radb.Storage.Mvcc
