import Radb.Storage.Mvcc.Consistency

/-! # What a step of the database can do

The one inversion of `Database.step`: every operation on an orderly database is
one of the transitions below. Everything proved about runs goes by cases on them.
-/

namespace Radb.Storage.Mvcc

open Foundation Foundation.Program

variable {st : TransactionState} {result : Except Error Response}

namespace Database

/-- A transaction that a resume accepts: read only, or not ended. -/
def Usable (db : Database) (txn : Nat) (st : TransactionState) : Prop :=
  db.transactions[txn]? = some st ∧ (st.readOnly = true ∨ txn ∉ db.ended)

/-- The operations with their results, and the databases they lead to. -/
inductive Transition (db : Database) : Event → Database → Prop where
  | begin {active : Finset Version} (members : ∀ version, version ∈ active ↔
      db.engine.Active version) :
      Transition db (.begin, .ok (.transaction ⟨db.engine.nextVersion, false, active⟩))
        ⟨replayAll Store.replay db.engine
            (Transaction.beginWrites db.engine.nextVersion active),
          db.transactions ++ [⟨db.engine.nextVersion, false, active⟩], db.ended⟩
  | beginReadOnly {active : Finset Version} (members : ∀ version, version ∈ active ↔
      db.engine.Active version) :
      Transition db (.beginReadOnly, .ok (.transaction ⟨db.engine.nextVersion, true, active⟩))
        { db with transactions := db.transactions ++ [⟨db.engine.nextVersion, true, active⟩] }
  | resume {txn : Nat} {st : TransactionState} (usable : db.Usable txn st) :
      Transition db (.resume txn, .ok (.transaction st)) db
  | resumeRefused {txn : Nat} {st : TransactionState} {error : Error} (owned : db.Owns txn st)
      (ended : txn ∈ db.ended) : Transition db (.resume txn, .error error) db
  | useRefused {txn : Nat} {st : TransactionState} {command : Command} {error : Error}
      (owned : db.Owns txn st) (ended : txn ∈ db.ended) :
      Transition db (.use txn .resumed command, .error error) db
  | get {txn : Nat} {st : TransactionState} {mode : Access} {key : Bytes}
      {value : Option Bytes} (usable : db.Usable txn st)
      (latest : db.engine.Latest (fun version => st.isVisible version = true) key value) :
      Transition db (.use txn mode (.get key), .ok (.value value)) db
  | writeReadOnly {txn : Nat} {st : TransactionState} {mode : Access} {command : Command}
      {key : Bytes} {value : Option Bytes} (found : db.transactions[txn]? = some st)
      (readOnly : st.readOnly = true) (written : command.written = some (key, value)) :
      Transition db (.use txn mode command, .error .readOnly) db
  | conflict {txn : Nat} {st : TransactionState} {mode : Access} {command : Command}
      {key : Bytes} {value stored : Option Bytes} {version : Version} (owned : db.Owns txn st)
      (running : txn ∉ db.ended) (written : command.written = some (key, value))
      (hidden : st.isVisible version = false)
      (present : Store.get db.engine (.version key version) = some stored) :
      Transition db (.use txn mode command, .error .serialization) db
  | write {txn : Nat} {st : TransactionState} {mode : Access} {command : Command}
      {key : Bytes} {value : Option Bytes} (owned : db.Owns txn st) (running : txn ∉ db.ended)
      (written : command.written = some (key, value))
      (visible : ∀ version stored, Store.get db.engine (.version key version) = some stored →
        version ∉ st.active ∧ version ≤ st.version) :
      Transition db (.use txn mode command, .ok .done)
        { db with
          engine := replayAll Store.replay db.engine (Transaction.versionWrites st key value) }
  | commit {txn : Nat} {st : TransactionState} {mode : Access} {next : Engine}
      (owned : db.Owns txn st) (running : txn ∉ db.ended)
      (removed : Store.Removes db.engine next fun key =>
        key = .txnActive st.version ∨ ∃ user, key = .txnWrite st.version user) :
      Transition db (.use txn mode .commit, .ok .done)
        ⟨next, db.transactions, insert txn db.ended⟩
  | rollback {txn : Nat} {st : TransactionState} {mode : Access} {next : Engine}
      (owned : db.Owns txn st) (running : txn ∉ db.ended)
      (removed : Store.Removes db.engine next fun key =>
        key = .txnActive st.version ∨ (∃ user, key = .txnWrite st.version user) ∨
          ∃ user, key = .version user st.version ∧
            Store.get db.engine (.txnWrite st.version user) = some ()) :
      Transition db (.use txn mode .rollback, .ok .done)
        ⟨next, db.transactions, insert txn db.ended⟩
  | endReadOnly {txn : Nat} {st : TransactionState} {mode : Access} {command : Command}
      (found : db.transactions[txn]? = some st) (readOnly : st.readOnly = true)
      (ends : command.ends = true) :
      Transition db (.use txn mode command, .ok .done)
        { db with ended := insert txn db.ended }

section Perform

variable {db : Database} {txn : Nat} {program : Session Response} {ends : Bool}

/-- Performing a program that writes nothing and returns without ending the
transaction changes nothing. -/
theorem perform_pure {response : Response} (ran : program.run db.engine = ⟨[], .ok response⟩) :
    db.perform txn program false = (db, .ok response) := by
  simp only [perform, after, ran, replayAll_nil, Bool.false_eq_true, ↓reduceIte]

/-- Performing a program that writes nothing and fails changes nothing. -/
theorem perform_fail {error : Error} (ran : program.run db.engine = ⟨[], .error error⟩) :
    db.perform txn program ends = (db, .error error) := by
  simp only [perform, after, ran, replayAll_nil]

end Perform

variable {db next : Database}

/-- A transaction is usable unless it is a read-write transaction that has ended. -/
theorem usable_or_ended (found : db.transactions[txn]? = some st) :
    db.Usable txn st ∨ db.Owns txn st ∧ txn ∈ db.ended := by
  by_cases ended : txn ∈ db.ended
  · cases readOnly : st.readOnly with
    | true => exact .inl ⟨found, .inl readOnly⟩
    | false => exact .inr ⟨⟨found, readOnly⟩, ended⟩
  · exact .inl ⟨found, .inr ended⟩

section

variable (orderly : db.Orderly)

include orderly

theorem Usable.valid (usable : db.Usable txn st) :
    st.readOnly = true ∨ db.engine.Active st.version := by
  cases readOnly : st.readOnly with
  | true => exact .inl rfl
  | false =>
    refine .inr (orderly.active_of_owns ⟨usable.1, readOnly⟩ ?_)
    exact usable.2.resolve_left (by simp [readOnly])

/-- A usable transaction is used as its command's program says, however it is
reached. -/
theorem access_run (usable : db.Usable txn st) (mode : Access) (command : Command) :
    (access st mode command).run db.engine = (command.program st).run db.engine := by
  cases mode with
  | handle => rfl
  | resumed =>
    simp only [access, bind_eq_andThen]
    rw [andThen_of_run _ (Transaction.resume_run db.engine st (usable.valid orderly))]
    rfl

section

variable (bounded : db.engine.nextVersion ≤ versionMax)

include bounded

theorem transition_of_written {key : Bytes} {value : Option Bytes} {command : Command}
    (usable : db.Usable txn st) (mode : Access) (written : command.written = some (key, value))
    (lasting : command.ends = false) (program : command.program st =
      andThen (Transaction.writeVersion st key value) fun _ => ret .done)
    (performed : db.perform txn (access st mode command) command.ends = (next, result)) :
    Transition db (.use txn mode command, result) next := by
  have ran := access_run orderly usable mode command
  rw [program] at ran
  cases readOnly : st.readOnly with
  | true =>
    rw [andThen_of_stop _ (Transaction.writeVersion_readOnly db.engine st key value readOnly)]
      at ran
    rw [perform_fail ran] at performed
    cases performed
    exact .writeReadOnly usable.1 readOnly written
  | false =>
    have running : txn ∉ db.ended := usable.2.resolve_left (by simp [readOnly])
    rcases Transaction.writeVersion_run db.engine st key value readOnly with
      ⟨failed, version, stored, hidden, present⟩ | ⟨wrote, latest⟩
    · rw [andThen_of_stop _ failed] at ran
      rw [perform_fail ran] at performed
      cases performed
      exact .conflict ⟨usable.1, readOnly⟩ running written hidden present
    · rw [andThen_of_run _ wrote] at ran
      simp only [perform, after, ran, lasting, ret_run, List.append_nil, Bool.false_eq_true,
        ↓reduceIte] at performed
      cases performed
      exact .write ⟨usable.1, readOnly⟩ running written fun version stored present =>
        orderly.visible_of_latest ⟨usable.1, readOnly⟩ bounded latest present

theorem transition_of_use {command : Command} (usable : db.Usable txn st) (mode : Access)
    (performed : db.perform txn (access st mode command) command.ends = (next, result)) :
    Transition db (.use txn mode command, result) next := by
  have ran := access_run orderly usable mode command
  have running (writable : st.readOnly = false) : txn ∉ db.ended :=
    usable.2.resolve_left (by simp [writable])
  cases command with
  | get key =>
    obtain ⟨value, read, latest⟩ := Transaction.get_run db.engine st key
    simp only [Command.program, bind_eq_andThen] at ran
    rw [andThen_of_run _ read] at ran
    rw [show (Command.get key).ends = false from rfl, perform_pure ran] at performed
    cases performed
    exact .get usable latest
  | set | delete => exact transition_of_written orderly bounded usable mode rfl rfl rfl performed
  | commit =>
    simp only [Command.program, bind_eq_andThen] at ran
    cases readOnly : st.readOnly with
    | true =>
      rw [andThen_of_run _ (Transaction.commit_readOnly db.engine st readOnly)] at ran
      simp only [perform, after, ran, Command.ends] at performed
      cases performed
      exact .endReadOnly usable.1 readOnly rfl
    | false =>
      obtain ⟨committed, removed⟩ := Transaction.commit_run db.engine st readOnly
      rw [after] at removed
      rcases left : (Transaction.commit st).run db.engine with ⟨journal, outcome⟩
      rw [left] at committed removed
      subst committed
      rw [andThen_of_run _ left] at ran
      simp only [perform, after, ran, Command.ends, ret_run, List.append_nil, ↓reduceIte]
        at performed
      cases performed
      exact .commit ⟨usable.1, readOnly⟩ (running readOnly) removed
  | rollback =>
    simp only [Command.program, bind_eq_andThen] at ran
    cases readOnly : st.readOnly with
    | true =>
      rw [andThen_of_run _ (Transaction.rollback_readOnly db.engine st readOnly)] at ran
      simp only [perform, after, ran, Command.ends] at performed
      cases performed
      exact .endReadOnly usable.1 readOnly rfl
    | false =>
      obtain ⟨undone, removed⟩ := Transaction.rollback_run db.engine st readOnly
      rw [after] at removed
      rcases left : (Transaction.rollback st).run db.engine with ⟨journal, outcome⟩
      rw [left] at undone removed
      subst undone
      rw [andThen_of_run _ left] at ran
      simp only [perform, after, ran, Command.ends, ret_run, List.append_nil, ↓reduceIte]
        at performed
      cases performed
      exact .rollback ⟨usable.1, readOnly⟩ (running readOnly) removed

/-- Every step of an orderly database is a transition. -/
theorem transition_of_step {operation : Operation}
    (stepped : db.step operation = some (next, result)) :
    Transition db (operation, result) next := by
  cases operation with
  | begin =>
    obtain ⟨active, ran, members⟩ := Transaction.begin_run db.engine
    simp only [step, start, after, ran, Option.some.injEq] at stepped
    cases stepped
    exact .begin members
  | beginReadOnly =>
    obtain ⟨active, ran, members⟩ := Transaction.beginReadOnly_run db.engine
    simp only [step, start, after, ran, replayAll_nil, Option.some.injEq] at stepped
    cases stepped
    exact .beginReadOnly members
  | resume txn =>
    simp only [step] at stepped
    cases found : db.transactions[txn]? with
    | none => simp only [found, reduceCtorEq] at stepped
    | some st =>
      simp only [found, Option.some.injEq, bind_eq_andThen] at stepped
      rcases usable_or_ended found with usable | ⟨owned, ended⟩
      · rw [perform_pure (andThen_of_run _
          (Transaction.resume_run db.engine st (usable.valid orderly)))] at stepped
        cases stepped
        exact .resume usable
      · obtain ⟨error, stopped⟩ := Transaction.resume_stop db.engine st owned.2
          (orderly.not_active_of_ended owned ended)
        rw [perform_fail (andThen_of_stop _ stopped)] at stepped
        cases stepped
        exact .resumeRefused owned ended
  | use txn mode command =>
    simp only [step] at stepped
    cases found : db.transactions[txn]? with
    | none => simp only [found, reduceCtorEq] at stepped
    | some st =>
      simp only [found] at stepped
      split at stepped
      · cases stepped
      · next reachable =>
        rw [Option.some.injEq] at stepped
        rcases usable_or_ended found with usable | ⟨owned, ended⟩
        · exact transition_of_use orderly bounded usable mode stepped
        · cases mode with
          | handle => exact absurd ⟨rfl, ended⟩ reachable
          | resumed =>
            obtain ⟨error, stopped⟩ := Transaction.resume_stop db.engine st owned.2
              (orderly.not_active_of_ended owned ended)
            simp only [access, bind_eq_andThen] at stepped
            rw [perform_fail (andThen_of_stop _ stopped)] at stepped
            cases stepped
            exact .useRefused owned ended

end

end

namespace Transition

variable {event : Event}

section

variable (transition : Transition db event next)

include transition

theorem nextVersion :
    next.engine.nextVersion =
      db.engine.nextVersion + if event.1 = .begin then 1 else 0 := by
  cases transition with
  | begin members => exact Transaction.nextVersion_begun db.engine _
  | write owned running written visible =>
    simp only [reduceCtorEq, ↓reduceIte, Nat.add_zero, Engine.nextVersion]
    rw [Transaction.get_written_of_ne _ _ _ _ (by simp) (by simp)]
  | commit owned running removed | rollback owned running removed =>
    simp only [reduceCtorEq, ↓reduceIte, Nat.add_zero, Engine.nextVersion]
    rw [(removed _).2 (by simp)]
  | _ => rfl

/-- Every transition keeps the order. -/
theorem orderly (before : db.Orderly) : next.Orderly := by
  have nextVersion := transition.nextVersion
  cases transition with
  | begin members =>
    refine before.begin members nextVersion (Transaction.active_begun db.engine _) ?_
    intro key version
    exact Transaction.get_begun _ _ (by simp) (by simp) (by simp)
  | beginReadOnly members => exact before.beginReadOnly members
  | write owned running written visible => exact before.write owned running visible
  | commit owned running removed | rollback owned running removed =>
    refine before.finish owned nextVersion ?_ ?_
    · intro version
      simp [Engine.Active, removed.get_eq_some]
    · intro key version value present
      exact (removed.get_eq_some.mp present).1
  | endReadOnly found readOnly ends => exact before.finishReadOnly found readOnly
  | _ => exact before

/-- Every transition keeps the invariant. -/
theorem consistent (before : db.Consistent) : next.Consistent := by
  have nextVersion := transition.nextVersion
  cases transition with
  | begin members =>
    refine before.begin members nextVersion (Transaction.active_begun db.engine _) ?_ ?_
    · intro key version
      exact Transaction.get_begun _ _ (by simp) (by simp) (by simp)
    · intro version key
      exact Transaction.get_begun _ _ (by simp) (by simp) (by simp)
  | beginReadOnly members => exact before.beginReadOnly members
  | write owned running written visible => exact before.write owned running visible
  | commit owned running removed =>
    refine before.finish owned nextVersion ?_ ?_ ?_ ?_
    · intro version
      simp [Engine.Active, removed.get_eq_some]
    · intro version key
      simp [removed.get_eq_some]
    · intro key version value present
      exact (removed.get_eq_some.mp present).1
    · intro key version _
      exact (removed _).2 (by simp)
  | rollback owned running removed =>
    refine before.finish owned nextVersion ?_ ?_ ?_ ?_
    · intro version
      simp [Engine.Active, removed.get_eq_some]
    · intro version key
      simp [removed.get_eq_some]
    · intro key version value present
      exact (removed.get_eq_some.mp present).1
    · intro key version different
      exact (removed _).2 (by simp [different])
  | endReadOnly found readOnly ends => exact before.finishReadOnly found readOnly
  | _ => exact before

end

end Transition

/-- A property of a database and its past that holds of a consistent database and
that every transition preserves holds after every run. -/
theorem run_invariant (holds : Database → List Event → Prop)
    (preserved : ∀ db event next past, Consistent db → Transition db event next →
      holds db past → holds next (past ++ [event])) :
    ∀ (schedule : List Operation) {db last : Database} {past events : List Event},
      db.Consistent → db.engine.nextVersion + begins schedule ≤ versionMax → holds db past →
      db.run schedule = some (last, events) →
        last.Consistent ∧ last.engine.nextVersion ≤ versionMax ∧ holds last (past ++ events) := by
  intro schedule
  induction schedule with
  | nil =>
    intro db last past events consistent bounded initially ran
    cases ran
    exact ⟨consistent, bounded, by simpa using initially⟩
  | cons operation rest ih =>
    intro db last past events consistent bounded initially ran
    simp only [run] at ran
    cases stepped : db.step operation with
    | none => simp only [stepped, reduceCtorEq] at ran
    | some outcome =>
      obtain ⟨mid, result⟩ := outcome
      simp only [stepped] at ran
      cases continued : mid.run rest with
      | none => simp only [continued, reduceCtorEq] at ran
      | some final =>
        obtain ⟨_, later⟩ := final
        simp only [continued, Option.some.injEq, Prod.mk.injEq] at ran
        obtain ⟨rfl, rfl⟩ := ran
        have transition := transition_of_step consistent.toOrderly
          (Nat.le_trans (Nat.le_add_right _ _) bounded) stepped
        have room : mid.engine.nextVersion + begins rest ≤ versionMax := by
          rw [transition.nextVersion, Nat.add_assoc]
          refine Nat.le_trans (Nat.le_of_eq ?_) bounded
          rw [begins, begins, List.count_cons, Nat.add_comm (List.count _ _)]
          simp only [beq_iff_eq]
        have reached := ih (transition.consistent consistent) room
          (preserved _ _ _ _ consistent transition initially) continued
        simpa using reached

/-- The same from an empty engine. -/
theorem run_invariant_empty (holds : Database → List Event → Prop)
    (initially : holds empty [])
    (preserved : ∀ db event next past, Consistent db → Transition db event next →
      holds db past → holds next (past ++ [event]))
    {schedule : List Operation} (bounded : begins schedule < 2 ^ 64 - 2) {last : Database}
    {events : List Event} (ran : empty.run schedule = some (last, events)) :
    last.Consistent ∧ last.engine.nextVersion ≤ versionMax ∧ holds last events := by
  have room : empty.engine.nextVersion + begins schedule ≤ versionMax := by
    have start : empty.engine.nextVersion = 1 := by simp [empty, Engine.nextVersion]
    rw [start]
    change (1 + begins schedule : Nat) ≤ 2 ^ 64 - 1
    omega
  exact run_invariant holds preserved schedule consistent_empty room initially ran

end Database

end Radb.Storage.Mvcc
