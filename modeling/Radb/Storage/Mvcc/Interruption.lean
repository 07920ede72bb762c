import Radb.Storage.Mvcc.SnapshotIsolation

/-! # Interrupted operations

The process dies, or the engine fails, after any number of the engine writes of an
operation. The transaction is still in the active set then, unless all writes were
performed, and can be resumed. A commit that was interrupted has deleted some write
records, without which a rollback does not find the versions to undo; a rollback that was
interrupted has undone some versions, and a commit publishes the others. As long as a
transaction is ended the way it was first tried to, its writes are published all at once
or not at all.
-/

namespace Radb.Storage.Mvcc

open Foundation Foundation.Program

variable {txn : Nat} {st : TransactionState} {marks : Marks}
  {engine : Engine}

/-- An operation that is performed, or interrupted after a number of engine writes. -/
inductive Turn where
  | perform (operation : Operation)
  | interrupt (operation : Operation) (kept : Nat)
  deriving DecidableEq

/-- The operation of a turn. -/
def Turn.operation : Turn → Operation
  | perform operation => operation
  | interrupt operation _ => operation

/-- What happened in a turn: an interrupted operation has no result. -/
inductive Happening where
  | returned (event : Event)
  | interrupted (operation : Operation) (kept : Nat)

/-- The turn of a happening. -/
def Happening.turn : Happening → Turn
  | returned event => .perform event.1
  | interrupted operation kept => .interrupt operation kept

namespace Database

/-- The engine writes of an operation, in order. -/
def journal (db : Database) : Operation → List (Store.Write Key.Value)
  | .begin => (Transaction.begin.run db.engine).journal
  | .beginReadOnly => ((Transaction.beginReadOnly none).run db.engine).journal
  | .resume txn =>
    match db.transactions[txn]? with
    | none => []
    | some st => ((Transaction.resume st).run db.engine).journal
  | .use txn mode command =>
    match db.transactions[txn]? with
    | none => []
    | some st => ((access st mode command).run db.engine).journal

/-- Perform the first `kept` engine writes of an operation. With all of them the operation
has taken effect, though nobody is told. -/
def interrupt (db : Database) (operation : Operation) (kept : Nat) : Option Database :=
  match db.step operation with
  | none => none
  | some (next, _) =>
    if (db.journal operation).length ≤ kept then some next
    else
      some { db with
        engine := replayAll Store.replay db.engine ((db.journal operation).take kept) }

/-- One turn. -/
def turn (db : Database) : Turn → Option (Database × Happening)
  | .perform operation =>
    (db.step operation).map fun outcome => (outcome.1, .returned (operation, outcome.2))
  | .interrupt operation kept =>
    (db.interrupt operation kept).map fun next => (next, .interrupted operation kept)

/-- Take turns one after the other. -/
def turns (db : Database) : List Turn → Option (Database × List Happening)
  | [] => some (db, [])
  | first :: rest =>
    match db.turn first with
    | none => none
    | some (next, happening) =>
      (next.turns rest).map fun final => (final.1, happening :: final.2)

end Database

/-- The transactions of which a commit, or a rollback, was interrupted after some of its
engine writes. -/
structure Marks where
  committing : Finset Nat
  undoing : Finset Nat

namespace Marks

/-- No transaction was interrupted. -/
def empty : Marks := ⟨∅, ∅⟩

/-- The marks after a turn. -/
def after (marks : Marks) : Turn → Marks
  | .interrupt (.use txn _ .commit) (_ + 1) =>
    { marks with committing := insert txn marks.committing }
  | .interrupt (.use txn _ .rollback) (_ + 1) =>
    { marks with undoing := insert txn marks.undoing }
  | _ => marks

/-- Marks are never removed. -/
theorem committing_subset (marks : Marks) (turn : Turn) :
    marks.committing ⊆ (marks.after turn).committing := by
  intro txn marked
  unfold after
  split
  · exact Finset.mem_insert_of_mem marked
  · exact marked
  · exact marked

/-- Whether an operation ends a transaction the way it was first tried to. -/
def Permits (marks : Marks) : Operation → Prop
  | .use txn _ .commit => txn ∉ marks.undoing
  | .use txn _ .rollback => txn ∉ marks.committing
  | _ => True

instance (marks : Marks) : DecidablePred marks.Permits := fun operation => by
  unfold Permits
  split <;> infer_instance

end Marks

/-- No transaction is rolled back after an interrupted commit, nor committed after an
interrupted rollback. -/
def Careful : Marks → List Turn → Prop
  | _, [] => True
  | marks, turn :: rest => marks.Permits turn.operation ∧ Careful (marks.after turn) rest

instance decidableCareful : (marks : Marks) → (turns : List Turn) → Decidable (Careful marks turns)
  | _, [] => isTrue trivial
  | marks, turn :: rest =>
    have := decidableCareful (marks.after turn) rest
    inferInstanceAs (Decidable (_ ∧ _))

/-! ## What an interrupted operation leaves -/

namespace Database

/-- The engines an operation can leave when it is interrupted before its last write. -/
inductive Cut (db : Database) : Operation → Nat → Engine → Prop where
  | idle {operation : Operation} {kept : Nat} : Cut db operation kept db.engine
  | begin {kept : Nat} {next : Engine} (advanced : next.nextVersion = db.engine.nextVersion + 1)
      (others : ∀ key, key ≠ .nextVersion → (∀ version, key ≠ .txnActiveSnapshot version) →
        Store.get next key = Store.get db.engine key) : Cut db .begin kept next
  | write {txn : Nat} {st : TransactionState} {mode : Access} {command : Command} {kept : Nat}
      {key : Bytes} {value : Option Bytes} (written : command.written = some (key, value)) :
      Cut db (.use txn mode command) kept
        (Store.replay db.engine (.set (.txnWrite st.version key) ()))
  | commit {txn : Nat} {st : TransactionState} {mode : Access} {kept : Nat} {keys : List Key}
      (owned : db.Owns txn st) (running : txn ∉ db.ended)
      (records : ∀ key ∈ keys, ∃ user, key = .txnWrite st.version user) :
      Cut db (.use txn mode .commit) (kept + 1)
        (replayAll Store.replay db.engine (keys.map .delete))
  | rollback {txn : Nat} {st : TransactionState} {mode : Access} {kept : Nat} {keys : List Key}
      (owned : db.Owns txn st) (running : txn ∉ db.ended)
      (forms : ∀ key ∈ keys, ∃ user, key = .version user st.version ∨
        key = .txnWrite st.version user)
      (order : ∀ user, .txnWrite st.version user ∈ keys → .version user st.version ∈ keys) :
      Cut db (.use txn mode .rollback) (kept + 1)
        (replayAll Store.replay db.engine (keys.map .delete))

variable {db next : Database}

/-- A beginning of deletions that are followed by one more is a list of deletions. -/
theorem take_deletes {keys : List Key} {last : Key} {count : Nat}
    (short : count < ((keys ++ [last]).map fun key =>
      (.delete key : Store.Write Key.Value)).length) :
    ((keys ++ [last]).map fun key => (.delete key : Store.Write Key.Value)).take count =
      (keys.take count).map .delete := by
  rw [List.length_map, List.length_append, List.length_singleton] at short
  rw [← List.map_take, List.take_append_of_le_length (by omega)]

theorem cut_begin (short : kept < (db.journal .begin).length) :
    Cut db .begin kept
      (replayAll Store.replay db.engine ((db.journal .begin).take kept)) := by
  obtain ⟨active, ran, _⟩ := Transaction.begin_run db.engine
  have writes : db.journal .begin = Transaction.beginWrites db.engine.nextVersion active := by
    rw [journal, ran]
  rw [writes] at short ⊢
  cases kept with
  | zero => exact .idle
  | succ kept =>
    -- The entry in the active set is the last write.
    have middle : ∀ write ∈ (if active = ∅ then []
        else [.set (.txnActiveSnapshot db.engine.nextVersion) active] :
          List (Store.Write Key.Value)).take kept,
        write.key = .txnActiveSnapshot db.engine.nextVersion := by
      intro write member
      have inside := List.mem_of_mem_take member
      split at inside
      · cases inside
      · rw [List.mem_singleton.mp inside]
        rfl
    rw [Transaction.beginWrites, List.length_cons, List.length_append,
      List.length_singleton] at short
    rw [Transaction.beginWrites, List.take_succ_cons,
      List.take_append_of_le_length (by omega), replayAll_cons]
    refine .begin ?_ ?_
    · rw [Engine.nextVersion, Store.get_replayAll_of_ne, Store.get_set_self, Option.getD_some]
      intro write member same
      rw [middle write member] at same
      cases same
    · intro key next snapshot
      rw [Store.get_replayAll_of_ne, Store.get_set_of_ne _ _ next]
      intro write member same
      rw [middle write member] at same
      exact snapshot _ same

/-- A program that stops at once has no writes to be interrupted between. -/
theorem journal_ended (orderly : db.Orderly) (owned : db.Owns txn st) (ended : txn ∈ db.ended)
    (command : Command) :
    ((access st .resumed command).run db.engine).journal = [] := by
  obtain ⟨error, stopped⟩ := Transaction.resume_stop db.engine st owned.2
    (orderly.not_active_of_ended owned ended)
  simp only [access, bind_eq_andThen]
  rw [andThen_of_stop _ stopped]

theorem journal_program {First Second : Type} (program : Session First) (function : First → Second)
    (engine : Engine) : ((andThen program fun value => ret (function value)).run engine).journal =
      (program.run engine).journal := by
  rw [andThen_ret_run]

/-- A usable transaction's operation that is interrupted before its last write. -/
theorem cut_use {mode : Access} {command : Command} (orderly : db.Orderly)
    (usable : db.Usable txn st)
    (short : kept < ((access st mode command).run db.engine).journal.length) :
    Cut db (.use txn mode command) kept (replayAll Store.replay db.engine
      (((access st mode command).run db.engine).journal.take kept)) := by
  have written {key : Bytes} {value : Option Bytes}
      (writes : command.written = some (key, value))
      (program : ((access st mode command).run db.engine).journal =
        ((Transaction.writeVersion st key value).run db.engine).journal) :
      Cut db (.use txn mode command) kept (replayAll Store.replay db.engine
        (((access st mode command).run db.engine).journal.take kept)) := by
    rw [program] at short ⊢
    cases readOnly : st.readOnly with
    | true =>
      rw [Transaction.writeVersion_readOnly db.engine st key value readOnly] at short
      simp at short
    | false =>
      rcases Transaction.writeVersion_run db.engine st key value readOnly with
        ⟨failed, _⟩ | ⟨wrote, _⟩
      · rw [failed] at short
        simp at short
      · rw [wrote] at short ⊢
        rcases kept with _ | _ | kept
        · exact .idle
        · exact .write writes
        · change kept + 1 + 1 < 2 at short
          omega
  rw [access_run orderly usable] at short written ⊢
  have running (writable : st.readOnly = false) : txn ∉ db.ended :=
    usable.2.resolve_left (by simp [writable])
  cases command with
  | get key =>
    obtain ⟨value, read, _⟩ := Transaction.get_run db.engine st key
    simp only [Command.program, bind_eq_andThen, journal_program, read, List.length_nil,
      Nat.not_lt_zero] at short
  | set | delete => exact written rfl (journal_program _ _ _)
  | commit =>
    simp only [Command.program, bind_eq_andThen, journal_program] at short ⊢
    cases readOnly : st.readOnly with
    | true =>
      rw [Transaction.commit_readOnly db.engine st readOnly] at short
      simp at short
    | false =>
      obtain ⟨records, ran, members⟩ := Transaction.commit_deletes db.engine st readOnly
      rw [ran] at short ⊢
      cases kept with
      | zero => exact .idle
      | succ kept =>
        rw [take_deletes short]
        refine .commit ⟨usable.1, readOnly⟩ (running readOnly) ?_
        intro key member
        obtain ⟨user, same, _⟩ := (members key).mp (List.mem_of_mem_take member)
        exact ⟨user, same⟩
  | rollback =>
    simp only [Command.program, bind_eq_andThen, journal_program] at short ⊢
    cases readOnly : st.readOnly with
    | true =>
      rw [Transaction.rollback_readOnly db.engine st readOnly] at short
      simp at short
    | false =>
      obtain ⟨keys, ran, members, order⟩ := Transaction.rollback_deletes db.engine st readOnly
      rw [ran] at short ⊢
      cases kept with
      | zero => exact .idle
      | succ kept =>
        rw [take_deletes short]
        refine .rollback ⟨usable.1, readOnly⟩ (running readOnly) ?_ (order _)
        intro key member
        obtain ⟨user, forms, _⟩ := (members key).mp (List.mem_of_mem_take member)
        exact ⟨user, forms⟩

/-- An interrupted operation takes effect as a whole, or is cut. -/
theorem cut_of_interrupt (orderly : db.Orderly) (bounded : db.engine.nextVersion ≤ versionMax)
    (interrupted : db.interrupt operation kept = some next) :
    (∃ result, Transition db (operation, result) next) ∨
      ∃ engine, next = { db with engine := engine } ∧ Cut db operation kept engine := by
  unfold interrupt at interrupted
  cases stepped : db.step operation with
  | none => simp [stepped] at interrupted
  | some outcome =>
    obtain ⟨whole, result⟩ := outcome
    simp only [stepped] at interrupted
    split at interrupted
    · cases interrupted
      exact .inl ⟨result, transition_of_step orderly bounded stepped⟩
    next short =>
      rw [Nat.not_le] at short
      cases interrupted
      refine .inr ⟨_, rfl, ?_⟩
      cases operation with
      | begin => exact cut_begin short
      | beginReadOnly =>
        obtain ⟨active, ran, _⟩ := Transaction.beginReadOnly_run db.engine
        simp [journal, ran] at short
      | resume txn =>
        cases found : db.transactions[txn]? with
        | none => simp [journal, found] at short
        | some st =>
          rcases usable_or_ended found with usable | ⟨owned, ended⟩
          · have resumed := Transaction.resume_run db.engine st (usable.valid orderly)
            simp [journal, found, resumed] at short
          · obtain ⟨error, stopped⟩ := Transaction.resume_stop db.engine st owned.2
              (orderly.not_active_of_ended owned ended)
            simp [journal, found, stopped] at short
      | use txn mode =>
        cases found : db.transactions[txn]? with
        | none => simp [journal, found] at short
        | some st =>
          simp only [journal, found] at short ⊢
          rcases usable_or_ended found with usable | ⟨owned, ended⟩
          · exact cut_use orderly usable short
          · cases mode with
            | handle => simp [step, found, ended] at stepped
            | resumed =>
              rw [journal_ended orderly owned ended] at short
              cases short

/-! ## The invariant -/

theorem Orderly.of_engine (orderly : db.Orderly)
    (later : db.engine.nextVersion ≤ engine.nextVersion)
    (active : ∀ version, engine.Active version ↔ db.engine.Active version)
    (versions : ∀ {key version value}, Store.get engine (.version key version) = some value →
      Store.get db.engine (.version key version) = some value) :
    Orderly { db with engine := engine } := by
  constructor
  · exact orderly.ended_lt
  · exact orderly.unique
  · intro txn st owned
    exact Nat.lt_of_lt_of_le (orderly.writer_lt owned) later
  · intro txn st found
    exact Nat.le_trans (orderly.version_le found) later
  · intro version
    rw [active]
    exact orderly.active_iff version
  · exact orderly.snapshot_lt
  · intro txn st version found isActive below
    exact orderly.still_active found ((active version).mp isActive) below
  · exact orderly.nested
  · intro key version value present
    exact orderly.stored (versions present)
  · intro key older newer first second presentOlder presentNewer below
    rw [active]
    exact orderly.chain (versions presentOlder) (versions presentNewer) below

namespace Cut

variable {operation : Operation} {kept : Nat} {engine : Engine}

section

variable (cut : Cut db operation kept engine)

include cut

/-- A cut operation leaves all but the next version, the snapshots of the active set, and
the records and versions of its transaction. -/
theorem get_of_ne {key : Key} (next : key ≠ .nextVersion)
    (snapshot : ∀ version, key ≠ .txnActiveSnapshot version)
    (record : ∀ version user, key ≠ .txnWrite version user)
    (version : ∀ version user, key ≠ .version user version) :
    Store.get engine key = Store.get db.engine key := by
  cases cut with
  | idle => rfl
  | begin advanced others => exact others key next snapshot
  | write => exact Store.get_set_of_ne _ _ (record _ _)
  | commit owned running records =>
    rw [Store.get_replayAll_deletes, if_neg]
    intro member
    obtain ⟨user, same⟩ := records key member
    exact record _ _ same
  | rollback owned running forms =>
    rw [Store.get_replayAll_deletes, if_neg]
    intro member
    obtain ⟨user, same | same⟩ := forms key member
    · exact version _ _ same
    · exact record _ _ same

theorem nextVersion :
    db.engine.nextVersion ≤ engine.nextVersion ∧
      engine.nextVersion ≤ db.engine.nextVersion + if operation = .begin then 1 else 0 := by
  have same (unmoved : Store.get engine .nextVersion = Store.get db.engine .nextVersion) :
      db.engine.nextVersion ≤ engine.nextVersion ∧
        engine.nextVersion ≤ db.engine.nextVersion + if operation = .begin then 1 else 0 := by
    rw [Engine.nextVersion, Engine.nextVersion, unmoved]
    exact ⟨Nat.le_refl _, Nat.le_add_right _ _⟩
  cases cut with
  | idle => exact same rfl
  | begin advanced => rw [advanced]; exact ⟨Nat.le_succ _, Nat.le_refl _⟩
  | write => exact same (Store.get_set_of_ne _ _ (by simp))
  | commit owned running records =>
    apply same
    rw [Store.get_replayAll_deletes, if_neg]
    intro member
    obtain ⟨user, same⟩ := records _ member
    cases same
  | rollback owned running forms =>
    apply same
    rw [Store.get_replayAll_deletes, if_neg]
    intro member
    obtain ⟨user, same | same⟩ := forms _ member <;> cases same

theorem active (version : Version) : engine.Active version ↔ db.engine.Active version := by
  rw [Engine.Active, Engine.Active, cut.get_of_ne (by simp) (by simp) (by simp) (by simp)]

theorem versions (key : Bytes) (version : Version) :
    Store.get engine (.version key version) = Store.get db.engine (.version key version) ∨
      ∃ txn st mode, db.Owns txn st ∧ txn ∉ db.ended ∧ operation = .use txn mode .rollback ∧
        version = st.version ∧ Store.get engine (.version key version) = none := by
  cases cut with
  | idle => exact .inl rfl
  | begin advanced others => exact .inl (others _ (by simp) (by simp))
  | write => exact .inl (Store.get_set_of_ne _ _ (by simp))
  | commit owned running records =>
    rw [Store.get_replayAll_deletes, if_neg]
    · exact .inl rfl
    · intro member
      obtain ⟨user, same⟩ := records _ member
      cases same
  | @rollback txn st mode kept keys owned running forms =>
    rw [Store.get_replayAll_deletes]
    split
    next member =>
      obtain ⟨user, same | same⟩ := forms _ member
      · cases same
        exact .inr ⟨txn, st, mode, owned, running, rfl, rfl, rfl⟩
      · cases same
    next => exact .inl rfl

theorem orderly (before : db.Orderly) : Orderly { db with engine := engine } := by
  refine before.of_engine cut.nextVersion.1 cut.active ?_
  intro key version value present
  rcases cut.versions key version with same | ⟨_, _, _, _, _, _, _, gone⟩
  · rw [← same]
    exact present
  · rw [gone] at present
    cases present

end

end Cut

/-! ## Write records -/

/-- Transactions that were not interrupted while committing have write records for all
versions they stored. -/
def Recorded (db : Database) (marks : Marks) : Prop :=
  ∀ {txn : Nat} {st : TransactionState}, db.Owns txn st → txn ∉ db.ended →
    txn ∉ marks.committing → db.engine.Logged st.version

theorem Transition.recorded {event : Event} (transition : Transition db event next)
    (orderly : db.Orderly) (recorded : db.Recorded marks) : next.Recorded marks := by
  intro txn st owned running unmarked
  cases transition with
  | @begin active =>
    have kept (key : Key) (first : key ≠ .nextVersion)
        (second : ∀ version, key ≠ .txnActiveSnapshot version)
        (third : ∀ version, key ≠ .txnActive version) :=
      Transaction.get_begun db.engine active first second third
    obtain ⟨found, writable⟩ := owned
    rcases getElem?_snoc found with found | ⟨_, rfl⟩
    · exact (recorded ⟨found, writable⟩ running unmarked).congr
        (fun key => kept _ (by simp) (by simp) (by simp))
        (fun key => kept _ (by simp) (by simp) (by simp))
    · intro key stored present
      rw [kept _ (by simp) (by simp) (by simp)] at present
      exact absurd (orderly.stored_lt present) (Nat.lt_irrefl _)
  | beginReadOnly =>
    obtain ⟨found, writable⟩ := owned
    rcases getElem?_snoc found with found | ⟨_, rfl⟩
    · exact recorded ⟨found, writable⟩ running unmarked
    · cases writable
  | @write writer state mode command key =>
    intro user stored present
    by_cases same : user = key ∧ st.version = state.version
    · rw [same.1, same.2]
      exact Transaction.get_written_record _ _ _ _
    · rw [Transaction.get_written_of_ne _ _ _ _ (by simp) (by simpa using same)] at present
      rw [Transaction.get_written_of_ne _ _ _ _ (by simpa [and_comm] using same) (by simp)]
      exact recorded owned running unmarked user stored present
  | @commit ending state mode engine ownedEnding runningEnding removed =>
    have other : st.version ≠ state.version := fun equal =>
      running (orderly.unique owned ownedEnding equal ▸ Finset.mem_insert_self _ _)
    refine (recorded owned (fun ended => running (Finset.mem_insert_of_mem ended))
      unmarked).congr (fun key => ?_) (fun key => ?_)
    · exact (removed _).2 (by simp)
    · exact (removed _).2 (by simpa using other)
  | @rollback ending state mode engine ownedEnding runningEnding removed =>
    have other : st.version ≠ state.version := fun equal =>
      running (orderly.unique owned ownedEnding equal ▸ Finset.mem_insert_self _ _)
    refine (recorded owned (fun ended => running (Finset.mem_insert_of_mem ended))
      unmarked).congr (fun key => ?_) (fun key => ?_)
    · exact (removed _).2 (by simp [other])
    · exact (removed _).2 (by simpa using other)
  | endReadOnly =>
    exact recorded owned (fun ended => running (Finset.mem_insert_of_mem ended)) unmarked
  | _ => exact recorded owned running unmarked

theorem Cut.recorded (cut : Cut db operation kept engine) (orderly : db.Orderly)
    (recorded : db.Recorded marks) :
    Recorded { db with engine := engine } (marks.after (.interrupt operation kept)) := by
  intro txn st owned running unmarked
  have before (unmarked : txn ∉ marks.committing) : db.engine.Logged st.version :=
    recorded owned running unmarked
  cases cut with
  | idle => exact before fun marked => unmarked (marks.committing_subset _ marked)
  | begin advanced others =>
    exact (before unmarked).congr (fun key => others _ (by simp) (by simp))
      fun key => others _ (by simp) (by simp)
  | @write writer state mode command kept key value written =>
    have unmarked : txn ∉ marks.committing := by
      cases command with
      | commit => cases written
      | rollback => cases written
      | _ => exact unmarked
    intro user stored present
    rw [Store.get_set_of_ne _ _ (by simp)] at present
    by_cases same : st.version = state.version ∧ user = key
    · rw [same.1, same.2]
      exact Store.get_set_self _ _ _
    · rw [Store.get_set_of_ne _ _ (by simpa using same)]
      exact before unmarked user stored present
  | @commit writer state mode kept keys ownedWriter runningWriter records =>
    rw [Marks.after, Finset.mem_insert, not_or] at unmarked
    have other : st.version ≠ state.version := fun equal =>
      unmarked.1 (orderly.unique owned ownedWriter equal)
    refine (before unmarked.2).congr (fun key => ?_) fun key => ?_
    · rw [Store.get_replayAll_deletes, if_neg]
      intro member
      obtain ⟨user, same⟩ := records _ member
      cases same
    · rw [Store.get_replayAll_deletes, if_neg]
      intro member
      obtain ⟨user, same⟩ := records _ member
      exact other (Key.txnWrite.inj same).1
  | @rollback writer state mode kept keys ownedWriter runningWriter forms order =>
    rw [Marks.after] at unmarked
    intro user stored present
    rw [Store.get_replayAll_deletes] at present ⊢
    split at present
    · cases present
    next stays =>
      rw [if_neg]
      · exact before unmarked user stored present
      · intro member
        obtain ⟨named, same | same⟩ := forms _ member
        · cases same
        · obtain ⟨sameVersion, rfl⟩ := Key.txnWrite.inj same
          rw [sameVersion] at member stays
          exact stays (order _ member)

end Database

namespace Refines

variable {db : Database} {store : Isolated} (refines : Refines db store)
include refines

/-- An engine with the same versions and the same active set refines the same store. -/
theorem of_engine (active : ∀ version, engine.Active version ↔ db.engine.Active version)
    (versions : ∀ key version, Store.get engine (.version key version) =
      Store.get db.engine (.version key version)) :
    Refines { db with engine := engine } store where
  length := refines.length
  committed key := (refines.committed key).congr fun version stored => by rw [versions, active]
  transactions := by
    intro txn st snapshot found present
    have represents := refines.transactions found present
    refine ⟨represents.live, fun key => ?_, fun writable running key => ?_, represents.readOnly⟩
    · exact (represents.base key).congr fun version stored => by rw [versions]
    · rw [versions]
      exact represents.writes writable running key

theorem undo (orderly : db.Orderly) {gone : Bytes → Bool} (owned : db.Owns txn st)
    (running : txn ∉ db.ended)
    (active : ∀ version, engine.Active version ↔ db.engine.Active version)
    (others : ∀ key version, version ≠ st.version → Store.get engine (.version key version) =
      Store.get db.engine (.version key version))
    (own : ∀ key, Store.get engine (.version key st.version) =
      if gone key then none else Store.get db.engine (.version key st.version)) :
    Refines { db with engine := engine } (store.forget txn gone) where
  length := by simp [SnapshotStore.forget, refines.length]
  committed key := by
    refine (refines.committed key).congr fun version stored => ?_
    rw [active, and_congr_right_iff]
    intro inactive
    rw [others]
    rintro rfl
    exact inactive (orderly.active_of_owns owned running)
  transactions := by
    intro other reader snapshot found present
    rw [SnapshotStore.forget, List.getElem?_modify] at present
    obtain ⟨before, presentBefore, rfl⟩ := Option.map_eq_some_iff.mp present
    have represents := refines.transactions found presentBefore
    have base (key : Bytes) := refines.base_congr orderly key owned running others found
      presentBefore
    by_cases same : txn = other
    · subst same
      obtain rfl := Option.some.inj (found.symm.trans owned.1)
      simp only [↓reduceIte]
      refine ⟨represents.live, base, ?_, ?_⟩
      · intro writable _ key
        rw [own, ← represents.writes writable running key]
      · intro readOnly
        simp [owned.2] at readOnly
    · simp only [same, ↓reduceIte]
      refine ⟨represents.live, base, ?_, represents.readOnly⟩
      intro writable runningOther key
      rw [others key _ (refines.version_ne orderly owned ⟨found, writable⟩ (Ne.symm same))]
      exact represents.writes writable runningOther key

theorem cut (orderly : db.Orderly) (cut : Database.Cut db operation kept engine) :
    Refines { db with engine := engine } store ∨
      ∃ txn mode count gone, operation = .use txn mode .rollback ∧ kept = count + 1 ∧
        Refines { db with engine := engine } (store.forget txn gone) := by
  have active := cut.active
  cases cut with
  | @rollback txn st mode kept keys owned running forms =>
    refine .inr ⟨txn, mode, kept, fun key => decide (.version key st.version ∈ keys), rfl, rfl, ?_⟩
    refine refines.undo orderly owned running active ?_ ?_
    · intro key version different
      rw [Store.get_replayAll_deletes, if_neg]
      intro member
      obtain ⟨user, same | same⟩ := forms _ member
      · exact different (Key.version.inj same).2
      · cases same
    · intro key
      rw [Store.get_replayAll_deletes]
      by_cases member : Key.version key st.version ∈ keys
      · simp [member]
      · simp [member]
  | idle => exact .inl refines
  | begin advanced others =>
    exact .inl (refines.of_engine active fun key version => others _ (by simp) (by simp))
  | write =>
    exact .inl (refines.of_engine active fun key version => Store.get_set_of_ne _ _ (by simp))
  | commit owned running records =>
    refine .inl (refines.of_engine active ?_)
    intro key version
    rw [Store.get_replayAll_deletes, if_neg]
    intro member
    obtain ⟨user, same⟩ := records _ member
    cases same

end Refines

/-! ## Explaining interrupted runs -/

/-- What the abstract store allows to happen, and where it leads. -/
inductive Recounts (store : Isolated) (marks : Marks) : Happening → Isolated → Prop where
  | returned {event : Event} {later : Isolated} (permitted : marks.Permits event.1)
      (explains : Explains store event later) : Recounts store marks (.returned event) later
  /-- An interrupted operation has taken effect as a whole. -/
  | completed {operation : Operation} {kept : Nat} {result : Except Error Response}
      {later : Isolated} (permitted : marks.Permits operation)
      (explains : Explains store (operation, result) later) :
      Recounts store marks (.interrupted operation kept) later
  /-- An interrupted operation has had no effect. -/
  | lost {operation : Operation} {kept : Nat} :
      Recounts store marks (.interrupted operation kept) store
  /-- An interrupted rollback has undone some writes of its transaction, which cannot be
  committed any more. -/
  | undone {txn : Nat} {mode : Access} {kept : Nat} {gone : Bytes → Bool} :
      Recounts store marks (.interrupted (.use txn mode .rollback) (kept + 1))
        (store.forget txn gone)

/-- A whole run recounted by the abstract store. -/
inductive Recounted (start : Isolated) : List Happening → Marks → Isolated → Prop where
  | nil : Recounted start [] .empty start
  | snoc {happenings : List Happening} {marks : Marks} {mid last : Isolated}
      {happening : Happening} (before : Recounted start happenings marks mid)
      (recounts : Recounts mid marks happening last) :
      Recounted start (happenings ++ [happening]) (marks.after happening.turn) last

/-- The number of read-write transactions that are begun, or are interrupted in beginning. -/
def Turn.begins (turns : List Turn) : Nat := (turns.map operation).count .begin

namespace Database

theorem recounts_of_turn {db next : Database} {store : Isolated} {turn : Turn}
    {happening : Happening} (orderly : db.Orderly) (recorded : db.Recorded marks)
    (refines : Refines db store) (bounded : db.engine.nextVersion ≤ versionMax)
    (permitted : marks.Permits turn.operation) (taken : db.turn turn = some (next, happening)) :
    happening.turn = turn ∧ next.Orderly ∧ next.Recorded (marks.after turn) ∧
      next.engine.nextVersion ≤
        db.engine.nextVersion + (if turn.operation = .begin then 1 else 0) ∧
      ∃ later, Recounts store marks happening later ∧ Refines next later := by
  have logged {operation : Operation} (permitted : marks.Permits operation) {txn : Nat}
      {st : TransactionState} (owned : db.Owns txn st) (running : txn ∉ db.ended)
      (rolling : ∃ mode, operation = .use txn mode .rollback) : db.engine.Logged st.version := by
    obtain ⟨mode, rfl⟩ := rolling
    exact recorded owned running permitted
  cases turn with
  | perform =>
    obtain ⟨⟨stepped, result⟩, step, same⟩ := Option.map_eq_some_iff.mp taken
    cases same
    have transition := transition_of_step orderly bounded step
    obtain ⟨later, explains, refinesLater⟩ :=
      refines.explains_of_logged orderly (logged permitted) transition
    exact ⟨rfl, transition.orderly orderly, transition.recorded orderly recorded,
      transition.nextVersion.le, later, .returned permitted explains, refinesLater⟩
  | interrupt =>
    obtain ⟨reached, interrupted, same⟩ := Option.map_eq_some_iff.mp taken
    cases same
    rcases cut_of_interrupt orderly bounded interrupted with
      ⟨result, transition⟩ | ⟨engine, rfl, cut⟩
    · obtain ⟨later, explains, refinesLater⟩ :=
        refines.explains_of_logged orderly (logged permitted) transition
      refine ⟨rfl, transition.orderly orderly, ?_, transition.nextVersion.le, later,
        .completed permitted explains, refinesLater⟩
      intro txn st owned running unmarked
      exact transition.recorded orderly recorded owned running
        fun marked => unmarked (marks.committing_subset _ marked)
    · refine ⟨rfl, cut.orderly orderly, cut.recorded orderly recorded, cut.nextVersion.2, ?_⟩
      rcases refines.cut orderly cut with same | ⟨txn, mode, count, gone, rfl, rfl, undone⟩
      · exact ⟨store, .lost, same⟩
      · exact ⟨_, .undone, undone⟩

/-- Turns that end every transaction the way it was first tried to are recounted. -/
theorem turns_recounted {turns : List Turn} {db last : Database} {store : Isolated}
    {past happenings : List Happening} (orderly : db.Orderly) (recorded : db.Recorded marks)
    (refines : Refines db store) (explained : Recounted SnapshotStore.empty past marks store)
    (bounded : db.engine.nextVersion + Turn.begins turns ≤ versionMax)
    (careful : Careful marks turns) (ran : db.turns turns = some (last, happenings)) :
    ∃ final marks, Recounted SnapshotStore.empty (past ++ happenings) marks final ∧
      Refines last final := by
  induction turns generalizing db store marks past happenings with
  | nil =>
    cases ran
    exact ⟨store, marks, by simpa using explained, refines⟩
  | cons turn rest ih =>
    obtain ⟨permitted, careful⟩ := careful
    unfold Database.turns at ran
    cases taken : db.turn turn with
    | none => simp [taken] at ran
    | some outcome =>
      obtain ⟨next, happening⟩ := outcome
      simp only [taken] at ran
      obtain ⟨⟨final, later⟩, continued, same⟩ := Option.map_eq_some_iff.mp ran
      cases same
      obtain ⟨rfl, orderlyNext, recordedNext, advanced, reached, recounts, refinesNext⟩ :=
        recounts_of_turn orderly recorded refines
          (Nat.le_trans (Nat.le_add_right _ _) bounded) permitted taken
      have room : next.engine.nextVersion + Turn.begins rest ≤ versionMax := by
        refine Nat.le_trans (Nat.add_le_add_right advanced _) (Nat.le_trans (Nat.le_of_eq ?_)
          bounded)
        rw [Turn.begins, Turn.begins, List.map_cons, List.count_cons, Nat.add_assoc,
          Nat.add_comm (List.count _ _)]
        simp only [beq_iff_eq]
      have whole := ih orderlyNext recordedNext refinesNext (explained.snoc recounts) room
        careful continued
      simpa using whole

end Database

/-- In every run in which operations may be interrupted after any number of their engine
writes, and every transaction is ended the way it was first tried to, what transactions
read is explained by an abstract store that publishes all writes of a transaction at once
when it commits, and none when it is rolled back. -/
theorem interrupted_explained {turns : List Turn} (careful : Careful .empty turns)
    (bounded : Turn.begins turns < 2 ^ 64 - 2) {last : Database} {happenings : List Happening}
    (ran : Database.empty.turns turns = some (last, happenings)) :
    ∃ store marks, Recounted SnapshotStore.empty happenings marks store ∧ Refines last store := by
  have start : Database.empty.engine.nextVersion = 1 := by simp [Database.empty, Engine.nextVersion]
  have room : Database.empty.engine.nextVersion + Turn.begins turns ≤ versionMax := by
    rw [start]
    change (1 + Turn.begins turns : Nat) ≤ 2 ^ 64 - 1
    omega
  refine Database.turns_recounted Database.orderly_empty ?_ Refines.empty .nil room careful ran
  intro txn st owned
  simp [Database.Owns, Database.empty] at owned

/-- A transaction sets two keys. Its commit is interrupted after the first engine write and
performed again; then a reader begins. -/
def retried : List Turn :=
  [.perform .begin, .perform (.use 0 .handle (.set [1] [10])),
    .perform (.use 0 .handle (.set [2] [20])), .interrupt (.use 0 .handle .commit) 1,
    .perform (.use 0 .resumed .commit), .perform .beginReadOnly,
    .perform (.use 1 .handle (.get [1])), .perform (.use 1 .handle (.get [2]))]

theorem interrupted_explained_retried : ∃ last happenings store marks,
    Database.empty.turns retried = some (last, happenings) ∧
      Recounted SnapshotStore.empty happenings marks store ∧ Refines last store := by
  have ran : (Database.empty.turns retried).isSome = true := by decide +kernel
  obtain ⟨⟨last, happenings⟩, ran⟩ := Option.isSome_iff_exists.mp ran
  obtain ⟨store, marks, recounted, refines⟩ :=
    interrupted_explained (by decide) (by decide) ran
  exact ⟨last, happenings, store, marks, ran, recounted, refines⟩

/-- The values that readers get, in order. -/
def Happening.values (happenings : List Happening) : List (Option Bytes) :=
  happenings.filterMap fun
    | .returned (_, .ok (.value value)) => some value
    | _ => none

/-- A transaction sets two keys, and its commit or its rollback is interrupted; it is then
ended the other way, and a reader begins. -/
def diverted (first second : Command) (kept : Nat) : List Turn :=
  [.perform .begin, .perform (.use 0 .handle (.set [1] [10])),
    .perform (.use 0 .handle (.set [2] [20])), .interrupt (.use 0 .handle first) kept,
    .perform (.use 0 .resumed second), .perform .beginReadOnly,
    .perform (.use 1 .handle (.get [1])), .perform (.use 1 .handle (.get [2]))]

/-- The reader sees one of the two writes of a transaction that was rolled back, and one of
the two writes of a transaction that was committed. -/
theorem interrupted_write_torn :
    (Database.empty.turns (diverted .commit .rollback 1)).map (fun final =>
        Happening.values final.2) = some [some [10], none] ∧
      (Database.empty.turns (diverted .rollback .commit 1)).map (fun final =>
        Happening.values final.2) = some [none, some [20]] := by
  decide +kernel

end Radb.Storage.Mvcc
