import Radb.Storage.Mvcc.Transition

/-! # Lost updates

Whether two transactions were concurrent is a matter of the order of events: one
of them ended before the other began, or not. This module ties that order to the
versions and active sets the engine keeps, and derives that write conflicts are
detected exactly between concurrent writers of a key.
-/

namespace Radb.Storage.Mvcc

open Foundation Foundation.Program

variable {events : List Event} {event : Event} {txn first second : Nat} {command : Command}
  {key : Bytes} {st : TransactionState}

/-- Whether an event begins a transaction. -/
def Event.begins : Event → Bool
  | (.begin, .ok _) | (.beginReadOnly, .ok _) => true
  | _ => false

/-- The write, commit or rollback that an event successfully performs. -/
def Event.performs : Event → Option (Nat × Command)
  | (.use txn _ command, .ok .done) => some (txn, command)
  | _ => none

/-- A transaction successfully performed a command that returns no value. -/
def Did (events : List Event) (txn : Nat) (command : Command) : Prop :=
  ∃ event ∈ events, Event.performs event = some (txn, command)

/-- A transaction successfully wrote a key. -/
def Wrote (events : List Event) (txn : Nat) (key : Bytes) : Prop :=
  ∃ command value, command.written = some (key, value) ∧ Did events txn command

/-- A transaction performed a command before another one began; transactions are
numbered in the order in which they began. -/
def DidBefore (events : List Event) (first : Nat) (command : Command) (second : Nat) : Prop :=
  ∃ before event after, events = before ++ event :: after ∧ Did before first command ∧
    Event.begins event = true ∧ before.countP Event.begins = second

theorem did_snoc :
    Did (events ++ [event]) txn command ↔
      Did events txn command ∨ Event.performs event = some (txn, command) := by
  simp only [Did, List.mem_append, List.mem_singleton]
  constructor
  · rintro ⟨found, member | rfl, performs⟩
    · exact .inl ⟨found, member, performs⟩
    · exact .inr performs
  · rintro (⟨found, member, performs⟩ | performs)
    · exact ⟨found, .inl member, performs⟩
    · exact ⟨event, .inr rfl, performs⟩

theorem wrote_snoc :
    Wrote (events ++ [event]) txn key ↔ Wrote events txn key ∨
      ∃ command value, command.written = some (key, value) ∧
        Event.performs event = some (txn, command) := by
  simp only [Wrote, did_snoc]
  constructor
  · rintro ⟨command, value, written, before | now⟩
    · exact .inl ⟨command, value, written, before⟩
    · exact .inr ⟨command, value, written, now⟩
  · rintro (⟨command, value, written, before⟩ | ⟨command, value, written, now⟩)
    · exact ⟨command, value, written, .inl before⟩
    · exact ⟨command, value, written, .inr now⟩

/-- The transaction that something precedes has begun. -/
theorem DidBefore.lt (before : DidBefore events first command second) :
    second < events.countP Event.begins := by
  obtain ⟨earlier, event, later, rfl, _, began, rfl⟩ := before
  rw [List.countP_append, List.countP_cons_of_pos began]
  omega

theorem DidBefore.did (before : DidBefore events first command second) :
    Did events first command := by
  obtain ⟨earlier, event, later, rfl, ⟨found, member, performs⟩, _⟩ := before
  exact ⟨found, List.mem_append_left _ member, performs⟩

theorem didBefore_snoc :
    DidBefore (events ++ [event]) first command second ↔
      DidBefore events first command second ∨
        Did events first command ∧ Event.begins event = true ∧
          events.countP Event.begins = second := by
  constructor
  · rintro ⟨before, found, after, split, did, began, number⟩
    rcases List.eq_nil_or_concat after with rfl | ⟨rest, final, rfl⟩
    · obtain ⟨rfl, same⟩ := List.append_inj' split rfl
      cases same
      exact .inr ⟨did, began, number⟩
    · rw [List.concat_eq_append, ← List.cons_append, ← List.append_assoc] at split
      obtain ⟨rfl, _⟩ := List.append_inj' split rfl
      exact .inl ⟨before, found, rest, rfl, did, began, number⟩
  · rintro (⟨before, found, after, rfl, did, began, number⟩ | ⟨did, began, number⟩)
    · exact ⟨before, found, after ++ [event], by simp, did, began, number⟩
    · exact ⟨events, event, [], rfl, did, began, number⟩

/-- What the database remembers of its past. -/
structure Recorded (db : Database) (past : List Event) : Prop where
  length : past.countP Event.begins = db.transactions.length
  ended : ∀ txn, txn ∈ db.ended ↔ Did past txn .commit ∨ Did past txn .rollback
  /-- Only read-write transactions write. -/
  writer : ∀ {txn : Nat} {key : Bytes}, Wrote past txn key → ∃ st, db.Owns txn st
  /-- No transaction that wrote both commits and rolls back. -/
  once : ∀ {txn : Nat} {st : TransactionState}, db.Owns txn st →
    ¬ (Did past txn .commit ∧ Did past txn .rollback)
  /-- The stored versions are the writes that were not rolled back. -/
  stored : ∀ {txn : Nat} {st : TransactionState}, db.Owns txn st → ∀ key,
    (∃ value, Store.get db.engine (.version key st.version) = some value) ↔
      Wrote past txn key ∧ ¬ Did past txn .rollback
  /-- A writer is in another transaction's past if it had ended when that began. -/
  precedes : ∀ {txn other : Nat} {writer st : TransactionState}, db.Owns txn writer →
    db.transactions[other]? = some st →
      (writer.version < st.version ∧ writer.version ∉ st.active ↔
        DidBefore past txn .commit other ∨ DidBefore past txn .rollback other)

namespace Recorded

theorem empty : Recorded Database.empty [] where
  length := rfl
  ended := by simp [Database.empty, Did]
  writer := by simp [Wrote, Did]
  once := by simp [Did]
  stored := by simp [Database.Owns, Database.empty]
  precedes := by simp [Database.Owns, Database.empty]

variable {db : Database} {past : List Event} (recorded : Recorded db past)
include recorded

/-- An event that performs and begins nothing is not remembered. -/
theorem silent (performs : Event.performs event = none) (begins : Event.begins event = false) :
    Recorded db (past ++ [event]) := by
  have same (txn : Nat) (command : Command) :
      Did (past ++ [event]) txn command ↔ Did past txn command := by
    simp [did_snoc, performs]
  have sameOrder (first : Nat) (command : Command) (second : Nat) :
      DidBefore (past ++ [event]) first command second ↔ DidBefore past first command second := by
    simp [didBefore_snoc, begins]
  have sameWrites (txn : Nat) (key : Bytes) :
      Wrote (past ++ [event]) txn key ↔ Wrote past txn key := by
    simp [wrote_snoc, performs]
  constructor
  · simp [recorded.length, begins]
  · simpa only [same] using recorded.ended
  · simpa only [sameWrites] using @recorded.writer
  · simpa only [same] using @recorded.once
  · simpa only [same, sameWrites] using @recorded.stored
  · simpa only [sameOrder] using @recorded.precedes

theorem begin (consistent : db.Consistent) {next : Engine}
    (performs : Event.performs event = none) (begins : Event.begins event = true)
    (members : ∀ version, version ∈ st.active ↔ db.engine.Active version)
    (stamp : st.version = db.engine.nextVersion)
    (versions : ∀ key version, Store.get next (.version key version) =
      Store.get db.engine (.version key version)) :
    Recorded ⟨next, db.transactions ++ [st], db.ended⟩ (past ++ [event]) := by
  have same (txn : Nat) (command : Command) :
      Did (past ++ [event]) txn command ↔ Did past txn command := by
    simp [did_snoc, performs]
  have sameWrites (txn : Nat) (key : Bytes) :
      Wrote (past ++ [event]) txn key ↔ Wrote past txn key := by
    simp [wrote_snoc, performs]
  have newer : ¬ (Did past db.transactions.length .commit ∨
      Did past db.transactions.length .rollback) := fun did =>
    Nat.lt_irrefl _ (consistent.ended_lt _ ((recorded.ended _).mpr did))
  constructor
  · simp [recorded.length, begins]
  · simpa only [same] using recorded.ended
  · intro txn key wrote
    obtain ⟨writer, owned⟩ := recorded.writer ((sameWrites txn key).mp wrote)
    exact ⟨writer, Database.getElem?_snoc_of_some owned.1, owned.2⟩
  · rintro txn writer ⟨found, writable⟩
    simp only [same]
    rcases Database.getElem?_snoc found with found | ⟨rfl, _⟩
    · exact recorded.once ⟨found, writable⟩
    · exact fun both => newer (.inl both.1)
  · rintro txn writer ⟨found, writable⟩ key
    simp only [same, sameWrites, versions]
    rcases Database.getElem?_snoc found with found | ⟨rfl, rfl⟩
    · exact recorded.stored ⟨found, writable⟩ key
    · constructor
      · rintro ⟨value, present⟩
        rw [stamp] at present
        exact absurd (consistent.stored_lt present) (Nat.lt_irrefl _)
      · rintro ⟨wrote, _⟩
        obtain ⟨owner, owned, _⟩ := recorded.writer wrote
        simp at owned
  · rintro txn other writer reader ⟨found, writable⟩ foundOther
    simp only [didBefore_snoc, begins, recorded.length, true_and]
    rcases Database.getElem?_snoc foundOther with foundBefore | ⟨rfl, rfl⟩
    · have earlier : db.transactions.length ≠ other :=
        (List.getElem?_eq_some_iff.mp foundBefore).1.ne'
      simp only [earlier, and_false, or_false]
      rcases Database.getElem?_snoc found with found | ⟨rfl, rfl⟩
      · exact recorded.precedes ⟨found, writable⟩ foundBefore
      · have later := consistent.version_le foundBefore
        rw [stamp]
        constructor
        · rintro ⟨below, _⟩
          exact absurd below (Nat.not_lt.mpr later)
        · intro before
          exact (newer (before.imp DidBefore.did DidBefore.did)).elim
    · have unprecedented (command : Command) :
          ¬ DidBefore past txn command db.transactions.length := fun before =>
        Nat.lt_irrefl _ (recorded.length ▸ before.lt)
      simp only [unprecedented, false_or, and_true]
      rw [← recorded.ended, members, stamp]
      rcases Database.getElem?_snoc found with found | ⟨rfl, rfl⟩
      · have owned : db.Owns txn writer := ⟨found, writable⟩
        simp only [consistent.writer_lt owned, true_and]
        constructor
        · intro inactive
          by_contra running
          exact inactive (consistent.active_of_owns owned running)
        · exact consistent.not_active_of_ended owned
      · rw [stamp]
        constructor
        · rintro ⟨below, _⟩
          exact absurd below (Nat.lt_irrefl _)
        · intro ended
          exact absurd (consistent.ended_lt _ ended) (Nat.lt_irrefl _)

theorem write (consistent : db.Consistent) {value : Option Bytes} (owned : db.Owns txn st)
    (running : txn ∉ db.ended) (written : command.written = some (key, value))
    (performs : Event.performs event = some (txn, command)) (begins : Event.begins event = false) :
    Recorded { db with
        engine := replayAll Store.replay db.engine (Transaction.versionWrites st key value) }
      (past ++ [event]) := by
  have same (other : Nat) {ending : Command} (nothing : ending.written = none) :
      Did (past ++ [event]) other ending ↔ Did past other ending := by
    have different : command ≠ ending := by
      rintro rfl
      simp [nothing] at written
    simp [did_snoc, performs, different]
  have sameOrder (first : Nat) (ending : Command) (second : Nat) :
      DidBefore (past ++ [event]) first ending second ↔ DidBefore past first ending second := by
    simp [didBefore_snoc, begins]
  have wrote (other : Nat) (user : Bytes) : Wrote (past ++ [event]) other user ↔
      Wrote past other user ∨ other = txn ∧ user = key := by
    rw [wrote_snoc, performs]
    refine or_congr_right ⟨?_, ?_⟩
    · rintro ⟨_, stored, writtenNow, same⟩
      cases same
      rw [written] at writtenNow
      cases writtenNow
      exact ⟨rfl, rfl⟩
    · rintro ⟨rfl, rfl⟩
      exact ⟨command, value, written, rfl⟩
  constructor
  · simp [recorded.length, begins]
  · intro other
    rw [same other rfl, same other rfl]
    exact recorded.ended other
  · intro other user wroteNow
    rcases (wrote other user).mp wroteNow with before | ⟨rfl, _⟩
    · exact recorded.writer before
    · exact ⟨st, owned⟩
  · intro other writer ownedOther
    rw [same other rfl, same other rfl]
    exact recorded.once ownedOther
  · intro other writer ownedOther user
    rw [wrote, same other rfl]
    by_cases written : other = txn ∧ user = key
    · obtain ⟨rfl, rfl⟩ := written
      obtain rfl := Option.some.inj (ownedOther.1.symm.trans owned.1)
      have notUndone : ¬ Did past other .rollback := fun did =>
        running ((recorded.ended other).mpr (.inr did))
      simp [Transaction.get_written_self, notUndone]
    · have untouched : (Key.version user writer.version) ≠ .version key st.version := by
        rw [ne_eq, Key.version.injEq]
        rintro ⟨rfl, sameVersion⟩
        exact written ⟨consistent.unique ownedOther owned sameVersion, rfl⟩
      simp only [Transaction.get_written_of_ne _ _ _ _ (by simp) untouched, written, or_false]
      exact recorded.stored ownedOther user
  · intro first second writer reader ownedFirst
    simp only [sameOrder]
    exact recorded.precedes ownedFirst

/-- A transaction that ends is remembered as ended, and a rollback takes its
versions. -/
theorem finish {next : Engine} (found : db.transactions[txn]? = some st)
    (running : st.readOnly = true ∨ txn ∉ db.ended) (ends : command.ends = true)
    (performs : Event.performs event = some (txn, command)) (begins : Event.begins event = false)
    (versions : ∀ {other : Nat} {writer : TransactionState}, db.Owns other writer → ∀ key,
      (∃ value, Store.get next (.version key writer.version) = some value) ↔
        (∃ value, Store.get db.engine (.version key writer.version) = some value) ∧
          ¬ (other = txn ∧ command = .rollback)) :
    Recorded ⟨next, db.transactions, insert txn db.ended⟩ (past ++ [event]) := by
  have did (other : Nat) (ending : Command) : Did (past ++ [event]) other ending ↔
      Did past other ending ∨ other = txn ∧ command = ending := by
    rw [did_snoc, performs, Option.some.injEq, Prod.mk.injEq, @eq_comm _ txn]
  have sameOrder (first : Nat) (ending : Command) (second : Nat) :
      DidBefore (past ++ [event]) first ending second ↔ DidBefore past first ending second := by
    simp [didBefore_snoc, begins]
  have kind : command = .commit ∨ command = .rollback := by
    cases command <;> simp_all [Command.ends]
  have sameWrites (other : Nat) (key : Bytes) :
      Wrote (past ++ [event]) other key ↔ Wrote past other key := by
    have nothing : command.written = none := by rcases kind with rfl | rfl <;> rfl
    rw [wrote_snoc, performs, or_iff_left]
    rintro ⟨_, value, written, same⟩
    cases same
    simp [nothing] at written
  constructor
  · simp [recorded.length, begins]
  · intro other
    rw [Finset.mem_insert, did, did, recorded.ended]
    rcases kind with rfl | rfl <;> simp <;> tauto
  · intro other key wrote
    exact recorded.writer ((sameWrites other key).mp wrote)
  · intro other writer owned
    rw [did, did]
    by_cases same : other = txn
    · subst same
      obtain rfl := Option.some.inj (owned.1.symm.trans found)
      have fresh := running.resolve_left (by simp [owned.2])
      rw [recorded.ended, not_or] at fresh
      rcases kind with rfl | rfl <;> simp [fresh]
    · simpa [same] using recorded.once owned
  · intro other writer owned key
    rw [versions owned, sameWrites, did, recorded.stored owned]
    tauto
  · intro first second writer reader ownedFirst
    simp only [sameOrder]
    exact recorded.precedes ownedFirst

theorem transition (consistent : db.Consistent) {next : Database}
    (transition : Database.Transition db event next) : Recorded next (past ++ [event]) := by
  cases transition with
  | begin members =>
    refine recorded.begin consistent rfl rfl members rfl ?_
    intro key version
    exact Transaction.get_begun _ _ (by simp) (by simp) (by simp)
  | beginReadOnly members =>
    exact recorded.begin consistent rfl rfl members rfl fun _ _ => rfl
  | write owned running written visible =>
    exact recorded.write consistent owned running written rfl rfl
  | commit owned running removed =>
    refine recorded.finish owned.1 (.inr running) rfl rfl rfl ?_
    intro other writer ownedOther key
    simp [removed.get_eq_some]
  | @rollback txn st mode next owned running removed =>
    refine recorded.finish owned.1 (.inr running) rfl rfl rfl ?_
    intro other writer ownedOther key
    have active := consistent.active_of_owns owned running
    by_cases same : other = txn
    · subst same
      obtain rfl := Option.some.inj (ownedOther.1.symm.trans owned.1)
      simp [removed.get_eq_some, consistent.records, active]
    · have different : writer.version ≠ st.version := fun equal =>
        same (consistent.unique ownedOther owned equal)
      simp [removed.get_eq_some, different, same]
  | @endReadOnly txn st mode command found readOnly ends =>
    refine recorded.finish found (.inl readOnly) ends rfl rfl ?_
    intro other writer ownedOther key
    have different : other ≠ txn := by
      rintro rfl
      rw [Option.some.inj (ownedOther.1.symm.trans found)] at ownedOther
      exact Bool.false_ne_true (ownedOther.2.symm.trans readOnly)
    simp [different]
  | _ => exact recorded.silent rfl rfl

end Recorded

section Concurrent

variable {db : Database} {past : List Event}

/-- Of two writers of a key that were not rolled back, the one with the lower
version committed before the other began. -/
theorem Recorded.committed_before (recorded : Recorded db past) (consistent : db.Consistent)
    {older newer : TransactionState} (ownedFirst : db.Owns first older)
    (ownedSecond : db.Owns second newer) (wroteFirst : Wrote past first key)
    (wroteSecond : Wrote past second key) (keptFirst : ¬ Did past first .rollback)
    (keptSecond : ¬ Did past second .rollback) (below : older.version < newer.version) :
    DidBefore past first .commit second := by
  obtain ⟨_, presentFirst⟩ := (recorded.stored ownedFirst key).mpr ⟨wroteFirst, keptFirst⟩
  obtain ⟨_, presentSecond⟩ := (recorded.stored ownedSecond key).mpr ⟨wroteSecond, keptSecond⟩
  obtain ⟨_, unseen⟩ := consistent.chain presentFirst presentSecond below
  have precedes := (recorded.precedes ownedFirst ownedSecond.1).mp
    ⟨below, unseen ownedSecond rfl⟩
  exact precedes.resolve_right fun undone => keptFirst undone.did

/-- A stored version is hidden from an open read-write transaction exactly when
its writer is another transaction that did not commit before this one began. -/
theorem Recorded.hidden_iff (recorded : Recorded db past) (consistent : db.Consistent)
    (owned : db.Owns txn st) (key : Bytes) :
    (∃ version stored, st.isVisible version = false ∧
        Store.get db.engine (.version key version) = some stored) ↔
      ∃ other, other ≠ txn ∧ Wrote past other key ∧ ¬ Did past other .rollback ∧
        ¬ DidBefore past other .commit txn := by
  have visible (version : Version) : st.isVisible version = false ↔
      ¬ (version ∉ st.active ∧ version ≤ st.version) := by
    simp [TransactionState.isVisible, owned.2]
  simp only [visible]
  constructor
  · rintro ⟨version, stored, hidden, present⟩
    obtain ⟨other, writer, ownedOther, rfl⟩ := consistent.stored present
    obtain ⟨wrote, kept⟩ := (recorded.stored ownedOther key).mp ⟨stored, present⟩
    refine ⟨other, ?_, wrote, kept, ?_⟩
    · rintro rfl
      obtain rfl := Option.some.inj (ownedOther.1.symm.trans owned.1)
      exact hidden ⟨fun member => Nat.lt_irrefl _ (consistent.snapshot_lt owned.1 member),
        Nat.le_refl _⟩
    · intro before
      obtain ⟨below, unseen⟩ := (recorded.precedes ownedOther owned.1).mpr (.inl before)
      exact hidden ⟨unseen, below.le⟩
  · rintro ⟨other, different, wrote, kept, concurrent⟩
    obtain ⟨writer, ownedOther⟩ := recorded.writer wrote
    obtain ⟨stored, present⟩ := (recorded.stored ownedOther key).mpr ⟨wrote, kept⟩
    refine ⟨writer.version, stored, ?_, present⟩
    rintro ⟨unseen, below⟩
    have strict : writer.version < st.version := lt_of_le_of_ne below fun same =>
      different (consistent.unique ownedOther owned same)
    rcases (recorded.precedes ownedOther owned.1).mp ⟨strict, unseen⟩ with before | undone
    · exact concurrent before
    · exact kept undone.did

/-- In every run, of two transactions that write the same key and commit, one
committed before the other began. And a write of a read-write transaction
fails with a serialization error exactly if another transaction wrote the key,
was not rolled back and had not committed when this one began. -/
theorem run_no_lost_update {schedule : List Operation} {last : Database} {events : List Event}
    (bounded : begins schedule < 2 ^ 64 - 2)
    (ran : Database.empty.run schedule = some (last, events)) :
    (∀ first second key, first ≠ second → Wrote events first key → Wrote events second key →
      Did events first .commit → Did events second .commit →
        DidBefore events first .commit second ∨ DidBefore events second .commit first) ∧
    (∀ txn st key value, last.Owns txn st →
      (((Transaction.writeVersion st key value).run last.engine).result = .error .serialization ↔
        ∃ other, other ≠ txn ∧ Wrote events other key ∧ ¬ Did events other .rollback ∧
          ¬ DidBefore events other .commit txn)) := by
  obtain ⟨consistent, room, recorded⟩ := Database.run_invariant_empty Recorded .empty
    (fun db event next past consistent transition recorded =>
      recorded.transition consistent transition) bounded ran
  refine ⟨?_, ?_⟩
  · intro first second key different wroteFirst wroteSecond committedFirst committedSecond
    obtain ⟨older, ownedFirst⟩ := recorded.writer wroteFirst
    obtain ⟨newer, ownedSecond⟩ := recorded.writer wroteSecond
    have keptFirst : ¬ Did events first .rollback := fun undone =>
      recorded.once ownedFirst ⟨committedFirst, undone⟩
    have keptSecond : ¬ Did events second .rollback := fun undone =>
      recorded.once ownedSecond ⟨committedSecond, undone⟩
    rcases Nat.lt_trichotomy older.version newer.version with below | same | above
    · exact .inl (recorded.committed_before consistent ownedFirst ownedSecond wroteFirst
        wroteSecond keptFirst keptSecond below)
    · exact absurd (consistent.unique ownedFirst ownedSecond same) different
    · exact .inr (recorded.committed_before consistent ownedSecond ownedFirst wroteSecond
        wroteFirst keptSecond keptFirst above)
  · intro txn st key value owned
    rw [← recorded.hidden_iff consistent owned key]
    rcases Transaction.writeVersion_run last.engine st key value owned.2 with
      ⟨failed, hidden⟩ | ⟨wrote, latest⟩
    · simp only [failed, true_iff]
      exact hidden
    · simp only [wrote, reduceCtorEq, false_iff]
      rintro ⟨version, stored, hidden, present⟩
      have seen := consistent.visible_of_latest owned room latest present
      simp [TransactionState.isVisible, owned.2, seen] at hidden

end Concurrent

/-- Two transactions that update a key one after the other. -/
def updates : List Operation :=
  [.begin, .use 0 .handle (.set [1] [10]), .use 0 .handle .commit,
    .begin, .use 1 .resumed (.delete [1]), .use 1 .handle .commit]

/-- Their events. -/
def updateEvents : List Event :=
  [(.begin, .ok (.transaction ⟨1, false, ∅⟩)),
    (.use 0 .handle (.set [1] [10]), .ok .done),
    (.use 0 .handle .commit, .ok .done),
    (.begin, .ok (.transaction ⟨2, false, ∅⟩)),
    (.use 1 .resumed (.delete [1]), .ok .done),
    (.use 1 .handle .commit, .ok .done)]

theorem run_no_lost_update_updates :
    (Database.empty.run updates).map Prod.snd = some updateEvents ∧
      (DidBefore updateEvents 0 .commit 1 ∨ DidBefore updateEvents 1 .commit 0) := by
  have events : (Database.empty.run updates).map Prod.snd = some updateEvents := by
    decide +kernel
  obtain ⟨⟨last, _⟩, ran, rfl⟩ := Option.map_eq_some_iff.mp events
  have did (txn : Nat) (mode : Access) (command : Command)
      (member : (.use txn mode command, .ok .done) ∈ updateEvents) :
      Did updateEvents txn command := ⟨_, member, rfl⟩
  exact ⟨events, (run_no_lost_update (by decide) ran).1 0 1 [1] (by decide)
    ⟨.set [1] [10], some [10], rfl, did 0 .handle _ (by simp [updateEvents])⟩
    ⟨.delete [1], none, rfl, did 1 .resumed _ (by simp [updateEvents])⟩
    (did 0 .handle _ (by simp [updateEvents])) (did 1 .handle _ (by simp [updateEvents]))⟩

end Radb.Storage.Mvcc
