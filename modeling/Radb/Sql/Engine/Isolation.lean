import Radb.Sql.Engine.Schedule
import Radb.Storage.Mvcc.SnapshotIsolation

/-! # SQL transactions are snapshot isolated

In every run of interleaved SQL transactions the committed database, what it was when
each transaction began, and what each transaction sees are contents. Committing merges
the changes of the transaction with those committed since it began, which never touch
the same key. A property of contents that calls and merges keep holds throughout.
-/

namespace Radb.Sql

open Foundation Foundation.Program Radb.Storage Radb.Storage.Mvcc

variable {engine : Engine} {last next : Database} {schedule : List Operation}
  {results : List (Except Fault Unit)} {base : Contents} {result : Except Fault Unit}

variable {contents : Contents} {db : Database}

variable {snapshot : Snapshot Bytes Bytes}

variable {map : Bytes → Option Bytes} {bytes : Bytes} {key : Key} {view committed : Contents}
  {operation : Operation} {later : Isolated}

/-- A map of byte strings is the encoding of contents. -/
structure Encodes (map : Bytes → Option Bytes) (contents : Contents) : Prop where
  get : ∀ key : Key, map key.encode = (Store.get contents key).map key.codec.encode
  keys : ∀ bytes value, map bytes = some value → ∃ key : Key, bytes = key.encode

theorem encodes_empty : Encodes (fun _ => none) ∅ where
  get key := by rw [Store.get_empty, Option.map_none]
  keys := nofun

theorem Encodes.unique {other : Contents} (encodes : Encodes map contents)
    (again : Encodes map other) : contents = other := by
  apply Store.ext_get
  intro key
  exact Option.map_injective key.codec.encode_injective
    ((encodes.get key).symm.trans (again.get key))

/-- Versions reveal the contents that the map of their latest values encodes. -/
theorem reveals_iff {among : Version → Prop}
    (latest : ∀ bytes, engine.Latest among bytes (map bytes)) :
    Reveals engine among contents ↔ Encodes map contents := by
  refine ⟨fun reveals => ⟨fun key => (latest _).unique (reveals.get key), fun bytes value found =>
    reveals.keys bytes value (found ▸ latest bytes)⟩, fun encodes => ⟨fun key => ?_, ?_⟩⟩
  · rw [← encodes.get key]
    exact latest _
  · intro bytes value found
    exact encodes.keys bytes value ((latest bytes).unique found)

/-- A state that sees what was committed when the transaction began. -/
def TransactionState.before (st : TransactionState) : TransactionState := { st with readOnly := true }

section Refines

variable {db : Database} {store : Isolated} (refines : Refines db store)
include refines

theorem publishes_iff :
    Publishes db.engine contents ↔ Encodes store.committed contents :=
  reveals_iff refines.committed

variable {txn : Nat} {st : TransactionState} {snapshot : Snapshot Bytes Bytes}

theorem shows_before_iff (found : db.transactions[txn]? = some st)
    (present : store.transactions[txn]? = some snapshot) :
    Shows (TransactionState.before st) db.engine contents ↔ Encodes snapshot.base contents := by
  refine reveals_iff fun bytes => ?_
  refine ((refines.transactions found present).base bytes).congr fun version stored => ?_
  have visible : (TransactionState.before st).isVisible version = true ↔
      version < st.version ∧ version ∉ st.active := by
    by_cases member : version ∈ st.active
    · simp [TransactionState.before, TransactionState.isVisible, member]
    · simp only [TransactionState.before, TransactionState.isVisible, member, if_false, if_true,
        not_false_eq_true, and_true]
      exact decide_eq_true_iff
  rw [visible]

variable (consistent : db.Consistent)
include consistent

theorem shows_iff (usable : db.Usable txn st) (present : store.transactions[txn]? = some snapshot) :
    Shows st db.engine contents ↔ Encodes snapshot.read contents := by
  refine reveals_iff fun bytes => ?_
  obtain ⟨value, _, latest⟩ := Transaction.get_run db.engine st bytes
  rw [← refines.read consistent.toOrderly usable present latest]
  exact latest

/-- A key that a transaction wrote has not been committed since the transaction began. -/
theorem committed_of_written (owned : db.Owns txn st) (running : txn ∉ db.ended)
    (present : store.transactions[txn]? = some snapshot) (written : snapshot.writes bytes ≠ none) :
    store.committed bytes = snapshot.base bytes := by
  have represents := refines.transactions owned.1 present
  obtain ⟨own, stored⟩ := Option.ne_none_iff_exists'.mp written
  rw [represents.writes owned.2 running] at stored
  have active := consistent.active_of_owns owned running
  refine (refines.committed bytes).unique ((represents.base bytes).congr fun version value => ?_)
  rw [and_congr_left_iff]
  intro found
  constructor
  · intro earlier
    exact (consistent.chain found stored earlier.1).1
  · intro ended
    have below : version < st.version := by
      refine lt_of_le_of_ne (refines.own_latest consistent.toOrderly owned running stored found) ?_
      rintro rfl
      exact ended active
    exact ⟨below, (consistent.chain found stored below).2 owned rfl⟩

end Refines

/-- When every transaction has ended, everything stored is committed. -/
theorem shows_of_publishes (consistent : db.Consistent)
    (idle : ∀ txn < db.transactions.length, txn ∈ db.ended)
    (publishes : Publishes db.engine contents) :
    Shows ⟨db.engine.nextVersion, true, ∅⟩ db.engine contents := by
  have same : ∀ bytes version (stored : Option Bytes),
      ¬ db.engine.Active version ∧ Store.get db.engine (.version bytes version) = some stored ↔
        TransactionState.isVisible ⟨db.engine.nextVersion, true, ∅⟩ version = true ∧
          Store.get db.engine (.version bytes version) = some stored := by
    intro bytes version stored
    rw [and_congr_left_iff]
    intro found
    have visible : TransactionState.isVisible ⟨db.engine.nextVersion, true, ∅⟩ version = true :=
      decide_eq_true_iff.mpr (consistent.stored_lt found)
    refine iff_of_true (fun active => ?_) visible
    obtain ⟨txn, st, owned, _, running⟩ := (consistent.active_iff version).mp active
    obtain ⟨below, _⟩ := List.getElem?_eq_some_iff.mp owned.1
    exact running (idle txn below)
  refine ⟨fun key => (publishes.get key).congr (same _), fun bytes value latest => ?_⟩
  exact publishes.keys bytes value (latest.congr fun version stored => (same _ _ _).symm)

/-- What a transaction reads under a key is what it sees there. -/
theorem get_of_shows {value : Stored key} (shown : Shows st engine contents)
    (read : ((Transaction.get st key.encode).run engine).result =
      .ok (some (key.codec.encode value))) : Store.get contents key = some value := by
  obtain ⟨found, ran, latest⟩ := Transaction.get_run engine st key.encode
  rw [ran, Except.ok.injEq] at read
  have same := (shown.get key).unique latest
  rw [read] at same
  exact Option.map_injective key.codec.encode_injective same

/-- A transaction does not see what it does not find. -/
theorem unseen_of_shows (shown : Shows st engine contents)
    (read : ((Transaction.get st key.encode).run engine).result = .ok none) :
    Store.get contents key = none := by
  obtain ⟨found, ran, latest⟩ := Transaction.get_run engine st key.encode
  rw [ran, Except.ok.injEq] at read
  have same := (shown.get key).unique latest
  rwa [read, Option.map_eq_none_iff] at same

/-- What is seen at the end of a run, from what is computed to be read there. -/
theorem seen_of_run (ran : Schedule.run db schedule = some (last, results))
    (shown : Shows st last.engine contents) (key : Key) (value : Stored key)
    (computed : (Schedule.run db schedule).map (fun stage =>
      ((Transaction.get st key.encode).run stage.1.engine).result) =
        some (.ok (some (key.codec.encode value)))) : Store.get contents key = some value :=
  get_of_shows shown (Schedule.of_run ran
    (fun db => ((Transaction.get st key.encode).run db.engine).result) computed)

/-- Two changes of one database that touch different keys, merged. -/
def Merged (base committed view merged : Contents) : Prop :=
  ∀ key : Key,
    Store.get view key = Store.get base key ∧ Store.get merged key = Store.get committed key ∨
    Store.get committed key = Store.get base key ∧ Store.get merged key = Store.get view key

/-- If nothing was committed since the transaction began, what it sees is committed. -/
theorem Merged.eq_of_same {merged : Contents} (merge : Merged base base view merged) :
    merged = view := by
  apply Store.ext_get
  intro key
  rcases merge key with ⟨same, taken⟩ | ⟨_, taken⟩
  · exact taken.trans same.symm
  · exact taken

/-- Committing merges. -/
theorem exists_merged (refines : Refines db store) (consistent : db.Consistent)
    (owned : db.Owns txn st) (running : txn ∉ db.ended)
    (present : store.transactions[txn]? = some snapshot)
    (encodesBase : Encodes snapshot.base base)
    (encodesCommitted : Encodes store.committed committed)
    (encodesView : Encodes snapshot.read view) :
    ∃ merged, Encodes (snapshot.overlay store.committed) merged ∧
      Merged base committed view merged := by
  let written (key : Key) : Bool := (snapshot.writes key.encode).isSome
  refine ⟨Store.merge written view committed, ⟨fun key => ?_, fun bytes value found => ?_⟩,
    fun key => ?_⟩
  · rw [Store.get_merge]
    have seen := encodesView.get key
    cases own : snapshot.writes key.encode with
    | none => simpa [written, Snapshot.overlay, own] using encodesCommitted.get key
    | some value => simpa [written, Snapshot.overlay, Snapshot.read, own] using seen
  · cases own : snapshot.writes bytes with
    | none =>
      refine encodesCommitted.keys bytes value ?_
      simpa [Snapshot.overlay, own] using found
    | some stored =>
      refine encodesView.keys bytes value ?_
      simpa [Snapshot.overlay, Snapshot.read, own] using found
  · rw [Store.get_merge]
    have injective := Option.map_injective key.codec.encode_injective
    cases own : snapshot.writes key.encode with
    | none =>
      refine .inl ⟨injective ?_, by simp [written, own]⟩
      rw [← encodesView.get, ← encodesBase.get, Snapshot.read, own, Option.getD_none]
    | some value =>
      refine .inr ⟨injective ?_, by simp [written, own]⟩
      rw [← encodesCommitted.get, ← encodesBase.get]
      exact committed_of_written refines consistent owned running present (by simp [own])

/-- A property holds of the committed contents and of what every open transaction sees. -/
structure Holds (property : Contents → Prop) (db : Database) (store : Isolated) : Prop where
  refines : Refines db store
  committed : ∃ contents, Encodes store.committed contents ∧ property contents
  views : ∀ {txn : Nat} {snapshot : Snapshot Bytes Bytes},
    store.transactions[txn]? = some snapshot → snapshot.live = true →
      ∃ base view, Encodes snapshot.base base ∧ Encodes snapshot.read view ∧ property view

/-- What is committed has the property. -/
theorem Holds.publishes (holds : Holds property db store) :
    ∃ contents, Publishes db.engine contents ∧ property contents := by
  obtain ⟨contents, encodes, satisfied⟩ := holds.committed
  exact ⟨contents, (publishes_iff holds.refines).mpr encodes, satisfied⟩

/-- What an open transaction sees has the property. -/
theorem Holds.shows (holds : Holds property db store) (consistent : db.Consistent)
    (found : db.transactions[txn]? = some st) (running : txn ∉ db.ended) :
    ∃ contents, Shows st db.engine contents ∧ property contents := by
  obtain ⟨snapshot, present⟩ := holds.refines.exists_snapshot found
  obtain ⟨_, view, _, encodes, satisfied⟩ := holds.views present
    ((holds.refines.transactions found present).live.mpr running)
  exact ⟨view, (shows_iff holds.refines consistent ⟨found, .inr running⟩ present).mpr encodes,
    satisfied⟩

theorem holds_empty (initially : property ∅) :
    Holds property Database.empty SnapshotStore.empty where
  refines := .empty
  committed := ⟨∅, encodes_empty, initially⟩
  views := by
    intro txn snapshot found
    simp [SnapshotStore.empty] at found

/-- A write that is not refused keeps the store consistent. -/
theorem visible_of_refusal (consistent : db.Consistent)
    (bounded : db.engine.nextVersion ≤ versionMax) (owned : db.Owns txn st)
    (allowed : Transaction.refusal st db.engine bytes = none) (version : Version)
    (stored : Option Bytes) (found : Store.get db.engine (.version bytes version) = some stored) :
    version ∉ st.active ∧ version ≤ st.version := by
  have wrote := Transaction.writeVersion_run_refusal db.engine st bytes none
  rw [allowed] at wrote
  rcases Transaction.writeVersion_run db.engine st bytes none owned.2 with
    ⟨failed, _⟩ | ⟨_, latest⟩
  · rw [failed] at wrote
    cases wrote
  · exact consistent.visible_of_latest owned bounded latest found

/-- What the writes of a call of one transaction do to the abstract store: the base, the
state and the writes of all the others stay. -/
structure Wrote (txn : Nat) (store later : Isolated) : Prop where
  committed : later.committed = store.committed
  others : ∀ other, other ≠ txn → later.transactions[other]? = store.transactions[other]?
  own : ∀ {snapshot : Snapshot Bytes Bytes}, later.transactions[txn]? = some snapshot →
    ∃ before, store.transactions[txn]? = some before ∧ snapshot.base = before.base ∧
      snapshot.live = before.live

theorem Wrote.refl (txn : Nat) (store : Isolated) : Wrote txn store store :=
  ⟨rfl, fun _ _ => rfl, fun found => ⟨_, found, rfl, rfl⟩⟩

theorem Wrote.trans {first second third : Isolated} (left : Wrote txn first second)
    (right : Wrote txn second third) : Wrote txn first third where
  committed := right.committed.trans left.committed
  others other different := (right.others other different).trans (left.others other different)
  own found := by
    obtain ⟨middle, foundMiddle, base, live⟩ := right.own found
    obtain ⟨before, foundBefore, baseBefore, liveBefore⟩ := left.own foundMiddle
    exact ⟨before, foundBefore, base.trans baseBefore, live.trans liveBefore⟩

theorem wrote_write (txn : Nat) (store : Isolated) (key : Bytes) (value : Option Bytes) :
    Wrote txn store (store.write txn key value) where
  committed := rfl
  others other different := by
    rw [SnapshotStore.write, List.getElem?_modify]
    simp [different.symm]
  own := by
    intro snapshot found
    rw [SnapshotStore.write, List.getElem?_modify] at found
    obtain ⟨before, present, rfl⟩ := Option.map_eq_some_iff.mp found
    exact ⟨before, present, by simp [Snapshot.write], by simp [Snapshot.write]⟩

/-- The writes of a call, one after the other. -/
theorem refines_of_writes (consistent : db.Consistent)
    (bounded : db.engine.nextVersion ≤ versionMax) (refines : Refines db store)
    (owned : db.Owns txn st) (running : txn ∉ db.ended) {journal : List (Store.Write Stored)}
    (allowed : ∀ effect ∈ journal, refusals st db.engine effect.key = none) :
    Database.Consistent { db with
        engine := replayAll Store.replay db.engine (journal.flatMap (engineWrites st)) } ∧
      Engine.nextVersion (replayAll Store.replay db.engine (journal.flatMap (engineWrites st))) =
        db.engine.nextVersion ∧
      ∃ later, Refines { db with
        engine := replayAll Store.replay db.engine (journal.flatMap (engineWrites st)) } later ∧
        Wrote txn store later := by
  induction journal generalizing db store with
  | nil => exact ⟨consistent, rfl, store, refines, .refl txn store⟩
  | cons effect rest ih =>
    have bytes : (serialize effect).1 = effect.key.encode := by cases effect <;> rfl
    have free : Transaction.refusal st db.engine (serialize effect).1 = none := by
      have decided := allowed effect List.mem_cons_self
      rwa [refusals, Option.map_eq_none_iff, ← bytes] at decided
    have visible := visible_of_refusal consistent bounded owned free
    have same : refusals st (replayAll Store.replay db.engine (engineWrites st effect)) =
        refusals st db.engine := by
      funext key
      rw [refusals, refusals, engineWrites, Transaction.refusal_written
        (fun member => Nat.lt_irrefl _ (consistent.snapshot_lt owned.1 member)) _ free]
    have kept : Engine.nextVersion
        (replayAll Store.replay db.engine (engineWrites st effect)) = db.engine.nextVersion := by
      rw [Engine.nextVersion, engineWrites,
        Transaction.get_written_of_ne _ _ _ _ (by simp) (by simp), Engine.nextVersion]
    have consistentNext : Database.Consistent { db with
        engine := replayAll Store.replay db.engine (engineWrites st effect) } :=
      consistent.write owned running visible
    have refinesNext : Refines { db with
        engine := replayAll Store.replay db.engine (engineWrites st effect) }
        (store.write txn (serialize effect).1 (serialize effect).2) :=
      refines.write consistent.toOrderly owned running
    obtain ⟨consistentLast, keptLast, later, refinesLast, wrote⟩ :=
      ih consistentNext (kept.le.trans bounded) refinesNext owned running
        (fun other member => (congrFun same _).trans
          (allowed other (List.mem_cons_of_mem _ member)))
    simp only [List.flatMap_cons, replayAll_append]
    exact ⟨consistentLast, keptLast.trans kept, later, refinesLast,
      (wrote_write txn store _ _).trans wrote⟩

/-- What an operation does to the abstract store. -/
inductive Advances (store : Isolated) : Operation → Isolated → Prop where
  | begin : Advances store .begin store.begin
  | beginReadOnly : Advances store .beginReadOnly store.begin
  | call {txn : Nat} {call : Kv.Call} {later : Isolated} (wrote : Wrote txn store later) :
      Advances store (.call txn call) later
  | commit {txn : Nat} {snapshot : Snapshot Bytes Bytes}
      (found : store.transactions[txn]? = some snapshot) (live : snapshot.live = true) :
      Advances store (.commit txn) (store.commit txn)
  | rollback {txn : Nat} {snapshot : Snapshot Bytes Bytes}
      (found : store.transactions[txn]? = some snapshot) (live : snapshot.live = true) :
      Advances store (.rollback txn) (store.rollback txn)

/-- What keeps a property: a call does, from what the transaction sees, and committing
does, for the merged contents. -/
def Keeps (property : Contents → Prop) (db : Database) :
    Operation → Except Fault Unit → Prop
  | .call txn call, result => ∀ st view, db.transactions[txn]? = some st →
      Shows st db.engine view → property view →
      ((call.script.program KeyPrefix.covers (refusals st db.engine)).run view).result = result →
      property ((call.script.program KeyPrefix.covers (refusals st db.engine)).after view)
  | .commit txn, _ => ∀ st base committed view merged, db.transactions[txn]? = some st →
      Shows (TransactionState.before st) db.engine base → Publishes db.engine committed →
      Shows st db.engine view → Merged base committed view merged → property view →
      property committed → property merged
  | _, _ => True

section Step

variable {property : Contents → Prop} {db : Database} {store : Isolated}

section

variable (holds : Holds property db store)

include holds

theorem Holds.begin (refines : Refines next store.begin) :
    Holds property next store.begin where
  refines := refines
  committed := holds.committed
  views := by
    intro txn snapshot found live
    rw [SnapshotStore.begin] at found
    rcases Nat.lt_or_ge txn store.transactions.length with below | above
    · rw [List.getElem?_append_left below] at found
      exact holds.views found live
    · rw [List.getElem?_append_right above] at found
      obtain ⟨contents, encodes, satisfied⟩ := holds.committed
      rw [List.getElem?_singleton] at found
      split at found
      · cases found
        exact ⟨contents, contents, encodes, encodes, satisfied⟩
      · cases found

/-- Ending a transaction leaves the others as they are. -/
theorem Holds.views_finish {other : Nat}
    (found : (store.transactions.modify txn Snapshot.finish)[other]? = some snapshot)
    (live : snapshot.live = true) :
    ∃ base view, Encodes snapshot.base base ∧ Encodes snapshot.read view ∧ property view := by
  rw [List.getElem?_modify] at found
  obtain ⟨before, present, rfl⟩ := Option.map_eq_some_iff.mp found
  split at live
  · simp [Snapshot.finish] at live
  · next different =>
    rw [if_neg different]
    exact holds.views present live

theorem Holds.rollback (refines : Refines next (store.rollback txn)) :
    Holds property next (store.rollback txn) where
  refines := refines
  committed := holds.committed
  views found live := holds.views_finish found live

theorem Holds.commit (refines : Refines next (store.commit txn))
    (committed : ∃ contents, Encodes (store.commit txn).committed contents ∧ property contents) :
    Holds property next (store.commit txn) where
  refines := refines
  committed := committed
  views found live := holds.views_finish found live

/-- What a commit publishes has the property. -/
theorem Holds.committed_commit (consistent : db.Consistent) {response : Except Error Response}
    (transition : db.Transition (.use txn .handle .commit, response) next)
    (keeps : Keeps property db (.commit txn) result) :
    ∃ contents, Encodes (store.commit txn).committed contents ∧ property contents := by
  obtain ⟨committed, encodesCommitted, satisfied⟩ := holds.committed
  cases transition with
  | writeReadOnly found readOnly written | conflict owned running written
  | write owned running written =>
    cases written
  | endReadOnly found readOnly ends =>
    obtain ⟨snapshot, present⟩ := holds.refines.exists_snapshot found
    have nothing := (holds.refines.transactions found present).readOnly readOnly
    refine ⟨committed, ?_, satisfied⟩
    have overlaid : snapshot.overlay store.committed = store.committed := by
      funext key
      simp [Snapshot.overlay, nothing key]
    simpa only [SnapshotStore.commit, present, overlaid] using encodesCommitted
  | @commit _ st _ _ owned running removed =>
    obtain ⟨snapshot, present⟩ := holds.refines.exists_snapshot owned.1
    have live := (holds.refines.transactions owned.1 present).live.mpr running
    obtain ⟨base, view, encodesBase, encodesView, seen⟩ := holds.views present live
    obtain ⟨merged, encodes, merge⟩ := exists_merged holds.refines consistent owned running present
      encodesBase encodesCommitted encodesView
    refine ⟨merged, by simpa only [SnapshotStore.commit, present] using encodes, ?_⟩
    exact keeps st base committed view merged owned.1
      ((shows_before_iff holds.refines owned.1 present).mpr encodesBase)
      ((publishes_iff holds.refines).mpr encodesCommitted)
      ((shows_iff holds.refines consistent ⟨owned.1, .inr running⟩ present).mpr encodesView)
      merge seen satisfied

/-- A task of an open transaction changes only what that transaction sees. -/
theorem Holds.work (consistent : db.Consistent) (bounded : db.engine.nextVersion ≤ versionMax)
    (found : db.transactions[txn]? = some st) (running : txn ∉ db.ended) {Result : Type}
    (task : Task Result) (keeps : ∀ view, Shows st db.engine view → property view →
      ((task.program KeyPrefix.covers (refusals st db.engine)).run view).result =
        ((session st task).run db.engine).result →
      property ((task.program KeyPrefix.covers (refusals st db.engine)).after view)) :
    Database.Consistent { db with engine := (session st task).after db.engine } ∧
      Engine.nextVersion ((session st task).after db.engine) = db.engine.nextVersion ∧
      ∃ later, Holds property { db with engine := (session st task).after db.engine } later ∧
        Wrote txn store later := by
  obtain ⟨snapshot, present⟩ := holds.refines.exists_snapshot found
  have live := (holds.refines.transactions found present).live.mpr running
  obtain ⟨base, view, encodesBase, encodesView, seen⟩ := holds.views present live
  have shown := (shows_iff holds.refines consistent ⟨found, .inr running⟩ present).mpr encodesView
  have own : st.version ∉ st.active := fun member =>
    Nat.lt_irrefl _ (consistent.snapshot_lt found member)
  obtain ⟨journal, result, ran, worked, shownAfter, _⟩ := shown.session_run own task
  have allowed : ∀ effect ∈ journal, refusals st db.engine effect.key = none := by
    intro effect member
    refine Script.refuses_of_mem_journal KeyPrefix.covers _ task view ?_
    rw [ran]
    exact member
  have after : (session st task).after db.engine =
      replayAll Store.replay db.engine (journal.flatMap (engineWrites st)) := by
    rw [Program.after, worked]
  have kept : property ((task.program KeyPrefix.covers (refusals st db.engine)).after view) :=
    keeps view shown seen (by rw [ran, worked])
  rw [Program.after, ran] at kept
  rw [after]
  have views : ∀ later, Refines { db with
        engine := replayAll Store.replay db.engine (journal.flatMap (engineWrites st)) } later →
      Database.Consistent { db with
        engine := replayAll Store.replay db.engine (journal.flatMap (engineWrites st)) } →
      Wrote txn store later → Holds property { db with
        engine := replayAll Store.replay db.engine (journal.flatMap (engineWrites st)) } later := by
    intro later refines still wrote
    refine ⟨refines, wrote.committed ▸ holds.committed, ?_⟩
    intro other snapshot' present' live'
    by_cases same : other = txn
    · subst same
      obtain ⟨before, presentBefore, sameBase, _⟩ := wrote.own present'
      cases present.symm.trans presentBefore
      refine ⟨base, _, sameBase ▸ encodesBase, ?_, kept⟩
      exact (shows_iff refines still ⟨found, .inr running⟩ present').mp shownAfter
    · rw [wrote.others other same] at present'
      exact holds.views present' live'
  cases readOnly : st.readOnly with
  | false =>
    obtain ⟨still, version, later, refines, wrote⟩ :=
      refines_of_writes consistent bounded holds.refines ⟨found, readOnly⟩ running allowed
    exact ⟨still, version, later, views later refines still wrote, wrote⟩
  | true =>
    -- every write of a read-only transaction is refused
    have nothing : journal = [] := by
      refine List.eq_nil_iff_forall_not_mem.mpr fun effect member => ?_
      have decided := allowed effect member
      rw [refusals, Transaction.refusal_readOnly _ _ _ readOnly] at decided
      cases decided
    subst nothing
    exact ⟨consistent, rfl, store, views store holds.refines consistent (.refl txn store),
      .refl txn store⟩

/-- A transaction that is used through its handle is open. -/
theorem Holds.open_of_handle {command : Command}
    (delegated : Schedule.delegate db (.use txn .handle command) = some (next, result)) :
    ∃ snapshot, store.transactions[txn]? = some snapshot ∧ snapshot.live = true := by
  obtain ⟨_, stepped, _⟩ := Option.map_eq_some_iff.mp delegated
  simp only [Database.step] at stepped
  cases found : db.transactions[txn]? with
  | none => simp only [found, reduceCtorEq] at stepped
  | some st =>
    simp only [found, true_and] at stepped
    split at stepped
    · cases stepped
    · next running =>
      obtain ⟨snapshot, present⟩ := holds.refines.exists_snapshot found
      exact ⟨snapshot, present, (holds.refines.transactions found present).live.mpr running⟩

/-- An operation that keeps a property leads to a database where it holds. -/
theorem Holds.step (consistent : db.Consistent) (bounded : db.engine.nextVersion ≤ versionMax)
    (stepped : Schedule.step db operation = some (next, result))
    (keeps : Keeps property db operation result) :
    next.Consistent ∧ next.engine.nextVersion =
        db.engine.nextVersion + (if operation = .begin then 1 else 0) ∧
      ∃ later, Holds property next later ∧ Advances store operation later := by
  have delegated : ∀ {inner : Mvcc.Operation}, Schedule.delegate db inner = some (next, result) →
      ∃ response, db.Transition (inner, response) next := by
    intro inner delegated
    obtain ⟨⟨last, response⟩, found, same⟩ := Option.map_eq_some_iff.mp delegated
    cases same
    exact ⟨response, Database.transition_of_step consistent.toOrderly bounded found⟩
  cases operation with
  | begin =>
    obtain ⟨response, transition⟩ := delegated stepped
    refine ⟨transition.consistent consistent, transition.nextVersion, store.begin, ?_, .begin⟩
    obtain ⟨later, explains, refines⟩ := holds.refines.explains consistent transition
    cases explains
    exact holds.begin refines
  | beginReadOnly =>
    obtain ⟨response, transition⟩ := delegated stepped
    refine ⟨transition.consistent consistent, transition.nextVersion, store.begin, ?_,
      .beginReadOnly⟩
    obtain ⟨later, explains, refines⟩ := holds.refines.explains consistent transition
    cases explains
    exact holds.begin refines
  | call txn call =>
    simp only [Schedule.step] at stepped
    cases found : db.transactions[txn]? with
    | none => simp only [found, reduceCtorEq] at stepped
    | some st =>
      simp only [found] at stepped
      split at stepped
      · cases stepped
      · next running =>
        cases stepped
        obtain ⟨still, version, later, held, wrote⟩ :=
          holds.work consistent bounded found running call.script
            fun view shown seen same => keeps st view found shown seen same
        exact ⟨still, version, later, held, .call wrote⟩
  | commit txn =>
    obtain ⟨response, transition⟩ := delegated stepped
    obtain ⟨snapshot, present, live⟩ := holds.open_of_handle stepped
    refine ⟨transition.consistent consistent, transition.nextVersion, store.commit txn, ?_,
      .commit present live⟩
    obtain ⟨later, explains, refines⟩ := holds.refines.explains consistent transition
    cases explains with
    | write found live written => cases written
    | writeRefused written =>
      cases written
    | commit found valid =>
      exact holds.commit refines (holds.committed_commit consistent transition keeps)
  | rollback txn =>
    obtain ⟨response, transition⟩ := delegated stepped
    obtain ⟨snapshot, present, live⟩ := holds.open_of_handle stepped
    refine ⟨transition.consistent consistent, transition.nextVersion, store.rollback txn, ?_,
      .rollback present live⟩
    obtain ⟨later, explains, refines⟩ := holds.refines.explains consistent transition
    cases explains with
    | write found live written => cases written
    | writeRefused written => cases written
    | rollback found valid => exact holds.rollback refines

end

end Step

/-- A property of contents, and an invariant of the database, that every step of a run
keeps hold after the run. -/
theorem run_holds (property : Contents → Prop) (invariant : Database → Isolated → Prop)
    (condition : Database → Operation → Except Fault Unit → Prop)
    (keeps : ∀ db store operation result next, db.Consistent → Holds property db store →
      invariant db store → condition db operation result →
      Schedule.step db operation = some (next, result) → Keeps property db operation result)
    (advances : ∀ db store operation result next later, Holds property db store →
      invariant db store → condition db operation result → Advances store operation later →
      Holds property next later → invariant next later) :
    ∀ (schedule : List Operation) {db last : Database} {results : List (Except Fault Unit)}
      {store : Isolated}, db.Consistent →
      db.engine.nextVersion + Schedule.begins schedule ≤ versionMax → Holds property db store →
      invariant db store → Schedule.Throughout condition db schedule →
      Schedule.run db schedule = some (last, results) →
        last.Consistent ∧
          last.engine.nextVersion = db.engine.nextVersion + Schedule.begins schedule ∧
          ∃ final, Holds property last final ∧ invariant last final := by
  intro schedule
  induction schedule with
  | nil =>
    intro db last results store consistent bounded holds initially _ ran
    cases ran
    exact ⟨consistent, rfl, store, holds, initially⟩
  | cons operation rest ih =>
    intro db last results store consistent bounded holds initially throughout ran
    simp only [Schedule.run] at ran
    cases stepped : Schedule.step db operation with
    | none => simp only [stepped, reduceCtorEq] at ran
    | some stage =>
      obtain ⟨middle, result⟩ := stage
      simp only [stepped] at ran
      cases continued : Schedule.run middle rest with
      | none => simp only [continued, reduceCtorEq] at ran
      | some final =>
        obtain ⟨_, later⟩ := final
        simp only [continued, Option.some.injEq, Prod.mk.injEq] at ran
        obtain ⟨rfl, rfl⟩ := ran
        obtain ⟨condition', throughout'⟩ := throughout middle result stepped
        obtain ⟨still, version, next, held, advanced⟩ := holds.step consistent
          (Nat.le_trans (Nat.le_add_right _ _) bounded) stepped
          (keeps _ _ _ _ _ consistent holds initially condition' stepped)
        have counted : middle.engine.nextVersion + Schedule.begins rest =
            db.engine.nextVersion + Schedule.begins (operation :: rest) := by
          rw [version, Nat.add_assoc, Schedule.begins, Schedule.begins, List.count_cons,
            Nat.add_comm (List.count _ _)]
          simp only [beq_iff_eq]
        obtain ⟨reached, counting, final⟩ := ih still (counted.le.trans bounded) held
          (advances _ _ _ _ _ _ holds initially condition' advanced held) throughout' continued
        exact ⟨reached, counting.trans counted, final⟩

theorem room_empty (bounded : Schedule.begins schedule < 2 ^ 64 - 2) :
    Database.empty.engine.nextVersion + Schedule.begins schedule ≤ versionMax := by
  have start : Database.empty.engine.nextVersion = 1 := by
    simp [Database.empty, Engine.nextVersion]
  rw [start]
  change (1 + Schedule.begins schedule : Nat) ≤ 2 ^ 64 - 1
  omega

/-- At most one transaction is open, and nothing was committed since it began. -/
def Lone (store : Isolated) : Prop :=
  ∀ ⦃txn : Nat⦄ ⦃snapshot : Snapshot Bytes Bytes⦄, store.transactions[txn]? = some snapshot →
    snapshot.live = true → snapshot.base = store.committed ∧
      ∀ {other : Nat} {found : Snapshot Bytes Bytes}, store.transactions[other]? = some found →
        found.live = true → other = txn

theorem Lone.wrote (lone : Lone store) (wrote : Wrote txn store later) :
    Lone later := by
  have earlier : ∀ {other : Nat} {snapshot : Snapshot Bytes Bytes},
      later.transactions[other]? = some snapshot → ∃ before,
        store.transactions[other]? = some before ∧ snapshot.base = before.base ∧
          snapshot.live = before.live := by
    intro other snapshot found
    by_cases same : other = txn
    · subst same
      exact wrote.own found
    · exact ⟨snapshot, (wrote.others other same).symm.trans found, rfl, rfl⟩
  intro other snapshot found live
  obtain ⟨before, foundBefore, base, alive⟩ := earlier found
  obtain ⟨same, only⟩ := lone foundBefore (alive ▸ live)
  refine ⟨base.trans (same.trans wrote.committed.symm), fun foundThird liveThird => ?_⟩
  obtain ⟨third, foundBeforeThird, _, aliveThird⟩ := earlier foundThird
  exact only foundBeforeThird (aliveThird ▸ liveThird)

theorem Lone.advances (holds : Holds property db store) (lone : Lone store)
    (serial : Schedule.Serial db operation) (advances : Advances store operation later) :
    Lone later := by
  -- before a transaction begins, none is open
  have begun : (∀ txn < db.transactions.length, txn ∈ db.ended) → Lone store.begin := by
    intro ended
    have fresh : ∀ {txn : Nat} {snapshot : Snapshot Bytes Bytes},
        store.begin.transactions[txn]? = some snapshot → snapshot.live = true →
          txn = store.transactions.length ∧ snapshot.base = store.committed := by
      intro txn snapshot found live
      rw [SnapshotStore.begin] at found
      rcases Nat.lt_or_ge txn store.transactions.length with below | above
      · rw [List.getElem?_append_left below] at found
        have known := List.getElem?_eq_getElem (holds.refines.length ▸ below)
        exact absurd (ended txn (holds.refines.length ▸ below))
          ((holds.refines.transactions known found).live.mp live)
      · rw [List.getElem?_append_right above, List.getElem?_singleton] at found
        split at found
        · next last =>
          cases found
          exact ⟨by omega, rfl⟩
        · cases found
    intro txn snapshot found live
    refine ⟨(fresh found live).2, fun foundOther liveOther => ?_⟩
    exact (fresh foundOther liveOther).1.trans (fresh found live).1.symm
  -- after a transaction has ended, none is open
  have finished : ∀ {txn : Nat} {snapshot ended : Snapshot Bytes Bytes} {other : Nat},
      store.transactions[txn]? = some snapshot → snapshot.live = true →
      (store.transactions.modify txn Snapshot.finish)[other]? = some ended → ended.live = false := by
    intro txn snapshot ended other found live present
    rw [List.getElem?_modify] at present
    obtain ⟨before, presentBefore, rfl⟩ := Option.map_eq_some_iff.mp present
    split
    · rfl
    · next different =>
      rw [← Bool.not_eq_true]
      exact fun alive => different ((lone found live).2 presentBefore alive).symm
  cases advances with
  | begin => exact begun serial
  | beginReadOnly => exact begun serial
  | call wrote => exact lone.wrote wrote
  | commit found live | rollback found live =>
    intro other snapshot present alive
    cases (finished found live present).symm.trans alive

/-- Nothing was committed since the transaction that commits began. -/
theorem Lone.base_eq (lone : Lone store) (holds : Holds property db store)
    (stepped : Schedule.step db (.commit txn) = some (next, result))
    (found : db.transactions[txn]? = some st)
    (before : Shows (TransactionState.before st) db.engine base)
    (publishes : Publishes db.engine committed) : base = committed := by
  obtain ⟨snapshot, present, live⟩ := holds.open_of_handle stepped
  have encodesBase := (shows_before_iff holds.refines found present).mp before
  rw [(lone present live).1] at encodesBase
  exact encodesBase.unique ((publishes_iff holds.refines).mp publishes)

/-- Run serially, a property that every call keeps holds of the committed contents and of
what the open transaction sees. -/
theorem serial_holds (property : Contents → Prop) (initially : property ∅)
    (condition : Database → Operation → Except Fault Unit → Prop)
    (calls : ∀ db txn call result, condition db (.call txn call) result →
      Keeps property db (.call txn call) result) (bounded : Schedule.begins schedule < 2 ^ 64 - 2)
    (throughout : Schedule.Throughout
      (fun db operation result => Schedule.Serial db operation ∧ condition db operation result)
      Database.empty schedule) (ran : Schedule.run Database.empty schedule = some (last, results)) :
    last.Consistent ∧ ∃ store, Holds property last store := by
  have ended := run_holds property (fun _ => Lone)
    (fun db operation result => Schedule.Serial db operation ∧ condition db operation result)
    ?_ ?_ schedule Database.consistent_empty (room_empty bounded) (holds_empty initially)
    (by intro txn snapshot found; simp [SnapshotStore.empty] at found) throughout ran
  · obtain ⟨consistent, _, store, holds, _⟩ := ended
    exact ⟨consistent, store, holds⟩
  · rintro db store operation result next consistent holds lone ⟨serial, met⟩ stepped
    cases operation with
    | call txn call => exact calls db txn call result met
    | commit txn =>
      intro st base committed view merged found before publishes _ merge seen _
      obtain rfl := lone.base_eq holds stepped found before publishes
      rw [merge.eq_of_same]
      exact seen
    | _ => trivial
  · rintro db store operation result next later holds lone ⟨serial, _⟩ advances _
    exact lone.advances holds serial advances

/-- In every run, what is committed and what the open transactions see are contents. -/
theorem run_contents (bounded : Schedule.begins schedule < 2 ^ 64 - 2)
    (ran : Schedule.run Database.empty schedule = some (last, results)) :
    last.Consistent ∧ last.engine.nextVersion = 1 + Schedule.begins schedule ∧
      ∃ store, Holds (fun _ => True) last store := by
  have start : Database.empty.engine.nextVersion = 1 := by
    simp [Database.empty, Engine.nextVersion]
  have ended := run_holds (fun _ => True) (fun _ _ => True) (fun _ _ _ => True) ?_
    (fun _ _ _ _ _ _ _ _ _ _ _ => trivial) schedule Database.consistent_empty
    (room_empty bounded) (holds_empty trivial) trivial (.of_forall (fun _ _ _ _ => trivial) _) ran
  · obtain ⟨consistent, counted, store, holds, _⟩ := ended
    exact ⟨consistent, start ▸ counted, store, holds⟩
  · intro db store operation result next _ _ _ _ _
    cases operation <;> simp [Keeps]

/-- At the end of a run, every open transaction sees some contents. -/
theorem exists_view (ran : Schedule.run Database.empty schedule = some (last, results))
    (bounded : Schedule.begins schedule < 2 ^ 64 - 2) (found : last.transactions[txn]? = some st)
    (running : txn ∉ last.ended) :
    ∃ contents, Shows st last.engine contents := by
  obtain ⟨consistent, _, store, holds⟩ := run_contents bounded ran
  obtain ⟨contents, shown, _⟩ := holds.shows consistent found running
  exact ⟨contents, shown⟩

end Radb.Sql
