import Radb.Sql.Engine.Isolation
import Radb.Sql.Execution.Executor

/-! # Autocommit

Outside of a transaction a session runs a statement in a transaction of its own, which it commits
if the statement succeeds and rolls back if it fails. An error of the planner or of an optimizer
ends the call before that, with the transaction still open.
-/

namespace Radb.Sql

open Foundation Foundation.Program Radb.Storage Radb.Storage.Mvcc

variable {engine : Engine}
  {First Second : Type} {next : Database} {post : Except Fault Second → Engine → Prop}

/-- A statement, as far as a session tells statements apart. -/
inductive Statement (Query Change : Type) where
  | begin (readOnly : Bool) (asOf : Option Version)
  | commit
  | rollback
  | explain (statement : Statement Query Change)
  | select (query : Query)
  /-- A statement that changes the schema or rows. -/
  | change (change : Change)

/-- A planner and optimizers, which only read. -/
structure Planner (Query Change : Type) where
  build : Statement Query Change → Task Node
  optimize : Node → Task Node
  reads_build : ∀ statement, (build statement).Reads
  reads_optimize : ∀ node, (optimize node).Reads

/-- Builds a plan and optimizes it. -/
def Planner.plan {Query Change : Type} (planner : Planner Query Change)
    (statement : Statement Query Change) : Task Node :=
  (planner.build statement).andThen planner.optimize

/-- What a session answers. -/
inductive Answer where
  | begin (version : Version) (readOnly : Bool)
  | commit (version : Version)
  | rollback (version : Version)
  | explain (plan : Node)
  | executed (result : ResultSet)
  deriving DecidableEq

namespace Session

variable {Query Change Result : Type}

/-- Takes an error for a value. A panic goes on. -/
def attempt (work : Work Result) : Work (Except Error Result) :=
  ⟨fun engine => ⟨(work.run engine).journal,
    match (work.run engine).result with
    | .ok result => .ok (.ok result)
    | .error (.error error) => .ok (.error error)
    | .error (.panic message) => .error (.panic message)⟩⟩

/-- Returns a value or fails with an error. -/
def raise : Except Error Result → Work Result
  | .ok result => ret result
  | .error error => fail (.error error)

/-- Runs a read-only closure in the session's transaction, or a new read-only transaction if none
is active. -/
def withTxnReadOnly (txn : Option TransactionState) (closure : TransactionState → Work Result) :
    Work Result :=
  match txn with
  | some st => closure st
  | none => do
    let st ← operation (Transaction.beginReadOnly none)
    let result ← attempt (closure st)
    operation (Transaction.rollback st)
    raise result

/-- The result of a statement, with the transaction the session has afterwards. -/
def leave (txn : Option TransactionState) (work : Work Answer) :
    Work (Option TransactionState × Except Error Answer) := do
  let answer ← attempt work
  ret (txn, answer)

/-- Starts a transaction for the session. -/
def start (readOnly : Bool) (work : Work TransactionState) :
    Work (Option TransactionState × Except Error Answer) := do
  match ← attempt work with
  | .ok st => ret (some st, .ok (.begin st.version readOnly))
  | .error error => ret (none, .error error)

/-- Executes a parsed query, managing transaction status for the session. -/
def execute (planner : Planner Query Change) (txn : Option TransactionState)
    (parsed : Except Error (Statement Query Change)) :
    Work (Option TransactionState × Except Error Answer) :=
  match parsed, txn with
  | .error error, txn => ret (txn, .error error)
  | .ok (.begin _ _), some st => ret (some st, .error (.value "Already in a transaction"))
  | .ok (.begin true asOf), none => start true (operation (Transaction.beginReadOnly asOf))
  | .ok (.begin false (some _)), none =>
    ret (none, .error (.value "Can't start read-write transaction in a given version"))
  | .ok (.begin false none), none => start false (operation Transaction.begin)
  | .ok .commit, none => ret (none, .error (.value "Not in a transaction"))
  | .ok .rollback, none => ret (none, .error (.value "Not in a transaction"))
  | .ok .commit, some st => leave none do
      operation (Transaction.commit st)
      ret (.commit st.version)
  | .ok .rollback, some st => leave none do
      operation (Transaction.rollback st)
      ret (.rollback st.version)
  | .ok (.explain statement), txn => leave txn (withTxnReadOnly txn fun st => do
    let plan ← session st (planner.plan statement)
    ret (.explain plan))
  | .ok statement, some st => leave (some st) do
      let plan ← session st (planner.plan statement)
      let result ← session st (Executor.build plan)
      ret (.executed result)
  | .ok (.select query), none => leave none do
      let st ← operation (Transaction.beginReadOnly none)
      let plan ← session st (planner.plan (.select query))
      let result ← attempt (session st (Executor.build plan))
      operation (Transaction.rollback st)
      let result ← raise result
      ret (.executed result)
  | .ok (.change change), none => leave none do
      let st ← operation Transaction.begin
      let plan ← session st (planner.plan (.change change))
      match ← attempt (session st (Executor.build plan)) with
      | .ok result => do
        operation (Transaction.commit st)
        ret (.executed result)
      | .error error => do
        operation (Transaction.rollback st)
        fail (.error error)

/-- The same transactions are active. -/
def Closed (before after : Engine) : Prop := ∀ version, after.Active version ↔ before.Active version

/-- The same contents are committed. -/
def Unchanged (before after : Engine) : Prop :=
  ∀ contents, Publishes after contents ↔ Publishes before contents

/-- Outside of a transaction a statement that returns leaves no transaction open, and changes
nothing if it returns an error. -/
def Autocommits (planner : Planner Query Change)
    (parsed : Except Error (Statement Query Change)) (engine : Engine) : Prop :=
  ∀ txn answer, ((execute planner none parsed).run engine).result = .ok (txn, answer) →
    txn = none ∧ Closed engine ((execute planner none parsed).after engine) ∧
      ∀ error, answer = .error error →
        Unchanged engine ((execute planner none parsed).after engine)

/-- What is to be shown of the work of a statement. -/
def Clean (before : Engine) : Except Fault Result → Engine → Prop
  | .ok _, after => Closed before after
  | .error (.error _), after => Closed before after ∧ Unchanged before after
  | .error (.panic _), _ => True

/-- What holds of the result of a piece of work and the engine after it. -/
def Ensures (work : Work Result) (engine : Engine)
    (post : Except Fault Result → Engine → Prop) : Prop :=
  post (work.run engine).result (work.after engine)

theorem ensures_andThen {work : Work First} {next : First → Work Second}
    (failed : ∀ fault, (work.run engine).result = .error fault →
      post (.error fault) (work.after engine))
    (returned : ∀ value, (work.run engine).result = .ok value →
      Ensures (next value) (work.after engine) post) :
    Ensures (andThen work next) engine post := by
  cases ran : work.run engine with
  | mk journal result =>
    rw [Program.after, ran] at failed returned
    cases result with
    | error fault =>
      rw [Ensures, Program.after, andThen_of_stop _ ran]
      exact failed fault rfl
    | ok value =>
      rw [Ensures, Program.after, andThen_of_run _ ran, replayAll_append]
      exact returned value rfl

theorem ensures_attempt {work : Work First} {next : Except Error First → Work Second}
    (panicked : ∀ message after, post (.error (.panic message)) after)
    (ended : ∀ result, Ensures (next result) (work.after engine) post) :
    Ensures (andThen (attempt work) next) engine post := by
  refine ensures_andThen (fun fault failed => ?_) fun result _ => ended result
  dsimp only [attempt] at failed
  split at failed <;> cases failed
  exact panicked _ _

theorem leave_run (txn : Option TransactionState) (work : Work Answer) (engine : Engine) :
    (leave txn work).run engine = ⟨(work.run engine).journal,
      ((attempt work).run engine).result.map fun answer => (txn, answer)⟩ :=
  andThen_ret_run _ _ _

theorem autocommits_of_clean {planner : Planner Query Change}
    {parsed : Except Error (Statement Query Change)} {work : Work Answer}
    (left : execute planner none parsed = leave none work)
    (clean : Ensures work engine (Clean engine)) : Autocommits planner parsed engine := by
  intro txn answer returned
  rw [left, leave_run] at returned
  rw [left, Program.after, leave_run]
  dsimp only [attempt] at returned
  unfold Ensures at clean
  split at returned
  · next ended =>
    rw [ended] at clean
    cases returned
    refine ⟨rfl, clean, ?_⟩
    intro _ failed
    cases failed
  · next ended =>
    rw [ended] at clean
    cases returned
    exact ⟨rfl, clean.1, fun _ _ => clean.2⟩
  · cases returned

theorem plan_run (planner : Planner Query Change) (statement : Statement Query Change)
    {st : TransactionState} {contents : Contents} (own : st.version ∉ st.active)
    (shows : Shows st engine contents) :
    (session st (planner.plan statement)).run engine =
      ⟨[], contents.reply (planner.plan statement)⟩ := by
  have reads : (planner.plan statement).Reads :=
    (planner.reads_build statement).andThen planner.reads_optimize
  obtain ⟨journal, result, ran, worked, _⟩ := shows.session_run own (planner.plan statement)
  rw [reads.run] at ran
  cases ran
  exact worked

section Own

variable {db : Database} {store : Isolated} {st : TransactionState}

/-- The session's own transaction is open, and nothing was committed since it began. -/
def Within (db : Database) (store : Isolated) (st : TransactionState) (engine : Engine) : Prop :=
  engine.nextVersion ≤ versionMax ∧
    Database.Consistent ⟨engine, db.transactions ++ [st], db.ended⟩ ∧
    ∃ later, Holds (fun _ => True) ⟨engine, db.transactions ++ [st], db.ended⟩ later ∧
      later.committed = store.committed

variable {engine : Engine} (consistent : db.Consistent)
include consistent

theorem Within.work (within : Within db store st engine) (task : Task Result) :
    Within db store st ((session st task).after engine) := by
  obtain ⟨bounded, still, later, holds, same⟩ := within
  have running : db.transactions.length ∉ db.ended := fun ended =>
    Nat.lt_irrefl _ (consistent.ended_lt _ ended)
  obtain ⟨next, version, last, held, wrote⟩ := holds.work still bounded
    List.getElem?_concat_length running task fun _ _ _ _ => trivial
  exact ⟨version.le.trans bounded, next, last, held, wrote.committed.trans same⟩

/-- Once the own transaction has ended, the same transactions are active as before it began. -/
theorem closed_of_ended (still : next.Consistent)
    (begun : next.transactions = db.transactions ++ [st])
    (ended : st.readOnly = true ∧ next.ended = db.ended ∨
      next.ended = insert db.transactions.length db.ended) :
    Closed db.engine next.engine := by
  intro version
  rw [still.active_iff, consistent.active_iff]
  have owns {txn : Nat} {other : TransactionState} : next.Owns txn other ∧ txn ∉ next.ended ↔
      db.Owns txn other ∧ txn ∉ db.ended := by
    unfold Database.Owns
    rw [begun]
    rcases Nat.lt_trichotomy txn db.transactions.length with below | rfl | above
    · have apart : txn ∉ next.ended ↔ txn ∉ db.ended := by
        rcases ended with ⟨_, same⟩ | same
        · rw [same]
        · rw [same, Finset.mem_insert, or_iff_right below.ne]
      rw [List.getElem?_append_left below, apart]
    · rw [List.getElem?_concat_length, List.getElem?_eq_none le_rfl]
      rcases ended with ⟨readOnly, _⟩ | same
      · simp only [Option.some.injEq, reduceCtorEq, false_and, iff_false]
        rintro ⟨⟨rfl, writable⟩, _⟩
        exact Bool.false_ne_true (writable.symm.trans readOnly)
      · simp [same]
    · rw [List.getElem?_eq_none (by simpa using Nat.succ_le_of_lt above), List.getElem?_eq_none above.le]
      simp
  constructor
  · rintro ⟨txn, other, owned, same, running⟩
    exact ⟨txn, other, (owns.mp ⟨owned, running⟩).1, same, (owns.mp ⟨owned, running⟩).2⟩
  · rintro ⟨txn, other, owned, same, running⟩
    exact ⟨txn, other, (owns.mpr ⟨owned, running⟩).1, same, (owns.mpr ⟨owned, running⟩).2⟩

theorem ended_clean {later : Isolated} (still : next.Consistent)
    (refinesBefore : Refines db store) (refines : Refines next later)
    (begun : next.transactions = db.transactions ++ [st])
    (ended : st.readOnly = true ∧ next.ended = db.ended ∨
      next.ended = insert db.transactions.length db.ended)
    (same : later.committed = store.committed) (result : Except Fault Result) :
    Clean db.engine result next.engine := by
  have closed := closed_of_ended consistent still begun ended
  have unchanged : Unchanged db.engine next.engine := fun contents => by
    rw [publishes_iff refines, publishes_iff refinesBefore, same]
  cases result with
  | ok _ => exact closed
  | error fault =>
    cases fault with
    | error _ => exact ⟨closed, unchanged⟩
    | panic _ => trivial

variable (holds : Holds (fun _ => True) db store)
include holds

/-- A read-only transaction does not have to be ended. -/
theorem Within.clean (within : Within db store st engine) (readOnly : st.readOnly = true)
    (result : Except Fault Result) : Clean db.engine result engine := by
  obtain ⟨_, still, later, held, same⟩ := within
  exact ended_clean consistent still holds.refines held.refines rfl (.inl ⟨readOnly, rfl⟩) same result

theorem Within.ensures_rollback (within : Within db store st engine) (next : Unit → Work Result)
    {result : Except Fault Result} (returns : ∀ engine, (next ()).run engine = ⟨[], result⟩) :
    Ensures (andThen (operation (Transaction.rollback st)) next) engine (Clean db.engine) := by
  obtain ⟨_, still, later, held, same⟩ := within
  have running : db.transactions.length ∉ db.ended := fun ended =>
    Nat.lt_irrefl _ (consistent.ended_lt _ ended)
  cases readOnly : st.readOnly with
  | true =>
    have ran := operation_of_run (Transaction.rollback_readOnly engine st readOnly)
    rw [Ensures, Program.after, andThen_of_run next ran, returns]
    exact ended_clean consistent still holds.refines held.refines rfl (.inl ⟨readOnly, rfl⟩) same _
  | false =>
    obtain ⟨returned, removed⟩ := Transaction.rollback_run engine st readOnly
    have transition : Database.Transition ⟨engine, db.transactions ++ [st], db.ended⟩
        (.use db.transactions.length .handle .rollback, .ok .done) _ :=
      .rollback ⟨List.getElem?_concat_length, readOnly⟩ running removed
    obtain ⟨_, explains, refines⟩ := held.refines.explains still transition
    cases explains with
    | write found live written => cases written
    | rollback found valid =>
      have ran : (Transaction.rollback st).run engine =
          ⟨((Transaction.rollback st).run engine).journal, .ok ()⟩ := by rw [← returned]
      rw [Ensures, Program.after, andThen_of_run next (operation_of_run ran), returns,
        List.append_nil]
      exact ended_clean consistent (transition.consistent still) holds.refines refines rfl
        (.inr rfl) same _

omit holds in
theorem Within.ensures_commit (within : Within db store st engine) (writable : st.readOnly = false)
    (result : Result) :
    Ensures (andThen (operation (Transaction.commit st)) fun _ => ret result) engine
      (Clean db.engine) := by
  obtain ⟨_, still, _⟩ := within
  have running : db.transactions.length ∉ db.ended := fun ended =>
    Nat.lt_irrefl _ (consistent.ended_lt _ ended)
  obtain ⟨returned, removed⟩ := Transaction.commit_run engine st writable
  have transition : Database.Transition ⟨engine, db.transactions ++ [st], db.ended⟩
      (.use db.transactions.length .handle .commit, .ok .done) _ :=
    .commit ⟨List.getElem?_concat_length, writable⟩ running removed
  have ran : (Transaction.commit st).run engine =
      ⟨((Transaction.commit st).run engine).journal, .ok ()⟩ := by rw [← returned]
  rw [Ensures, Program.after, andThen_ret_of_run _ (operation_of_run ran)]
  exact closed_of_ended consistent (transition.consistent still) rfl (.inr rfl)

theorem ensures_begin {next : TransactionState → Work Result}
    {post : Except Fault Result → Engine → Prop} (room : db.engine.nextVersion < versionMax)
    (goes : ∀ st engine, st.readOnly = false → st.version = db.engine.nextVersion →
      st.version ∉ st.active → Within db store st engine →
      (∀ contents, Publishes db.engine contents → Shows st engine contents) →
      Ensures (next st) engine post) :
    Ensures (andThen (operation Transaction.begin) next) db.engine post := by
  obtain ⟨active, ran, members⟩ := Transaction.begin_run db.engine
  have transition := Database.Transition.begin members
  have still := transition.consistent consistent
  obtain ⟨_, explains, refines⟩ := holds.refines.explains consistent transition
  cases explains
  have running : db.transactions.length ∉ db.ended := fun ended =>
    Nat.lt_irrefl _ (consistent.ended_lt _ ended)
  rw [Ensures, Program.after, andThen_of_run next (operation_of_run ran), replayAll_append]
  refine goes _ _ rfl rfl (fun member => ?_) ⟨transition.nextVersion.le.trans room, still,
    store.begin, holds.begin refines, rfl⟩ fun contents publishes => ?_
  · exact Nat.lt_irrefl _ (still.snapshot_lt List.getElem?_concat_length member)
  · have present : store.begin.transactions[db.transactions.length]? =
        some ⟨store.committed, fun _ => none, true⟩ := by
      rw [← holds.refines.length]
      exact List.getElem?_concat_length
    exact (shows_iff refines still ⟨List.getElem?_concat_length, .inr running⟩ present).mpr
      ((publishes_iff holds.refines).mp publishes)

theorem ensures_beginReadOnly {next : TransactionState → Work Result}
    {post : Except Fault Result → Engine → Prop} (room : db.engine.nextVersion < versionMax)
    (goes : ∀ st, st.readOnly = true → Within db store st db.engine →
      Ensures (next st) db.engine post) :
    Ensures (andThen (operation (Transaction.beginReadOnly none)) next) db.engine post := by
  obtain ⟨active, ran, members⟩ := Transaction.beginReadOnly_run db.engine
  have transition := Database.Transition.beginReadOnly members
  obtain ⟨_, explains, refines⟩ := holds.refines.explains consistent transition
  cases explains
  rw [Ensures, Program.after, andThen_of_run next (operation_of_run ran)]
  exact goes _ rfl ⟨room.le, transition.consistent consistent, store.begin, holds.begin refines, rfl⟩

variable {planner : Planner Query Change} {change : Change} {contents : Contents}

/-- A change that cannot be planned leaves its transaction open. -/
theorem not_autocommits_of_unplanned {error : Error} (room : db.engine.nextVersion < versionMax)
    (publishes : Publishes db.engine contents)
    (failed : contents.reply (planner.plan (.change change)) = .error (.error error)) :
    ¬Autocommits planner (.ok (.change change)) db.engine := by
  intro autocommits
  obtain ⟨work, left, returned, active⟩ : ∃ work,
      execute planner none (.ok (.change change)) = leave none work ∧
      Ensures work db.engine fun result after =>
        result = .error (.error error) ∧ after.Active db.engine.nextVersion := by
    refine ⟨_, rfl, ?_⟩
    refine ensures_begin consistent holds room fun st engine writable stamp own within shows => ?_
    have read := plan_run planner (.change change) own (shows contents publishes)
    rw [failed] at read
    rw [Ensures, Program.after, bind_eq_andThen, andThen_of_stop _ read, ← stamp]
    exact ⟨rfl, within.2.1.active_of_owns ⟨List.getElem?_concat_length, writable⟩
      fun ended => Nat.lt_irrefl _ (consistent.ended_lt _ ended)⟩
  have closed := (autocommits none (.error error) (by
    rw [left, leave_run]
    simp only [attempt, returned, Except.map])).2.1 db.engine.nextVersion
  rw [left, Program.after, leave_run] at closed
  obtain ⟨txn, st, owned, same, _⟩ := (consistent.active_iff _).mp (closed.mp active)
  exact (consistent.writer_lt owned).ne same

theorem autocommits_of_planned (room : db.engine.nextVersion < versionMax)
    (publishes : Publishes db.engine contents)
    (planned : ∀ error, contents.reply (planner.plan (.change change)) ≠ .error (.error error)) :
    Autocommits planner (.ok (.change change)) db.engine := by
  refine autocommits_of_clean rfl ?_
  refine ensures_begin consistent holds room fun st engine writable _ own within shows => ?_
  have still := within.work consistent (planner.plan (.change change))
  refine ensures_andThen (fun fault failed => ?_) fun plan _ => ?_
  · rw [plan_run planner (.change change) own (shows contents publishes)] at failed
    cases fault with
    | panic message => trivial
    | error error => exact absurd failed (planned error)
  refine ensures_attempt (fun _ _ => trivial) fun result => ?_
  have executed := still.work consistent (Executor.build plan)
  cases result with
  | ok result => exact executed.ensures_commit consistent writable _
  | error error => exact executed.ensures_rollback consistent holds _ fun _ => rfl

end Own

/-- Outside of a transaction a statement leaves no transaction open, and changes nothing if it
fails, exactly if it is not one that changes the database and cannot be planned. -/
theorem autocommits_iff_planned {schedule : List Operation} {db : Database}
    {results : List (Except Fault Unit)}
    (ran : Schedule.run Database.empty schedule = some (db, results))
    (bounded : Schedule.begins schedule < 2 ^ 64 - 2) (planner : Planner Query Change)
    {parsed : Except Error (Statement Query Change)}
    (other : ∀ readOnly asOf, parsed ≠ .ok (.begin readOnly asOf)) :
    Autocommits planner parsed db.engine ↔
      ∀ contents change error, Publishes db.engine contents → parsed = .ok (.change change) →
        contents.reply (planner.plan (.change change)) ≠ .error (.error error) := by
  obtain ⟨consistent, version, store, holds⟩ := run_contents bounded ran
  have room : db.engine.nextVersion < versionMax := by
    rw [version]
    change (1 + Schedule.begins schedule : Nat) < 2 ^ 64 - 1
    omega
  have fails (error : Error) :
      Ensures (fail (.error error) : Work Answer) db.engine (Clean db.engine) :=
    ⟨fun _ => Iff.rfl, fun _ => Iff.rfl⟩
  have panics {Result : Type} (message : String) (after : Engine) :
      Clean db.engine (.error (.panic message) : Except Fault Result) after := trivial
  cases parsed with
  | error error =>
    exact iff_of_true (autocommits_of_clean rfl (fails error)) fun _ _ _ _ same => by cases same
  | ok statement =>
    cases statement with
    | begin readOnly asOf => exact absurd rfl (other readOnly asOf)
    | commit | rollback =>
      exact iff_of_true (autocommits_of_clean rfl (fails _)) fun _ _ _ _ same => by cases same
    | explain statement =>
      refine iff_of_true (autocommits_of_clean rfl ?_) fun _ _ _ _ same => by cases same
      simp only [withTxnReadOnly, bind_eq_andThen]
      refine ensures_beginReadOnly consistent holds room fun st readOnly within => ?_
      refine ensures_attempt panics fun result => ?_
      rw [Program.after, andThen_ret_run]
      have planned := within.work consistent (planner.plan statement)
      cases result <;> exact planned.ensures_rollback consistent holds _ fun _ => rfl
    | select query =>
      refine iff_of_true (autocommits_of_clean rfl ?_) fun _ _ _ _ same => by cases same
      refine ensures_beginReadOnly consistent holds room fun st readOnly within => ?_
      have planned := within.work consistent (planner.plan (.select query))
      refine ensures_andThen (fun fault _ => planned.clean consistent holds readOnly _)
        fun plan _ => ?_
      refine ensures_attempt panics fun result => ?_
      have executed := planned.work consistent (Executor.build plan)
      cases result <;> exact executed.ensures_rollback consistent holds _ fun _ => rfl
    | change change =>
      obtain ⟨contents, publishes, _⟩ := holds.publishes
      constructor
      · intro autocommits contents change error publishes same failed
        cases same
        exact not_autocommits_of_unplanned consistent holds room publishes failed autocommits
      · intro planned
        exact autocommits_of_planned consistent holds room publishes fun error =>
          planned contents change error publishes rfl

/-- Statements without expressions that remove rows or a table. -/
inductive Removal where
  | delete (table : String)
  | dropTable (name : String) (ifExists : Bool)

/-- The planner on these statements. There is nothing to optimize. -/
def removals : Planner Empty Removal where
  build
    | .change (.delete table) => do
      let _ ← Kv.mustReadTable table
      Script.done (.delete table (.scan table none none))
    | .change (.dropTable name ifExists) => Script.done (.dropTable name ifExists)
    | .select query => query.elim
    | .explain _ => Script.stop (.error (.internal "Unexpected explain statement"))
    | _ => Script.stop (.error (.internal "Unexpected transaction statement"))
  optimize := Script.done
  reads_build := by
    rintro (_ | _ | _ | _ | query | ⟨table | _⟩)
    · trivial
    · trivial
    · trivial
    · trivial
    · exact query.elim
    · exact (Kv.reads_mustReadTable table).andThen fun _ => trivial
    · trivial
  reads_optimize _ := trivial

theorem autocommits_iff_planned_drop :
    Autocommits removals (.ok (.change (.dropTable "books" false))) Database.empty.engine := by
  have ran : Schedule.run Database.empty [] = some (Database.empty, []) := rfl
  refine (autocommits_iff_planned ran (by decide) removals ?_).mpr ?_
  · intro readOnly asOf wrong
    cases wrong
  · intro contents change error _ same
    cases same
    exact nofun

/-- `DELETE FROM books` without such a table fails in the planner and leaves a transaction open. -/
theorem delete_leaves_open :
    ((execute removals none (.ok (.change (.delete "books")))).run ∅).result =
        .ok (none, .error (.value "Table books does not exist")) ∧
      ¬Autocommits removals (.ok (.change (.delete "books"))) ∅ := by
  have returned : ((execute removals none (.ok (.change (.delete "books")))).run ∅).result =
      .ok (none, .error (.value "Table books does not exist")) := by decide +kernel
  have opened : Store.get ((execute removals none (.ok (.change (.delete "books")))).after ∅)
      (.txnActive 1) = some () := by decide +kernel
  refine ⟨returned, fun autocommits => ?_⟩
  have before := ((autocommits _ _ returned).2.1 1).mp opened
  rw [Engine.Active, Store.get_empty] at before
  cases before

end Session

end Radb.Sql
