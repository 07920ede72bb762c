import Radb.Sql.Engine.Kv
import Radb.Sql.Engine.Session
import Radb.Storage.Mvcc.Schedule

/-! # Interleaved SQL transactions

An SQL database executes one call at a time, on behalf of any number of transactions
in any order. Every SQL transaction is a transaction of the multi-version store.
-/

namespace Radb.Sql

open Foundation Foundation.Program Radb.Storage

variable {db : Mvcc.Database} {schedule : List Operation}
  {condition : Mvcc.Database → Operation → Except Fault Unit → Prop}

/-- One operation on an SQL database; transactions are numbered in the order in which
they began. -/
inductive Operation where
  | begin
  | beginReadOnly
  | call (txn : Nat) (call : Kv.Call)
  | commit (txn : Nat)
  | rollback (txn : Nat)
  deriving DecidableEq

namespace Schedule

variable {last : Mvcc.Database} {results : List (Except Fault Unit)}

/-- The result of an operation of the multi-version store. -/
def outcome : Except Error Mvcc.Response → Except Fault Unit
  | .ok _ => .ok ()
  | .error error => .error (.error error)

/-- An operation that is one of the multi-version store. -/
def delegate (db : Mvcc.Database) (operation : Mvcc.Operation) :
    Option (Mvcc.Database × Except Fault Unit) :=
  (db.step operation).map fun (next, result) => (next, outcome result)

/-- One step. There is none for a transaction that has not begun or has ended. -/
def step (db : Mvcc.Database) : Operation → Option (Mvcc.Database × Except Fault Unit)
  | .begin => delegate db .begin
  | .beginReadOnly => delegate db .beginReadOnly
  | .call txn call =>
    match db.transactions[txn]? with
    | none => none
    | some st =>
      if txn ∈ db.ended then none
      else some ({ db with engine := (session st call.script).after db.engine },
        ((session st call.script).run db.engine).result)
  | .commit txn => delegate db (.use txn .handle .commit)
  | .rollback txn => delegate db (.use txn .handle .rollback)

/-- Run a schedule, recording every result. -/
def run (db : Mvcc.Database) :
    List Operation → Option (Mvcc.Database × List (Except Fault Unit))
  | [] => some (db, [])
  | operation :: rest =>
    match step db operation with
    | none => none
    | some (next, result) =>
      match run next rest with
      | none => none
      | some (last, results) => some (last, result :: results)

/-- What is computed from the last database of a run. -/
theorem of_run {Outcome : Type} (ran : run db schedule = some (last, results))
    (observe : Mvcc.Database → Outcome) {outcome : Outcome}
    (computed : (run db schedule).map (fun stage => observe stage.1) = some outcome) :
    observe last = outcome := by
  rw [ran] at computed
  exact Option.some.inj computed

/-- A condition on every step of a run, its result included. -/
def Throughout (condition : Mvcc.Database → Operation → Except Fault Unit → Prop) :
    Mvcc.Database → List Operation → Prop
  | _, [] => True
  | db, operation :: rest => ∀ next result, step db operation = some (next, result) →
      condition db operation result ∧ Throughout condition next rest

theorem Throughout.of_forall
    (holds : ∀ operation ∈ schedule, ∀ db result, condition db operation result) :
    ∀ db, Throughout condition db schedule := by
  induction schedule with
  | nil => exact fun _ => trivial
  | cons operation rest ih =>
    intro db next result _
    exact ⟨holds operation List.mem_cons_self db result,
      ih (fun other member => holds other (List.mem_cons_of_mem _ member)) next⟩

/-- The results of the steps of a run are those it records. -/
theorem Throughout.of_results (ran : run db schedule = some (last, results))
    (holds : Throughout condition db schedule) :
    Throughout (fun db operation result => condition db operation result ∧ result ∈ results)
      db schedule := by
  have general : ∀ {recorded : List (Except Fault Unit)}, (∀ result ∈ results, result ∈ recorded) →
      Throughout (fun db operation result => condition db operation result ∧ result ∈ recorded)
        db schedule := by
    induction schedule generalizing db results with
    | nil => exact fun _ => trivial
    | cons operation rest ih =>
      intro recorded included next result stepped
      simp only [run, stepped] at ran
      obtain ⟨met, later⟩ := holds next result stepped
      cases continued : run next rest with
      | none => simp only [continued, reduceCtorEq] at ran
      | some final =>
        obtain ⟨_, tail⟩ := final
        simp only [continued, Option.some.injEq, Prod.mk.injEq] at ran
        obtain ⟨rfl, rfl⟩ := ran
        exact ⟨⟨met, included _ List.mem_cons_self⟩, ih continued later fun other member =>
          included other (List.mem_cons_of_mem _ member)⟩
  exact general fun _ member => member

theorem Throughout.mono {weaker : Mvcc.Database → Operation → Except Fault Unit → Prop}
    (weaken : ∀ db operation result, condition db operation result → weaker db operation result)
    (holds : Throughout condition db schedule) :
    Throughout weaker db schedule := by
  induction schedule generalizing db with
  | nil => trivial
  | cons operation rest ih =>
    intro next result stepped
    obtain ⟨met, later⟩ := holds next result stepped
    exact ⟨weaken _ _ _ met, ih later⟩

/-- The number of read-write transactions a schedule begins. -/
def begins (schedule : List Operation) : Nat := schedule.count .begin

/-- A transaction begins only when all earlier ones have ended. -/
def Serial (db : Mvcc.Database) : Operation → Prop
  | .begin | .beginReadOnly => ∀ txn < db.transactions.length, txn ∈ db.ended
  | _ => True

end Schedule

end Radb.Sql
