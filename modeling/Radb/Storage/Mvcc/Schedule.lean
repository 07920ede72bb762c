import Radb.Storage.Mvcc.Transaction

/-! # Interleaved transactions

A database executes one engine operation at a time, on behalf of any number of
transactions in any order. A transaction is used either through the handle that
`begin` returned, which committing or rolling back consumes, or through its
exported state, which is resumed before every operation.
-/

namespace Radb.Storage.Mvcc

open Foundation Foundation.Program

/-- How a transaction is reached. -/
inductive Access where
  /-- Through its one handle. -/
  | handle
  /-- Through its state, resumed for this operation alone. -/
  | resumed
  deriving DecidableEq

/-- An operation of one transaction. -/
inductive Command where
  | get (key : Bytes)
  | set (key value : Bytes)
  | delete (key : Bytes)
  | commit
  | rollback
  deriving DecidableEq

/-- One operation on the database; transactions are numbered in the order in
which they began. -/
inductive Operation where
  | begin
  | beginReadOnly
  | resume (txn : Nat)
  | use (txn : Nat) (access : Access) (command : Command)
  deriving DecidableEq

/-- The successful result of an operation. -/
inductive Response where
  | transaction (st : TransactionState)
  | value (value : Option Bytes)
  | done
  deriving DecidableEq

/-- An operation and its result. -/
abbrev Event := Operation × Except Error Response

/-- Whether a command consumes the transaction. -/
def Command.ends : Command → Bool
  | .commit | .rollback => true
  | _ => false

/-- The key a command writes and what it writes there: a value, or a deletion. -/
def Command.written : Command → Option (Bytes × Option Bytes)
  | .set key value => some (key, some value)
  | .delete key => some (key, none)
  | _ => none

/-- The program of a command. -/
def Command.program (st : TransactionState) : Command → Session Response
  | .get key => do ret (.value (← Transaction.get st key))
  | .set key value => do Transaction.set st key value; ret .done
  | .delete key => do Transaction.delete st key; ret .done
  | .commit => do Transaction.commit st; ret .done
  | .rollback => do Transaction.rollback st; ret .done

/-- The engine, the transactions begun so far, and those among them that have
ended. -/
structure Database where
  engine : Engine
  transactions : List TransactionState
  ended : Finset Nat

/-- A database over an empty engine. -/
def Database.empty : Database := ⟨∅, [], ∅⟩

namespace Database

/-- Begin a transaction and number it. -/
def start (db : Database) (program : Session TransactionState) :
    Database × Except Error Response :=
  match (program.run db.engine).result with
  | .ok st =>
    (⟨program.after db.engine, db.transactions ++ [st], db.ended⟩, .ok (.transaction st))
  | .error error => ({ db with engine := program.after db.engine }, .error error)

/-- The program of a command, preceded by `resume` when the transaction is
reached through its state. -/
def access (st : TransactionState) : Access → Command → Session Response
  | .handle, command => command.program st
  | .resumed, command => do
    let resumed ← Transaction.resume st
    command.program resumed

/-- Perform a command of a numbered transaction. -/
def perform (db : Database) (txn : Nat) (program : Session Response) (ends : Bool) :
    Database × Except Error Response :=
  let outcome := program.run db.engine
  let ended :=
    match outcome.result with
    | .ok _ => if ends then insert txn db.ended else db.ended
    | .error _ => db.ended
  (⟨program.after db.engine, db.transactions, ended⟩, outcome.result)

/-- One step. There is none for a transaction that has not begun, nor through a
handle that was consumed. -/
def step (db : Database) : Operation → Option (Database × Except Error Response)
  | .begin => some (db.start Transaction.begin)
  | .beginReadOnly => some (db.start (Transaction.beginReadOnly none))
  | .resume txn =>
    match db.transactions[txn]? with
    | none => none
    | some st => some (db.perform txn (do ret (.transaction (← Transaction.resume st))) false)
  | .use txn mode command =>
    match db.transactions[txn]? with
    | none => none
    | some st =>
      if mode = .handle ∧ txn ∈ db.ended then none
      else some (db.perform txn (access st mode command) command.ends)

/-- Run a schedule, recording every result. -/
def run (db : Database) : List Operation → Option (Database × List Event)
  | [] => some (db, [])
  | operation :: rest =>
    match db.step operation with
    | none => none
    | some (next, result) =>
      match next.run rest with
      | none => none
      | some (last, events) => some (last, (operation, result) :: events)

end Database

/-- The number of read-write transactions a schedule begins. -/
def begins (schedule : List Operation) : Nat := schedule.count .begin

end Radb.Storage.Mvcc
