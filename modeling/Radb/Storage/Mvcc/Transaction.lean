import Radb.Storage.Mvcc.Key

/-! # MVCC transactions

The operations of a transaction as programs over the storage engine. The engine
is locked for the whole of each operation, so an operation is one program. Values
are kept decoded; the engine's own input and output errors are not modelled, so
the only errors are those the transaction code raises itself.
-/

namespace Radb.Storage.Mvcc

open Foundation Foundation.Program

/-- A program that holds the engine lock. -/
abbrev Session (Result : Type) :=
  Program (Store.replay : Engine → Store.Write Key.Value → Engine) Error Result

/-- A transaction's state, which determines its write version and isolation. -/
structure TransactionState where
  /-- The version this transaction is running at. -/
  version : Version
  /-- If true, the transaction is read only. -/
  readOnly : Bool
  /-- The concurrent active transactions as of the start of this one. -/
  active : Finset Version
  deriving DecidableEq

/-- Whether a version is visible to a transaction: never one of a transaction
that was active when it began, and otherwise only past versions, including its
own unless it is read only. -/
def TransactionState.isVisible (st : TransactionState) (version : Version) : Bool :=
  if version ∈ st.active then false
  else if st.readOnly then version < st.version
  else version ≤ st.version

namespace Transaction

/-- Collect the versions of scanned active-transaction keys. -/
def collectActive : List (Sigma Key.Value) → Session (Finset Version)
  | [] => ret ∅
  | ⟨.txnActive version, _⟩ :: rest => do
    let active ← collectActive rest
    ret (insert version active)
  | _ :: _ => fail (.internal "Expected TxnActive key")

/-- Fetch the set of currently active transactions. -/
def scanActive : Session (Finset Version) := do
  let session ← view
  collectActive (session.scanGroup KeyPrefix.txnActive.covers)

/-- Begin a transaction in read-write mode: allocate a version to write at,
record the active set for time-travel queries if it is not empty, and join it. -/
def begin : Session TransactionState := do
  let session ← view
  let version := (session.get .nextVersion).getD 1
  perform (.set .nextVersion (version + 1))
  let active ← scanActive
  if active ≠ ∅ then
    perform (.set (.txnActiveSnapshot version) active)
  perform (.set (.txnActive version) ())
  ret { version, readOnly := false, active }

/-- Begin a read-only transaction, at the latest version or as of a past one. -/
def beginReadOnly (asOf : Option Version) : Session TransactionState := do
  let session ← view
  let version := (session.get .nextVersion).getD 1
  match asOf with
  | some past =>
    if past ≥ version then
      fail (.value s!"Version {past} does not exist")
    else
      ret { version := past, readOnly := true,
            active := (session.get (.txnActiveSnapshot past)).getD ∅ }
  | none => do
    let active ← scanActive
    ret { version, readOnly := true, active }

/-- Resume a transaction from its state. A read-write transaction must still be
active. -/
def resume (st : TransactionState) : Session TransactionState := do
  let session ← view
  let stamp := st.version
  if st.readOnly = false ∧ session.get (.txnActive st.version) = none then
    fail (.internal s!"No active transaction at version {stamp}")
  else
    ret st

/-- Commit: drop the write records, then leave the active set. -/
def commit (st : TransactionState) : Session Unit := do
  if st.readOnly then
    ret ()
  else
    let session ← view
    let remove := (session.scanGroup (KeyPrefix.txnWrite st.version).covers).map Sigma.fst
    each (fun key => perform (.delete key)) remove
    perform (.delete (.txnActive st.version))

/-- The keys a rollback removes: for every write record, the version it wrote and
the record itself. -/
def rollbackKeys (st : TransactionState) : List (Sigma Key.Value) → Session (List Key)
  | [] => ret []
  | ⟨.txnWrite version key, _⟩ :: rest => do
    let keys ← rollbackKeys st rest
    ret (.version key st.version :: .txnWrite version key :: keys)
  | _ :: _ => fail (.internal "Expected TxnWrite")

/-- Roll back: undo all written versions, then leave the active set. The active
set snapshot is left behind for time travel queries. -/
def rollback (st : TransactionState) : Session Unit := do
  if st.readOnly then
    ret ()
  else
    let session ← view
    let keys ← rollbackKeys st (session.scanGroup (KeyPrefix.txnWrite st.version).covers)
    each (fun key => perform (.delete key)) keys
    perform (.delete (.txnActive st.version))

/-- The oldest version that can conflict with a write: the smallest version of
the active set, or the one after the transaction's own if the set is empty. -/
def conflictFloor (st : TransactionState) : Version :=
  st.active.min.untopD (st.version + 1)

/-- Whether the latest scanned version is hidden from a transaction. -/
def conflicts (st : TransactionState) : Option (Sigma Key.Value) → Session Bool
  | none => ret false
  | some ⟨.version _ version, _⟩ => ret (!st.isVisible version)
  | some _ => fail (.internal "Expected Key::Version")

/-- Write a new version of a key at the transaction's version; `none` writes a
deletion tombstone. If the latest version of the key is invisible to the
transaction, the write fails with a serialization error. -/
def writeVersion (st : TransactionState) (key : Bytes) (value : Option Bytes) : Session Unit := do
  if st.readOnly then
    fail .readOnly
  else
    let session ← view
    let latest :=
      (session.scan (.version key (conflictFloor st)) (.version key versionMax)).getLast?
    let conflict ← conflicts st latest
    if conflict then
      fail .serialization
    else
      perform (.set (.txnWrite st.version key) ())
      perform (.set (.version key st.version) value)

/-- Delete a key. -/
def delete (st : TransactionState) (key : Bytes) : Session Unit := writeVersion st key none

/-- Set a value for a key. -/
def set (st : TransactionState) (key value : Bytes) : Session Unit :=
  writeVersion st key (some value)

/-- The value of the first visible version in a list. -/
def firstVisible (st : TransactionState) : List (Sigma Key.Value) → Session (Option Bytes)
  | [] => ret none
  | ⟨.version _ version, value⟩ :: rest =>
    if st.isVisible version then ret value else firstVisible st rest
  | _ :: _ => fail (.internal "Expected Key::Version")

/-- Fetch a key's value, or `none` if it does not exist: the latest visible
version, searched downwards from the transaction's version. -/
def get (st : TransactionState) (key : Bytes) : Session (Option Bytes) := do
  let session ← view
  firstVisible st (session.scan (.version key 0) (.version key st.version)).reverse

end Transaction

end Radb.Storage.Mvcc
