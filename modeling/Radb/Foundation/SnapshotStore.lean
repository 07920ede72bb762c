import Mathlib

/-! # Snapshot-isolated stores

The abstract store a multi-version engine implements. It keeps one committed map
and, for every transaction begun so far, the committed map of the moment it began
and its own latest write of each key. Committing overlays all of a transaction's
writes on the committed map at once; rolling back leaves the map unchanged.
-/

namespace Foundation

/-- A transaction of a snapshot-isolated store. -/
structure Snapshot (Key Value : Type) where
  /-- The committed map when the transaction began. -/
  base : Key → Option Value
  /-- The latest own write of each key: a value, or a deletion. -/
  writes : Key → Option (Option Value)
  /-- Whether the transaction has neither committed nor rolled back. -/
  live : Bool

/-- A committed map and the transactions begun over it. -/
structure SnapshotStore (Key Value : Type) where
  committed : Key → Option Value
  transactions : List (Snapshot Key Value)

variable {Key Value : Type}

namespace Snapshot

/-- The own write of a key if there is one, and otherwise its value when the
transaction began. -/
def read (txn : Snapshot Key Value) (key : Key) : Option Value :=
  (txn.writes key).getD (txn.base key)

/-- A map with a transaction's writes applied. -/
def overlay (txn : Snapshot Key Value) (map : Key → Option Value) (key : Key) : Option Value :=
  (txn.writes key).getD (map key)

/-- Record a write. -/
def write [DecidableEq Key] (txn : Snapshot Key Value) (key : Key) (value : Option Value) :
    Snapshot Key Value :=
  { txn with writes := fun other => if other = key then some value else txn.writes other }

/-- Mark a transaction as ended. -/
def finish (txn : Snapshot Key Value) : Snapshot Key Value := { txn with live := false }

end Snapshot

namespace SnapshotStore

/-- The store nothing was ever committed to. -/
def empty : SnapshotStore Key Value := ⟨fun _ => none, []⟩

/-- Begin a transaction on the current committed map. -/
def begin (store : SnapshotStore Key Value) : SnapshotStore Key Value :=
  { store with
    transactions := store.transactions ++ [⟨store.committed, fun _ => none, true⟩] }

/-- Record a write of a numbered transaction. -/
def write [DecidableEq Key] (store : SnapshotStore Key Value) (txn : Nat) (key : Key)
    (value : Option Value) : SnapshotStore Key Value :=
  { store with transactions := store.transactions.modify txn fun found => found.write key value }

/-- Publish a transaction's writes atomically and end it. -/
def commit (store : SnapshotStore Key Value) (txn : Nat) : SnapshotStore Key Value where
  committed :=
    match store.transactions[txn]? with
    | some found => found.overlay store.committed
    | none => store.committed
  transactions := store.transactions.modify txn Snapshot.finish

/-- End a transaction without publishing anything. -/
def rollback (store : SnapshotStore Key Value) (txn : Nat) : SnapshotStore Key Value :=
  { store with transactions := store.transactions.modify txn Snapshot.finish }

/-- Drop a transaction's writes of some keys. -/
def forget (store : SnapshotStore Key Value) (txn : Nat) (gone : Key → Bool) :
    SnapshotStore Key Value :=
  { store with
    transactions := store.transactions.modify txn fun found =>
      { found with writes := fun key => if gone key then none else found.writes key } }

end SnapshotStore

end Foundation
