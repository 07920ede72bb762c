import Mathlib
import Radb.Error
import Radb.Foundation.Store

/-! # The Raft log

The log of commands a node keeps in a key-value engine, together with its current
term, its vote and its commit index. The last and the committed position are cached
in memory. Values are kept decoded, indexes and terms are unbounded, flushing is not
modelled and the engine itself never fails.
-/

namespace Radb.Raft

open Foundation Foundation.Program

/-- A node ID. -/
abbrev NodeID := UInt8

scoped instance lawful_nodeID : LawfulBEq NodeID := inferInstance

/-- A log entry. -/
structure Entry where
  /-- The entry index. -/
  index : Nat
  /-- The term in which the entry was added. -/
  term : Nat
  /-- The state machine command. None is used to commit noops during leader election. -/
  command : Option Bytes
  deriving DecidableEq

/-- How a function stops without returning: an error result, or a panic. -/
inductive Fault where
  | error (error : Error)
  | panic (message : String)
  deriving DecidableEq

/-- A Raft log's cached positions. -/
@[ext] structure Log where
  /-- The index of the last stored entry. -/
  lastIndex : Nat
  /-- The term of the last stored entry. -/
  lastTerm : Nat
  /-- The index of the last committed entry. -/
  commitIndex : Nat
  /-- The term of the last committed entry. -/
  commitTerm : Nat
  deriving DecidableEq

namespace Log

/-- A log key. -/
inductive Key where
  /-- A log entry, storing the term and command. -/
  | entry (index : Nat)
  /-- Stores the current term and vote (if any). -/
  | termVote
  /-- Stores the current commit index (if any). -/
  | commitIndex
  deriving DecidableEq

/-- The variant index and the index of a key, in the order of its encoding. -/
def Key.fields : Key → ℕ ×ₗ ℕ
  | .entry index => toLex (0, index)
  | .termVote => toLex (1, 0)
  | .commitIndex => toLex (2, 0)

theorem Key.fields_injective : Function.Injective Key.fields := by
  intro first second same
  cases first <;> cases second <;> simp_all [Key.fields]

instance : LinearOrder Key := LinearOrder.lift' Key.fields Key.fields_injective

theorem Key.entry_lt_entry (first second : Nat) :
    Key.entry first < Key.entry second ↔ first < second := by
  rw [← not_le, ← not_le, not_iff_not]
  change (Key.entry second).fields ≤ (Key.entry first).fields ↔ second ≤ first
  simp [Key.fields, Prod.Lex.toLex_le_toLex]

/-- What is stored under a key. -/
@[reducible] def Key.Value : Key → Type
  | .entry _ => Nat × Option Bytes
  | .termVote => Nat × Option NodeID
  | .commitIndex => Nat × Nat

instance (key : Key) : DecidableEq (Key.Value key) :=
  match key with
  | .entry _ => inferInstanceAs (DecidableEq (Nat × Option Bytes))
  | .termVote => inferInstanceAs (DecidableEq (Nat × Option NodeID))
  | .commitIndex => inferInstanceAs (DecidableEq (Nat × Nat))

/-- The storage engine under the log. -/
abbrev Engine := Foundation.Store Key.Value

/-- A write to the engine. -/
abbrev Write := Store.Write Key.Value

/-- A program over the log's engine. -/
abbrev Session (Result : Type) := Program (Store.replay : Engine → Write → Engine) Fault Result

/-- The entry keys of an index range. -/
def Key.inRange (range : Nat → Bool) : Key → Bool
  | .entry index => range index
  | _ => false

/-- Decodes an entry from a log key/value pair. -/
def decodeEntry : Sigma Key.Value → Session Entry
  | ⟨.entry index, value⟩ => ret ⟨index, value.1, value.2⟩
  | _ => fail (.error (.internal "Invalid key"))

/-- Decodes a list of pairs. -/
def decodeEntries : List (Sigma Key.Value) → Session (List Entry)
  | [] => ret []
  | pair :: rest => do
    let entry ← decodeEntry pair
    let entries ← decodeEntries rest
    ret (entry :: entries)

/-- Iterates over log entries in the given index range. -/
def scan (range : Nat → Bool) : Session (List Entry) := do
  let engine ← view
  decodeEntries (engine.scanGroup (Key.inRange range))

/-- Creates a new log, using the given storage engine. -/
def new : Session Log := do
  let engine ← view
  let entries ← scan fun _ => true
  let (lastIndex, lastTerm) := (entries.getLast?.map fun e => (e.index, e.term)).getD (0, 0)
  let (commitIndex, commitTerm) := (engine.get .commitIndex).getD (0, 0)
  ret { lastIndex, lastTerm, commitIndex, commitTerm }

/-- Returns the last known term (0 if none), and cast vote (if any). -/
def getTerm : Session (Nat × Option NodeID) := do
  let engine ← view
  ret ((engine.get .termVote).getD (0, none))

/-- Sets the most recent term, and cast vote (if any). -/
def setTerm (term : Nat) (votedFor : Option NodeID) : Session Unit :=
  perform (.set .termVote (term, votedFor))

/-- Fetches an entry at an index, or None if it does not exist. -/
def get (index : Nat) : Session (Option Entry) := do
  let engine ← view
  ret ((engine.get (.entry index)).map fun value => ⟨index, value.1, value.2⟩)

/-- Checks if the log contains an entry with the given term. -/
def has (index term : Nat) : Session Bool := do
  match ← get index with
  | some entry => ret (entry.term == term)
  | none => ret (index == 0 && term == 0)

/-- Appends a command to the log, returning its index. None implies a noop
command, typically after Raft leader changes. -/
def append (log : Log) (term : Nat) (command : Option Bytes) : Session (Log × Nat) := do
  let index := log.lastIndex + 1
  perform (.set (.entry index) (term, command))
  ret ({ log with lastIndex := index, lastTerm := term }, index)

/-- Commits entries up to and including the given index. The index must
exist, and must be at or after the current commit index. -/
def commit (log : Log) (index : Nat) : Session (Log × Nat) := do
  let current := log.commitIndex
  if index < log.commitIndex then
    fail (.error (.internal s!"Commit index regression {current} -> {index}"))
  else
    match ← get index with
    | none => fail (.error (.internal s!"Can't commit non-existant index {index}"))
    | some entry => do
      perform (.set .commitIndex (entry.index, entry.term))
      ret ({ log with commitIndex := entry.index, commitTerm := entry.term }, index)

/-- Whether entries have consecutive indexes. -/
def contiguous : List Entry → Bool
  | first :: second :: rest => first.index + 1 == second.index && contiguous (second :: rest)
  | _ => true

/-- Skips the entries that are already in the log, given the stored ones. -/
def skip : List Entry → List Entry → Session (List Entry)
  | stored :: scan, first :: rest =>
    if stored.term ≠ first.term then ret (first :: rest) else skip scan rest
  | [], entries => ret entries
  | _ :: _, [] => fail (.panic "index out of bounds")

/-- Splices a set of entries into the log. The entries must be contiguous,
and the first entry must be at most last_index+1. If an entry does not
exist, append it. If an existing entry has a term mismatch, replace it
and all following entries. -/
def splice (log : Log) (entries : List Entry) : Session (Log × Nat) :=
  match entries, entries.getLast? with
  | first :: _, some last =>
    if first.index = 0 ∨ first.index > log.lastIndex + 1 then
      fail (.error (.internal "Spliced entries must begin before last index"))
    else if ¬ contiguous entries then
      fail (.error (.internal "Spliced entries must be contiguous"))
    else do
      let stored ← scan fun index => first.index ≤ index ∧ index ≤ last.index
      let entries ← skip stored entries
      if (entries.head?.any fun next => next.index ≤ log.commitIndex) then
        fail (.error (.internal "Spliced entries must begin after commit index"))
      else
        each (fun e : Entry => perform (.set (.entry e.index) (e.term, e.command))) entries
        each (fun index => perform (.delete (.entry index)))
          (List.range' (last.index + 1) (log.lastIndex - last.index))
        ret ({ log with lastIndex := last.index, lastTerm := last.term }, last.index)
  | _, _ => ret (log, log.lastIndex)

end Log

end Radb.Raft
