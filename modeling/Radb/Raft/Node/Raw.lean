import Mathlib
import Radb.Raft.Message

/-! # Raft nodes

A node's roles, the storage it runs on and what all roles share. Handlers are
programs over the node's disk, which holds its log and its state machine; their
journal has every log write, sent message and applied entry in program order, and
notes when a leader registers and executes a read. Random election timeouts are
drawn once for every step and passed in.
-/

namespace Radb.Raft

open Foundation Foundation.Program

/-- A Raft-managed state machine, with what its implementations promise about the
applied index. -/
class State (σ : Type) where
  /-- A fresh state machine. -/
  empty : σ
  /-- Returns the last applied index from the state machine. -/
  getAppliedIndex : σ → Nat
  /-- Applies a log entry to the state machine. If it returns an internal error, the
  Raft node halts. Any other error is considered applied and returned to the
  caller. -/
  apply : σ → Entry → σ × Except Error Bytes
  /-- Reads from the state machine. All errors are propagated to the caller. -/
  read : σ → Bytes → Except Error Bytes
  /-- Nothing is applied to a fresh state machine. -/
  getAppliedIndex_empty : getAppliedIndex empty = 0
  /-- A failed entry is not recorded as applied. -/
  getAppliedIndex_internal : ∀ state entry message, (apply state entry).2 =
    .error (.internal message) → getAppliedIndex (apply state entry).1 = getAppliedIndex state
  /-- Any other entry is. -/
  getAppliedIndex_apply : ∀ state entry, (∀ message, (apply state entry).2 ≠
    .error (.internal message)) → getAppliedIndex (apply state entry).1 = entry.index

/-- The state machine of the repository's own tests: it collects commands and returns
them. -/
structure TestState where
  commands : List Bytes
  appliedIndex : Nat
  deriving DecidableEq

instance : State TestState where
  empty := ⟨[], 0⟩
  getAppliedIndex state := state.appliedIndex
  apply state entry :=
    (⟨state.commands ++ entry.command.toList, entry.index⟩, .ok (entry.command.getD []))
  read _ command := .ok command
  getAppliedIndex_empty := rfl
  getAppliedIndex_internal _ _ _ failed := by cases failed
  getAppliedIndex_apply _ _ _ := rfl

/-- Peer replication progress. -/
structure Progress where
  /-- The next index to replicate to the peer. -/
  next : Nat
  /-- The last index known to be replicated to the peer. -/
  last : Nat
  /-- The last read sequence number confirmed by the peer. -/
  readSeq : Nat
  deriving DecidableEq

/-- A pending client write request. -/
structure Write where
  /-- The node which submitted the write. -/
  source : NodeID
  /-- The write request ID. -/
  id : RequestID
  deriving DecidableEq

/-- A pending client read request. -/
structure Read where
  /-- The sequence number of this read. -/
  seq : Nat
  /-- The node which submitted the read. -/
  source : NodeID
  /-- The read request ID. -/
  id : RequestID
  /-- The read command. -/
  command : Bytes
  deriving DecidableEq

/-- A follower replicates state from a leader. -/
structure Follower where
  /-- The leader, or None if just initialized. -/
  leader : Option NodeID
  /-- The number of ticks since the last message from the leader. -/
  leaderSeen : Nat
  /-- The leader_seen timeout before triggering an election. -/
  electionTimeout : Nat
  /-- The node we voted for in the current term, if any. -/
  votedFor : Option NodeID
  /-- Local client requests that have been forwarded to the leader. These are
  aborted on leader/term changes. -/
  forwarded : List RequestID
  deriving DecidableEq

/-- A candidate is campaigning to become a leader. -/
structure Candidate where
  /-- Votes received (including ourself). -/
  votes : Finset NodeID
  /-- Ticks elapsed since election start. -/
  electionDuration : Nat
  /-- Election timeout, in ticks. -/
  electionTimeout : Nat
  deriving DecidableEq

/-- A leader serves requests and replicates the log to followers. -/
structure Leader where
  /-- Peer replication progress. -/
  progress : List (NodeID × Progress)
  /-- Pending write requests, keyed by log index, until they are applied. -/
  writes : List (Nat × Write)
  /-- Pending read requests, until a quorum has confirmed their sequence number. -/
  reads : List Read
  /-- The read sequence number used for the last read. -/
  readSeq : Nat
  /-- Number of ticks since last periodic heartbeat. -/
  sinceHeartbeat : Nat
  deriving DecidableEq

/-- A Raft role: leader, follower, or candidate. -/
inductive Role where
  | candidate (role : Candidate)
  | follower (role : Follower)
  | leader (role : Leader)
  deriving DecidableEq

/-- A Raft node with the concrete role R. Its log's contents and its state machine
are on its disk. -/
structure RawNode (R : Type) where
  id : NodeID
  peers : List NodeID
  term : Nat
  log : Log
  role : R
  deriving DecidableEq

/-- A Raft node, with a dynamic role. -/
abbrev Node := RawNode Role

/-- What outlives a node: its log and its state machine. -/
structure Disk (σ : Type) where
  engine : Log.Engine
  state : σ

/-- The effects of a node, in the order it has them. -/
inductive Effect where
  /-- A write to the log's engine. -/
  | write (write : Log.Write)
  /-- A sent message. -/
  | send (envelope : Envelope)
  /-- An entry passed to the state machine, and its result. -/
  | apply (entry : Entry) (result : Except Error Bytes)
  /-- A read request registered by the leader of a term. -/
  | queue (term : Nat) (read : Read)
  /-- A read executed on the state machine by the leader of a term. -/
  | read (term : Nat) (read : Read)
  deriving DecidableEq

/-- The number of ticks between periodic heartbeats. -/
def heartbeatInterval : Nat := 3

/-- The election timeouts that may be drawn, in ticks. -/
def electionTimeouts (draw : Nat) : Bool := 10 ≤ draw && draw < 20

variable {σ : Type} [State σ]

/-- What an effect does to the disk. -/
def Disk.replay (disk : Disk σ) : Effect → Disk σ
  | .write write => { disk with engine := disk.engine.replay write }
  | .apply entry _ => { disk with state := (State.apply disk.state entry).1 }
  | _ => disk

/-- A program of a node. -/
abbrev Action (σ : Type) [State σ] (Result : Type) :=
  Program (Disk.replay : Disk σ → Effect → Disk σ) Fault Result

/-- A program of the node's log. -/
def onLog {Result : Type} (program : Log.Session Result) : Action σ Result :=
  lift Disk.engine Effect.write program

/-- Panic unless a condition holds. -/
def assert (condition : Prop) [Decidable condition] (message : String) : Action σ Unit :=
  require condition (.panic message)

/-- Returns the size of a quorum (strict majority), given a total size. -/
def quorumSize (size : UInt8) : UInt8 := size / 2 + 1

/-- Returns the quorum (median) value of the given unsorted slice, in descending
order. The slice cannot be empty. -/
def quorumValue (values : List Nat) : Action σ Nat := do
  assert (values ≠ []) "no values provided"
  let index := (quorumSize values.length.toUInt8).toNat - 1
  match (values.insertionSort (· ≥ ·))[index]? with
  | some value => ret value
  | none => fail (.panic "index out of bounds")

/-- Creates a new follower role. -/
def Follower.new (leader votedFor : Option NodeID) (draw : Nat) : Follower where
  leader
  votedFor
  leaderSeen := 0
  electionTimeout := draw
  forwarded := []

/-- Creates a new candidate role. -/
def Candidate.new (draw : Nat) : Candidate where
  votes := ∅
  electionDuration := 0
  electionTimeout := draw

/-- Creates a new leader role. -/
def Leader.new (peers : List NodeID) (lastIndex : Nat) : Leader where
  progress := peers.map fun peer => (peer, { next := lastIndex + 1, last := 0, readSeq := 0 })
  writes := []
  reads := []
  readSeq := 0
  sinceHeartbeat := 0

namespace RawNode

variable {R S : Type}

/-- Helper for role transitions. -/
def intoRole (node : RawNode R) (role : S) : RawNode S := { node with role }

/-- A candidate as a node. -/
def ofCandidate (node : RawNode Candidate) : Node := node.intoRole (.candidate node.role)

/-- A follower as a node. -/
def ofFollower (node : RawNode Follower) : Node := node.intoRole (.follower node.role)

/-- A leader as a node. -/
def ofLeader (node : RawNode Leader) : Node := node.intoRole (.leader node.role)

/-- Passes committed entries to the state machine, and every result to a function
that carries a value along. -/
def applyEntries {Carried : Type}
    (onApply : Carried → Nat → Except Error Bytes → Action σ Carried) :
    Carried → List Entry → Action σ Carried
  | carried, [] => ret carried
  | carried, entry :: rest => do
    let disk ← view
    let result := (State.apply disk.state entry).2
    perform (.apply entry result)
    match result with
    | .error (.internal message) => fail (.error (.internal message))
    | _ => do
      let carried ← onApply carried entry.index result
      applyEntries onApply carried rest

/-- Applies any pending, committed entries to the state machine, and calls the given
function with the result of every applied command. -/
def maybeApplyWith {Carried : Type} (log : Log) (carried : Carried)
    (onApply : Carried → Nat → Except Error Bytes → Action σ Carried) : Action σ Carried := do
  let disk ← view
  let appliedIndex := State.getAppliedIndex disk.state
  let commitIndex := log.commitIndex
  assert (commitIndex ≥ appliedIndex) "Commit index below applied index"
  if appliedIndex ≥ commitIndex then
    ret carried
  else do
    let entries ← onLog (Log.scan fun index => appliedIndex + 1 ≤ index ∧ index ≤ commitIndex)
    applyEntries onApply carried entries

/-- Applies any pending, committed entries to the state machine. The command
responses are discarded. -/
def maybeApply (node : RawNode R) : Action σ Unit :=
  maybeApplyWith node.log () fun _ _ _ => ret ()

/-- Returns the size of the cluster. -/
def clusterSize (node : RawNode R) : UInt8 := node.peers.length.toUInt8 + 1

/-- Returns the quorum value of the given unsorted slice, in descending
order. The slice must have the same size as the cluster. -/
def quorumValue (node : RawNode R) (values : List Nat) : Action σ Nat := do
  assert (values.length = node.clusterSize.toNat) "values must match cluster size"
  Raft.quorumValue values

/-- Sends a message. -/
def send (node : RawNode R) (target : NodeID) (message : Message) : Action σ Unit :=
  perform (.send ⟨node.id, target, node.term, message⟩)

/-- Broadcasts a message to all peers. -/
def broadcast (node : RawNode R) (message : Message) : Action σ Unit :=
  each (fun peer => node.send peer message) (node.peers.insertionSort (· ≤ ·))

/-- Asserts common node invariants. -/
def assertNode (node : RawNode R) : Action σ Unit := do
  let (term, _) ← onLog Log.getTerm
  assert (node.term = term) "Term does not match log"

/-- Asserts message invariants when stepping. -/
def assertStep (node : RawNode R) (msg : Envelope) : Action σ Unit := do
  let sender := msg.source
  assert (msg.target = node.id) "Message to other node"
  assert (sender = node.id ∨ sender ∈ node.peers) s!"Unknown sender {sender}"

end RawNode

end Radb.Raft
