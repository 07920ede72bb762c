import Radb.Raft.Node.Follower

/-! # Nodes

Stepping messages, ticks and the start of a node, for every role.
-/

namespace Radb.Raft

open Foundation Foundation.Program

variable {σ : Type} [State σ]

/-- Processes a message. -/
def Candidate.step (node : RawNode Candidate) (msg : Envelope) (draw : Nat) : Action σ Node := do
  assert node
  node.assertStep msg
  -- Drop messages from past terms.
  if msg.term < node.term then ret node.ofCandidate
  -- If we receive a message for a future term, become a leaderless follower in it and
  -- step the message.
  else if msg.term > node.term then do
    let node ← intoFollower node msg.term none draw
    let node ← Follower.step node msg draw
    ret node.ofFollower
  else match msg.message with
    -- Ignore other candidates when we're also campaigning.
    | .campaign .. => ret node.ofCandidate
    | .campaignResponse true => recordVote node msg.source
    -- We didn't get a vote. :(
    | .campaignResponse false => ret node.ofCandidate
    -- If we receive a heartbeat or entries in this term, we lost the election and have a
    -- new leader. Follow it and step the message.
    | .heartbeat .. | .append .. => do
      let node ← intoFollower node msg.term (some msg.source) draw
      let node ← Follower.step node msg draw
      ret node.ofFollower
    -- Abort any inbound client requests while candidate.
    | .clientRequest id _ => do
      node.send msg.source (.clientResponse id (.error .abort))
      ret node.ofCandidate
    -- We're not a leader in this term, nor are we forwarding requests, so we shouldn't
    -- see these.
    | .heartbeatResponse .. | .appendResponse .. | .clientResponse .. =>
      fail (.panic "Received unexpected message")

/-- Processes a message. -/
def Leader.step (node : RawNode Leader) (msg : Envelope) (draw : Nat) : Action σ Node := do
  assert node
  node.assertStep msg
  -- Drop messages from past terms.
  if msg.term < node.term then ret node.ofLeader
  -- If we receive a message for a future term, become a leaderless follower in it and
  -- step the message.
  else if msg.term > node.term then do
    let node ← intoFollower node msg.term draw
    let node ← Follower.step node msg draw
    ret node.ofFollower
  else do
    let node ← receive node msg
    ret node.ofLeader

namespace Node

/-- Processes a message from a peer. -/
def step (node : Node) (msg : Envelope) (draw : Nat) : Action σ Node :=
  match node.role with
  | .candidate role => Candidate.step (node.intoRole role) msg draw
  | .follower role => do
    let node ← Follower.step (node.intoRole role) msg draw
    ret node.ofFollower
  | .leader role => Leader.step (node.intoRole role) msg draw

/-- Moves time forward by a tick. -/
def tick (node : Node) (draw : Nat) : Action σ Node :=
  match node.role with
  | .candidate role => Candidate.tick (node.intoRole role) draw
  | .follower role => Follower.tick (node.intoRole role) draw
  | .leader role => Leader.tick (node.intoRole role)

/-- Creates a new Raft node on a log, starting as a leaderless follower, or leader if
there are no peers. -/
def new (id : NodeID) (peers : List NodeID) (log : Log) (draw : Nat) : Action σ Node := do
  let (term, votedFor) ← onLog Log.getTerm
  let node : RawNode Follower :=
    { id, peers, term, log, role := Follower.new none votedFor draw }
  if node.peers = [] then do
    -- If there are no peers, become leader immediately.
    let node ← Follower.intoCandidate node draw
    let node ← Candidate.intoLeader node
    ret node.ofLeader
  else ret node.ofFollower

end Node

end Radb.Raft
