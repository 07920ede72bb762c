import Radb.Raft.Node.Candidate

/-! # Followers -/

namespace Radb.Raft.Follower

open Foundation Foundation.Program

variable {σ : Type} [State σ]

/-- Asserts internal invariants. -/
def assert (node : RawNode Follower) : Action σ Unit := do
  node.assertNode
  match node.role.leader with
  | some leader => do
    Raft.assert (leader ≠ node.id) "Can't follow self"
    Raft.assert (leader ∈ node.peers) "Leader not in peers"
    Raft.assert (node.term ≠ 0) "Followers with leaders can't have term 0"
  | none => Raft.assert (node.role.forwarded = []) "Leaderless follower has forwarded requests"
  let (_, vote) ← onLog Log.getTerm
  Raft.assert (node.role.votedFor = vote) "Vote does not match log"
  Raft.assert (node.role.leaderSeen < node.role.electionTimeout) "Election timeout passed"

/-- Checks if an address is the current leader. -/
def isLeader (node : RawNode Follower) (sender : NodeID) : Bool := node.role.leader == some sender

/-- Aborts all forwarded requests. -/
def abortForwarded (node : RawNode Follower) : Action σ (RawNode Follower) := do
  each (fun id => node.send node.id (.clientResponse id (.error .abort))) node.role.forwarded
  ret { node with role := { node.role with forwarded := [] } }

/-- Transitions the follower into a candidate, by campaigning for
leadership in a new term. -/
def intoCandidate (node : RawNode Follower) (draw : Nat) : Action σ (RawNode Candidate) := do
  -- Abort any forwarded requests. These must be retried with new leader.
  let node ← abortForwarded node
  -- Apply any pending log entries, so that we're caught up if we win.
  node.maybeApply
  Candidate.campaign (node.intoRole (Candidate.new draw)) draw

/-- Transitions the follower into a follower, either a leaderless follower
in a new term (e.g. if someone holds a new election) or following a
leader in the current term once someone wins the election. -/
def intoFollower (node : RawNode Follower) (leader : Option NodeID) (term draw : Nat) :
    Action σ (RawNode Follower) := do
  let current := node.term
  Raft.assert (term ≥ node.term) s!"Term regression {current} -> {term}"
  -- Abort any forwarded requests. These must be retried with new leader.
  let node ← abortForwarded node
  match leader with
  | some leader => do
    -- We found a leader in the current term.
    Raft.assert (node.role.leader = none) "Already have leader in term"
    Raft.assert (term = node.term) "Can't follow leader in different term"
    ret { node with role := Follower.new (some leader) node.role.votedFor draw }
  | none => do
    -- We found a new term, but we don't necessarily know who the leader is yet.
    Raft.assert (term ≠ node.term) "Can't become leaderless follower in current term"
    onLog (Log.setTerm term none)
    ret { node with term, role := Follower.new none none draw }

/-- Checks that a message is from our leader, or follows its sender. -/
def followSender (node : RawNode Follower) (msg : Envelope) (draw : Nat) :
    Action σ (RawNode Follower) :=
  match node.role.leader with
  | some leader => do
    Raft.assert (msg.source = leader) "Multiple leaders in term"
    ret node
  | none => intoFollower node (some msg.source) msg.term draw

/-- The leader will send periodic heartbeats. If we don't have a
leader in this term yet, follow it. If the commit_index advances,
apply state transitions. -/
def heartbeat (node : RawNode Follower) (msg : Envelope) (commitIndex commitTerm readSeq draw : Nat) :
    Action σ (RawNode Follower) := do
  -- Check that the heartbeat is from our leader.
  let node ← followSender node msg draw
  -- Respond to the heartbeat.
  node.send msg.source (.heartbeatResponse node.log.lastIndex node.log.lastTerm readSeq)
  -- Advance commit index and apply entries.
  let has ← onLog (Log.has commitIndex commitTerm)
  if has = true ∧ commitIndex > node.log.commitIndex then do
    let (log, _) ← onLog (node.log.commit commitIndex)
    let node := { node with log }
    node.maybeApply
    ret node
  else ret node

/-- Replicate entries from the leader. If we don't have a leader in
this term yet, follow it. -/
def append (node : RawNode Follower) (msg : Envelope) (baseIndex baseTerm : Nat)
    (entries : List Entry) (draw : Nat) : Action σ (RawNode Follower) := do
  -- Check that the entries are from our leader.
  let node ← followSender node msg draw
  -- Append the entries, if possible.
  let has ← if baseIndex > 0 then onLog (Log.has baseIndex baseTerm) else ret true
  if has = false then do
    node.send msg.source (.appendResponse true node.log.lastIndex node.log.lastTerm)
    ret node
  else do
    let (log, _) ← onLog (node.log.splice entries)
    let node := { node with log }
    node.send msg.source (.appendResponse false node.log.lastIndex node.log.lastTerm)
    ret node

/-- A candidate in this term is requesting our vote. -/
def campaign (node : RawNode Follower) (msg : Envelope) (lastIndex lastTerm : Nat) :
    Action σ (RawNode Follower) := do
  -- Don't vote if we already voted for someone else in this term.
  if (node.role.votedFor.any fun votedFor => msg.source ≠ votedFor) then do
    node.send msg.source (.campaignResponse false)
    ret node
  -- Don't vote if our log is newer than the candidate's log.
  else if node.log.lastTerm > lastTerm ∨
      node.log.lastTerm = lastTerm ∧ node.log.lastIndex > lastIndex then do
    node.send msg.source (.campaignResponse false)
    ret node
  -- Grant the vote.
  else do
    node.send msg.source (.campaignResponse true)
    onLog (Log.setTerm node.term (some msg.source))
    ret { node with role := { node.role with votedFor := some msg.source } }

/-- Forward client requests to the leader, or abort them if there is
none (the client must retry). -/
def clientRequest (node : RawNode Follower) (msg : Envelope) (id : RequestID) :
    Action σ (RawNode Follower) := do
  Raft.assert (msg.source = node.id) "Client request from other node"
  match node.role.leader with
  | some leader => do
    node.send leader msg.message
    ret { node with role := { node.role with forwarded := node.role.forwarded.insert id } }
  | none => do
    node.send msg.source (.clientResponse id (.error .abort))
    ret node

/-- Returns client responses for forwarded requests. -/
def clientResponse (node : RawNode Follower) (msg : Envelope) (id : RequestID)
    (response : Except Error Response) : Action σ (RawNode Follower) := do
  Raft.assert (isLeader node msg.source) "Client response from non-leader"
  if id ∈ node.role.forwarded then do
    node.send node.id (.clientResponse id response)
    ret { node with role := { node.role with forwarded := node.role.forwarded.erase id } }
  else ret node

/-- Handles a message of the current term by its kind. -/
def dispatch (node : RawNode Follower) (msg : Envelope) (draw : Nat) :
    Action σ (RawNode Follower) :=
  match msg.message with
  | .heartbeat commitIndex commitTerm readSeq =>
    heartbeat node msg commitIndex commitTerm readSeq draw
  | .append baseIndex baseTerm entries => append node msg baseIndex baseTerm entries draw
  | .campaign lastIndex lastTerm => campaign node msg lastIndex lastTerm
  -- We may receive a vote after we lost an election and followed a different leader.
  | .campaignResponse _ => ret node
  | .clientRequest id _ => clientRequest node msg id
  | .clientResponse id response => clientResponse node msg id response
  -- We're not a leader nor candidate in this term, so we shoudn't see these.
  | .heartbeatResponse .. | .appendResponse .. => fail (.panic "Received unexpected message")

/-- Processes a message of the current term. -/
def receive (node : RawNode Follower) (msg : Envelope) (draw : Nat) : Action σ (RawNode Follower) :=
  -- Record when we last saw a message from the leader (if any).
  if isLeader node msg.source then
    dispatch { node with role := { node.role with leaderSeen := 0 } } msg draw
  else dispatch node msg draw

/-- Processes a message. -/
def step (node : RawNode Follower) (msg : Envelope) (draw : Nat) : Action σ (RawNode Follower) := do
  assert node
  node.assertStep msg
  -- Drop messages from past terms.
  if msg.term < node.term then ret node
  -- If we receive a message for a future term, become a leaderless follower in it and
  -- step the message: the second call finds the term it just moved to.
  else if msg.term > node.term then do
    let node ← intoFollower node none msg.term draw
    assert node
    node.assertStep msg
    receive node msg draw
  else receive node msg draw

/-- Processes a logical clock tick. -/
def tick (node : RawNode Follower) (draw : Nat) : Action σ Node := do
  assert node
  let node := { node with role := { node.role with leaderSeen := node.role.leaderSeen + 1 } }
  if node.role.leaderSeen ≥ node.role.electionTimeout then do
    let node ← intoCandidate node draw
    ret node.ofCandidate
  else ret node.ofFollower

end Radb.Raft.Follower
