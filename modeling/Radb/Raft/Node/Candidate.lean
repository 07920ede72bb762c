import Radb.Raft.Node.Leader

/-! # Candidates -/

namespace Radb.Raft.Candidate

open Foundation Foundation.Program

variable {σ : Type} [State σ]

/-- Asserts internal invariants. -/
def assert (node : RawNode Candidate) : Action σ Unit := do
  node.assertNode
  Raft.assert (node.term ≠ 0) "Candidates can't have term 0"
  Raft.assert (node.id ∈ node.role.votes) "Candidate did not vote for self"
  let (_, vote) ← onLog Log.getTerm
  Raft.assert (some node.id = vote) "Log vote does not match self"
  Raft.assert (node.role.electionDuration < node.role.electionTimeout) "Election timeout passed"

/-- Transitions the candidate to a follower. We either lost the election and
follow the winner, or we discovered a new term in which case we step
into it as a leaderless follower. -/
def intoFollower (node : RawNode Candidate) (term : Nat) (leader : Option NodeID) (draw : Nat) :
    Action σ (RawNode Follower) := do
  let current := node.term
  Raft.assert (term ≥ node.term) s!"Term regression {current} -> {term}"
  match leader with
  | some leader => do
    -- We lost the election, follow the winner.
    Raft.assert (term = node.term) "Can't follow leader in different term"
    ret (node.intoRole (Follower.new (some leader) (some node.id) draw))
  | none => do
    -- We found a new term, but we don't necessarily know who the leader is yet.
    Raft.assert (term ≠ node.term) "Can't become leaderless follower in current term"
    onLog (Log.setTerm term none)
    ret ({ node with term }.intoRole (Follower.new none none draw))

/-- Transitions the candidate to a leader. We won the election. -/
def intoLeader (node : RawNode Candidate) : Action σ (RawNode Leader) := do
  let node := node.intoRole (Leader.new node.peers node.log.lastIndex)
  Leader.heartbeat node
  -- Propose an empty command when assuming leadership, to disambiguate previous
  -- entries in the log.
  let (node, _) ← Leader.propose node none
  ret node

/-- Campaign for leadership by increasing the term, voting for ourself, and
soliciting votes from all peers. -/
def campaign (node : RawNode Candidate) (draw : Nat) : Action σ (RawNode Candidate) := do
  let term := node.term + 1
  let role := Candidate.new draw
  let node := { node with term, role := { role with votes := insert node.id role.votes } }
  onLog (Log.setTerm term (some node.id))
  node.broadcast (.campaign node.log.lastIndex node.log.lastTerm)
  ret node

/-- Records a vote. If it gives us quorum, assume leadership. -/
def recordVote (node : RawNode Candidate) (sender : NodeID) : Action σ Node := do
  let node := { node with role := { node.role with votes := insert sender node.role.votes } }
  if node.role.votes.card.toUInt8 ≥ quorumSize node.clusterSize then do
    let leader ← intoLeader node
    ret leader.ofLeader
  else ret node.ofCandidate

/-- Processes a logical clock tick. -/
def tick (node : RawNode Candidate) (draw : Nat) : Action σ Node := do
  assert node
  let node := { node with
    role := { node.role with electionDuration := node.role.electionDuration + 1 } }
  if node.role.electionDuration ≥ node.role.electionTimeout then do
    let node ← campaign node draw
    ret node.ofCandidate
  else ret node.ofCandidate

end Radb.Raft.Candidate
