import Radb.Raft.Log

/-! # Raft messages -/

namespace Radb.Raft

/-- A client request ID. -/
abbrev RequestID := Bytes

/-- A client request, typically passed through to the state machine. -/
inductive Request where
  /-- A state machine read command. This is not replicated, and only evaluted
  on the leader. -/
  | read (command : Bytes)
  /-- A state machine write command. This is replicated across all nodes, and
  must result in a deterministic response. -/
  | write (command : Bytes)
  /-- Requests Raft cluster status from the leader. -/
  | status
  deriving DecidableEq

/-- Raft cluster status. The log storage engine's own status is left out. -/
structure Status where
  /-- The current Raft leader, which generated this status. -/
  leader : NodeID
  /-- The current Raft term. -/
  term : Nat
  /-- The last log indexes of all nodes. -/
  lastIndex : List (NodeID × Nat)
  /-- The current commit index. -/
  commitIndex : Nat
  /-- The current applied index. -/
  applyIndex : Nat
  deriving DecidableEq

/-- A client response. -/
inductive Response where
  /-- A state machine read result. -/
  | read (result : Bytes)
  /-- A state machine write result. -/
  | write (result : Bytes)
  /-- The current Raft leader status. -/
  | status (status : Status)
  deriving DecidableEq

/-- A message sent between Raft nodes. -/
inductive Message where
  /-- Leaders send periodic heartbeats to its followers, with their last
  committed log entry and latest read sequence number. -/
  | heartbeat (commitIndex commitTerm readSeq : Nat)
  /-- Followers confirm leader heartbeats, with their last log entry and the read
  sequence number of the heartbeat they respond to. -/
  | heartbeatResponse (lastIndex lastTerm readSeq : Nat)
  /-- Candidates campaign for leadership by soliciting votes from peers, with their
  last stored log entry. -/
  | campaign (lastIndex lastTerm : Nat)
  /-- Followers may vote for a single candidate per term, on a first-come
  first-serve basis. Candidates implicitly vote for themselves. -/
  | campaignResponse (vote : Bool)
  /-- Leaders replicate log entries to followers by appending to their logs, behind
  a base entry. -/
  | append (baseIndex baseTerm : Nat) (entries : List Entry)
  /-- Followers may accept or reject appending entries from the leader, and report
  their last log entry. -/
  | appendResponse (reject : Bool) (lastIndex lastTerm : Nat)
  /-- A client request. This can be submitted to the leader, or to a follower
  which will forward it to its leader. -/
  | clientRequest (id : RequestID) (request : Request)
  /-- A client response. -/
  | clientResponse (id : RequestID) (response : Except Error Response)
  deriving DecidableEq

/-- A message envelope sent between Raft nodes. -/
structure Envelope where
  /-- The sender. -/
  source : NodeID
  /-- The recipient. -/
  target : NodeID
  /-- The sender's current term. -/
  term : Nat
  /-- The message. -/
  message : Message
  deriving DecidableEq

end Radb.Raft
