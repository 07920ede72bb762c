import Radb.Raft.Node.Raw

/-! # Leaders

What a leader does. Messages from other terms are dealt with in `Radb.Raft.Node.Step`.
-/

namespace Radb.Raft

open Foundation Foundation.Program

namespace Leader

/-- The replication progress of a peer. -/
def getProgress (leader : Leader) (peer : NodeID) : Option Progress := leader.progress.lookup peer

/-- Change the replication progress of a peer, if it is known. -/
def modifyProgress (leader : Leader) (peer : NodeID) (change : Progress → Progress) : Leader :=
  { leader with
    progress := leader.progress.map fun known =>
      if known.1 = peer then (known.1, change known.2) else known }

/-- Track a pending write. -/
def insertWrite (leader : Leader) (index : Nat) (write : Write) : Leader :=
  { leader with writes := leader.writes.filter (fun known => known.1 ≠ index) ++ [(index, write)] }

/-- Register a pending read under the next sequence number. -/
def pushRead (leader : Leader) (read : Read) : Leader :=
  { leader with readSeq := leader.readSeq + 1, reads := leader.reads ++ [read] }

end Leader

variable {σ : Type} [State σ]

namespace Leader

/-- Asserts internal invariants. -/
def assert (node : RawNode Leader) : Action σ Unit := do
  node.assertNode
  Raft.assert (node.term ≠ 0) "Leaders can't have term 0"
  let (_, vote) ← onLog Log.getTerm
  Raft.assert (some node.id = vote) "Log vote does not match self"

/-- Sends pending log entries to a peer. -/
def sendLog (node : RawNode Leader) (peer : NodeID) : Action σ Unit := do
  let (baseIndex, baseTerm) ← match node.role.getProgress peer with
    | some progress =>
      if progress.next > 1 then do
        let missing := progress.next - 1
        match ← onLog (Log.get (progress.next - 1)) with
        | some entry => ret (entry.index, entry.term)
        | none => fail (.panic s!"Missing base entry {missing}")
      else ret (0, 0)
    | none => fail (.panic s!"Unknown peer {peer}")
  let entries ← onLog (Log.scan fun index => baseIndex + 1 ≤ index)
  node.send peer (.append baseIndex baseTerm entries)

/-- Broadcasts a heartbeat to all peers. -/
def heartbeat (node : RawNode Leader) : Action σ Unit :=
  node.broadcast (.heartbeat node.log.commitIndex node.log.commitTerm node.role.readSeq)

/-- Proposes a command for consensus by appending it to our log and
replicating it to peers. -/
def propose (node : RawNode Leader) (command : Option Bytes) :
    Action σ (RawNode Leader × Nat) := do
  let (log, index) ← onLog (node.log.append node.term command)
  let node := { node with log }
  each (fun peer => sendLog node peer) node.peers
  ret (node, index)

/-- Responds to the client of an applied write, if it is pending. -/
def respond (node : RawNode Leader) (writes : List (Nat × Write)) (index : Nat)
    (result : Except Error Bytes) : Action σ (List (Nat × Write)) :=
  match writes.lookup index with
  | some write => do
    node.send write.source (.clientResponse write.id (result.map Response.write))
    ret (writes.filter fun known => known.1 ≠ index)
  | none => ret writes

/-- Commits any new log entries that have been replicated to a quorum, and
applies them to the state machine. -/
def maybeCommitAndApply (node : RawNode Leader) : Action σ (RawNode Leader × Nat) := do
  let quorumIndex ← node.quorumValue
    (node.role.progress.map (fun known => known.2.last) ++ [node.log.lastIndex])
  if quorumIndex ≤ node.log.commitIndex then
    ret (node, node.log.commitIndex)
  else
    match ← onLog (Log.get quorumIndex) with
    | none => fail (.panic s!"Commit index {quorumIndex} missing")
    | some entry =>
      -- Only an entry from our own term can be safely committed.
      if entry.term = node.term then do
        let (log, commitIndex) ← onLog (node.log.commit quorumIndex)
        let node := { node with log }
        let writes ← RawNode.maybeApplyWith node.log node.role.writes (respond node)
        ret ({ node with role := { node.role with writes } }, commitIndex)
      else
        ret (node, node.log.commitIndex)

/-- Executes the pending reads at the front of the queue up to a confirmed sequence
number. -/
def executeReads (node : RawNode Leader) (readSeq : Nat) : List Read → Action σ (List Read)
  | [] => ret []
  | read :: rest =>
    if read.seq > readSeq then
      ret (read :: rest)
    else do
      let disk ← view
      perform (.read node.term read)
      let result := State.read disk.state read.command
      node.send read.source (.clientResponse read.id (result.map Response.read))
      executeReads node readSeq rest

/-- Executes any pending read requests that are now ready after quorum
confirmation of their sequence number. -/
def maybeRead (node : RawNode Leader) : Action σ (RawNode Leader) := do
  if node.role.reads = [] then
    ret node
  else do
    let readSeq ← node.quorumValue
      (node.role.progress.map (fun known => known.2.readSeq) ++ [node.role.readSeq])
    let reads ← executeReads node readSeq node.role.reads
    ret { node with role := { node.role with reads } }

/-- Transitions the leader into a follower. This can only happen if we
discover a new term, so we become a leaderless follower. -/
def intoFollower (node : RawNode Leader) (term draw : Nat) : Action σ (RawNode Follower) := do
  let current := node.term
  Raft.assert (term ≥ node.term) s!"Term regression {current} -> {term}"
  Raft.assert (term > node.term) "Can only become follower in later term"
  each (fun known : Nat × Write => node.send known.2.source
    (.clientResponse known.2.id (.error .abort))) node.role.writes
  each (fun read : Read => node.send read.source
    (.clientResponse read.id (.error .abort))) node.role.reads
  onLog (Log.setTerm term none)
  ret ({ node with term }.intoRole (Follower.new none none draw))

/-- The status of the cluster, as the leader knows it. -/
def status (node : RawNode Leader) (disk : Disk σ) : Status where
  leader := node.id
  term := node.term
  lastIndex := node.role.progress.map (fun known => (known.1, known.2.last)) ++
    [(node.id, node.log.lastIndex)]
  commitIndex := node.log.commitIndex
  applyIndex := State.getAppliedIndex disk.state

/-- A follower received one of our heartbeats and confirms that we are its leader. If
its log is incomplete, append entries. If the peer's read sequence number
increased, process any pending reads. -/
def heartbeatResponse (node : RawNode Leader) (sender : NodeID) (lastIndex lastTerm readSeq : Nat) :
    Action σ (RawNode Leader) := do
  Raft.assert (readSeq ≤ node.role.readSeq) "Future read sequence number"
  match node.role.getProgress sender with
  | none => fail (.panic "called `Option::unwrap()` on a `None` value")
  | some progress =>
    let node ← if readSeq > progress.readSeq then
        maybeRead { node with
          role := node.role.modifyProgress sender fun known => { known with readSeq } }
      else ret node
    let has ← onLog (Log.has lastIndex lastTerm)
    if lastIndex < node.log.lastIndex ∨ has = false then do
      sendLog node sender
      ret node
    else ret node

/-- A follower appended log entries we sent it. Record its progress and attempt to
commit new entries. -/
def appendAccepted (node : RawNode Leader) (sender : NodeID) (lastIndex lastTerm : Nat) :
    Action σ (RawNode Leader) := do
  Raft.assert (lastIndex ≤ node.log.lastIndex) "Follower accepted entries after last index"
  Raft.assert (lastTerm ≤ node.log.lastTerm) "Follower accepted entries after last term"
  match node.role.getProgress sender with
  | none => fail (.panic "called `Option::unwrap()` on a `None` value")
  | some progress =>
    if lastIndex > progress.last then do
      let (node, _) ← maybeCommitAndApply { node with
        role := node.role.modifyProgress sender fun known =>
          { known with next := lastIndex + 1, last := lastIndex } }
      ret node
    else ret node

/-- A follower rejected log entries we sent it, typically because it does not have the
base index in its log. Try to replicate from the previous entry. -/
def appendRejected (node : RawNode Leader) (sender : NodeID) : Action σ (RawNode Leader) := do
  let node := { node with
    role := node.role.modifyProgress sender fun known =>
      if known.next > 1 then { known with next := known.next - 1 } else known }
  sendLog node sender
  ret node

/-- A client submitted a read command. Confirm that we are still the leader by sending a
heartbeat with the read's sequence number before executing the read. -/
def clientRead (node : RawNode Leader) (sender : NodeID) (id : RequestID) (command : Bytes) :
    Action σ (RawNode Leader) := do
  let read : Read := { seq := node.role.readSeq + 1, source := sender, id, command }
  perform (.queue node.term read)
  let node := { node with role := node.role.pushRead read }
  let node ← if node.peers = [] then maybeRead node else ret node
  heartbeat node
  ret node

/-- A client submitted a write command. Propose it, and track it until it's applied and
the response is returned to the client. -/
def clientWrite (node : RawNode Leader) (sender : NodeID) (id : RequestID) (command : Bytes) :
    Action σ (RawNode Leader) := do
  let (node, index) ← propose node (some command)
  let node := { node with role := node.role.insertWrite index { source := sender, id } }
  if node.peers = [] then do
    let (node, _) ← maybeCommitAndApply node
    ret node
  else ret node

/-- A client requested the status of the cluster. -/
def clientStatus (node : RawNode Leader) (sender : NodeID) (id : RequestID) :
    Action σ (RawNode Leader) := do
  let disk ← view
  node.send sender (.clientResponse id (.ok (.status (status node disk))))
  ret node

/-- Processes a message of the current term. -/
def receive (node : RawNode Leader) (msg : Envelope) : Action σ (RawNode Leader) :=
  let sender := msg.source
  let term := msg.term
  match msg.message with
  -- There can't be two leaders in the same term.
  | .heartbeat .. | .append .. => fail (.panic s!"Saw other leader {sender} in term {term}")
  | .heartbeatResponse lastIndex lastTerm readSeq =>
    heartbeatResponse node sender lastIndex lastTerm readSeq
  | .appendResponse false lastIndex lastTerm => appendAccepted node sender lastIndex lastTerm
  | .appendResponse true _ _ => appendRejected node sender
  | .clientRequest id (.read command) => clientRead node sender id command
  | .clientRequest id (.write command) => clientWrite node sender id command
  | .clientRequest id .status => clientStatus node sender id
  -- Votes can come in after we won the election, ignore them.
  | .campaign .. | .campaignResponse .. => ret node
  -- Leaders never proxy client requests, so we don't expect to see responses from other
  -- nodes.
  | .clientResponse .. => fail (.panic "Unexpected message")

/-- Processes a logical clock tick. -/
def tick (node : RawNode Leader) : Action σ Node := do
  assert node
  let sinceHeartbeat := node.role.sinceHeartbeat + 1
  if sinceHeartbeat ≥ heartbeatInterval then do
    heartbeat node
    ret (RawNode.ofLeader { node with role := { node.role with sinceHeartbeat := 0 } })
  else
    ret (RawNode.ofLeader { node with role := { node.role with sinceHeartbeat } })

end Leader

end Radb.Raft
