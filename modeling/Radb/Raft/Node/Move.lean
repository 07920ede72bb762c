import Radb.Foundation.Trace
import Radb.Raft.Node.Step

/-! # The moves of a node

A node does little at a time: it sends one message, writes one record, applies one
entry. Every handler is a sequence of such moves, so a property that each of them keeps
is kept by all handlers, wherever they stop. A move says under which condition it is
taken, in terms of the node, its disk and what it is processing, and which effects it
has. A few moves have several effects that belong together: a vote, the start of a
leader's term, the execution of a read, the application of a client's write and the
appending of entries.
-/

namespace Radb.Raft

open Foundation Foundation.Program

/-- What a node processes: its start, a tick or a message. -/
inductive Input where
  | boot
  | tick
  | step (msg : Envelope)

variable {σ : Type} [State σ]

namespace Disk

/-- The persisted term and vote. -/
def termVote (disk : Disk σ) : Nat × Option NodeID := (disk.engine.get .termVote).getD (0, none)

/-- The last applied index. -/
def appliedIndex (disk : Disk σ) : Nat := State.getAppliedIndex disk.state

/-- What is stored at an index of the log. -/
def entryAt (disk : Disk σ) (index : Nat) : Option (Nat × Option Bytes) :=
  disk.engine.get (.entry index)

/-- The log has an entry of a term at an index, as nothing has at index and term 0. -/
def Has (disk : Disk σ) (index term : Nat) : Prop :=
  (∃ command, disk.entryAt index = some (term, command)) ∨
    disk.entryAt index = none ∧ index = 0 ∧ term = 0

/-- An entry is the next one to apply. -/
structure Pending (disk : Disk σ) (commitIndex : Nat) (entry : Entry) : Prop where
  above : disk.appliedIndex < entry.index
  committed : entry.index ≤ commitIndex
  stored : disk.entryAt entry.index = some (entry.term, entry.command)
  next : ∀ index, disk.appliedIndex < index → index < entry.index → disk.entryAt index = none

/-- There is no entry left to apply. -/
def CaughtUp (disk : Disk σ) (commitIndex : Nat) : Prop :=
  ∀ index, disk.appliedIndex < index → index ≤ commitIndex → disk.entryAt index = none

end Disk

/-- Messages that only a leader sends. -/
def Message.fromLeader : Message → Bool
  | .heartbeat .. | .append .. => true
  | _ => false

/-- Changes of a role that concern no other node: the clock. -/
inductive Idle : Role → Role → Prop where
  | hear (role : Follower) : Idle (.follower role) (.follower { role with leaderSeen := 0 })
  | await (role : Follower) (early : role.leaderSeen + 1 < role.electionTimeout) :
      Idle (.follower role) (.follower { role with leaderSeen := role.leaderSeen + 1 })
  | campaign (role : Candidate) (early : role.electionDuration + 1 < role.electionTimeout) :
      Idle (.candidate role)
        (.candidate { role with electionDuration := role.electionDuration + 1 })
  | lead (role : Leader) (ticks : Nat) :
      Idle (.leader role) (.leader { role with sinceHeartbeat := ticks })

theorem Idle.leader {role next : Role} (idles : Idle role next) {after : Leader}
    (leads : next = .leader after) : ∃ before, role = .leader before ∧
      after = { before with sinceHeartbeat := after.sinceHeartbeat } := by
  cases idles with
  | lead before ticks =>
    cases leads
    exact ⟨before, rfl, rfl⟩
  | _ => cases leads

/-- A quorum of the values is at least `value`, which is the largest such number. -/
def IsQuorumValue (values : List Nat) (value : Nat) : Prop :=
  (values.insertionSort (· ≥ ·))[(quorumSize values.length.toUInt8).toNat - 1]? = some value

namespace Leader

/-- The last log index of every member, as far as the leader knows. -/
def lastIndexes (leader : Leader) (log : Log) : List Nat :=
  leader.progress.map (fun known => known.2.last) ++ [log.lastIndex]

/-- The last read sequence number confirmed by every member. -/
def readSeqs (leader : Leader) : List Nat :=
  leader.progress.map (fun known => known.2.readSeq) ++ [leader.readSeq]

/-- The base of what is sent to a peer is the entry in front of the next one. -/
def Base (disk : Disk σ) (next baseIndex baseTerm : Nat) : Prop :=
  next ≤ 1 ∧ baseIndex = 0 ∧ baseTerm = 0 ∨
    1 < next ∧ baseIndex = next - 1 ∧ ∃ command, disk.entryAt baseIndex = some (baseTerm, command)

end Leader

/-- What a move means for the agreement of the cluster. -/
inductive Act where
  /-- Nothing. -/
  | stay
  /-- Enter a new term. -/
  | advance (term : Nat)
  /-- Stand for election in the next term. -/
  | stand
  | vote (candidate : NodeID)
  /-- Start a term as its leader. -/
  | lead
  /-- Append a command as the leader. -/
  | propose (command : Option Bytes)
  /-- Adopt the leader's log up to an index. -/
  | adopt (count : Nat)
  /-- Find that a quorum has the log up to an index. -/
  | decide (index : Nat)

/-- What a node may do at a time: what it means, its effects and the node it becomes. -/
inductive Move (input : Input) (node : Node) (disk : Disk σ) :
    Act → List Effect → Node → Prop where
  /-- Pass the leader's response to a forwarded request on to the client. -/
  | relay {msg : Envelope} {follower : Follower} {id : RequestID}
      {response : Except Error Response} (acting : input = .step msg)
      (received : msg.message = .clientResponse id response) (current : msg.term = node.term)
      (role : node.role = .follower follower) (held : id ∈ follower.forwarded) :
      Move input node disk .stay
        [.send ⟨node.id, node.id, node.term, .clientResponse id response⟩]
        { node with role := .follower { follower with forwarded := follower.forwarded.erase id } }
  /-- Abort a forwarded request. -/
  | discard {follower : Follower} {id : RequestID} {rest : List RequestID}
      (role : node.role = .follower follower) (front : follower.forwarded = id :: rest) :
      Move input node disk .stay
        [.send ⟨node.id, node.id, node.term, .clientResponse id (.error .abort)⟩]
        { node with role := .follower { follower with forwarded := rest } }
  /-- Abort a local client's request without a leader. -/
  | decline {msg : Envelope} {follower : Follower} {id : RequestID} {request : Request}
      (acting : input = .step msg) (asked : msg.message = .clientRequest id request)
      (current : msg.term = node.term) (own : msg.source = node.id)
      (role : node.role = .follower follower) (leaderless : follower.leader = none) :
      Move input node disk .stay
        [.send ⟨node.id, node.id, node.term, .clientResponse id (.error .abort)⟩] node
  /-- Discover a new term. -/
  | advance {msg : Envelope} {draw : Nat} (acting : input = .step msg)
      (later : node.term < msg.term) (drawn : electionTimeouts draw = true) :
      Move input node disk (.advance msg.term) [.write (.set .termVote (msg.term, none))]
        { node with term := msg.term, role := .follower (Follower.new none none draw) }
  /-- Apply the next committed entry. -/
  | apply {entry : Entry} (pending : disk.Pending node.log.commitIndex entry) :
      Move input node disk .stay [.apply entry (State.apply disk.state entry).2] node
  /-- Apply the next committed entry and respond to the client that wrote it. -/
  | fulfill {leader : Leader} {entry : Entry} {write : Write}
      (role : node.role = .leader leader) (pending : disk.Pending node.log.commitIndex entry)
      (tracked : leader.writes.lookup entry.index = some write)
      (regular : ∀ message, (State.apply disk.state entry).2 ≠ .error (.internal message)) :
      Move input node disk .stay
        [.apply entry (State.apply disk.state entry).2,
          .send ⟨node.id, write.source, node.term, .clientResponse write.id
            ((State.apply disk.state entry).2.map Response.write)⟩]
        { node with role := .leader { leader with
            writes := leader.writes.filter fun known => known.1 ≠ entry.index } }
  | idle {role : Role} (idles : Idle node.role role) : Move input node disk .stay [] { node with role }
  /-- Follow the leader of the current term. -/
  | follow {msg : Envelope} {follower : Follower} {draw : Nat} (acting : input = .step msg)
      (leads : msg.message.fromLeader) (current : msg.term = node.term)
      (role : node.role = .follower follower) (leaderless : follower.leader = none)
      (drawn : electionTimeouts draw = true) :
      Move input node disk .stay []
        { node with role := .follower (Follower.new (some msg.source) follower.votedFor draw) }
  /-- Lose an election, and follow the winner. -/
  | concede {msg : Envelope} {candidate : Candidate} {draw : Nat} (acting : input = .step msg)
      (leads : msg.message.fromLeader) (current : msg.term = node.term)
      (role : node.role = .candidate candidate) (drawn : electionTimeouts draw = true) :
      Move input node disk .stay []
        { node with role := .follower (Follower.new (some msg.source) (some node.id) draw) }
  /-- Stand for election in a new term. -/
  | stand {draw : Nat} (ready : (∃ candidate, node.role = .candidate candidate) ∨
        (∃ follower, node.role = .follower follower) ∧ disk.CaughtUp node.log.commitIndex)
      (drawn : electionTimeouts draw = true) :
      Move input node disk .stand [.write (.set .termVote (node.term + 1, some node.id))]
        { node with
          term := node.term + 1
          role := .candidate { Candidate.new draw with votes := insert node.id ∅ } }
  /-- Ask a peer for its vote. -/
  | solicit {candidate : Candidate} {peer : NodeID} (role : node.role = .candidate candidate)
      (member : peer ∈ node.peers) :
      Move input node disk .stay
        [.send ⟨node.id, peer, node.term, .campaign node.log.lastIndex node.log.lastTerm⟩] node
  | refuse {msg : Envelope} {lastIndex lastTerm : Nat} (acting : input = .step msg)
      (asked : msg.message = .campaign lastIndex lastTerm) :
      Move input node disk .stay [.send ⟨node.id, msg.source, node.term, .campaignResponse false⟩] node
  /-- Vote for a candidate. The vote is sent before it is persisted. -/
  | grant {msg : Envelope} {follower : Follower} {lastIndex lastTerm : Nat}
      (acting : input = .step msg) (asked : msg.message = .campaign lastIndex lastTerm)
      (current : msg.term = node.term) (role : node.role = .follower follower)
      (free : ∀ voted, follower.votedFor = some voted → voted = msg.source)
      (recent : ¬ (node.log.lastTerm > lastTerm ∨
        node.log.lastTerm = lastTerm ∧ node.log.lastIndex > lastIndex)) :
      Move input node disk (.vote msg.source)
        [.send ⟨node.id, msg.source, node.term, .campaignResponse true⟩,
          .write (.set .termVote (node.term, some msg.source))]
        { node with role := .follower { follower with votedFor := some msg.source } }
  /-- Record a vote. -/
  | poll {msg : Envelope} {candidate : Candidate} (acting : input = .step msg)
      (voted : msg.message = .campaignResponse true) (current : msg.term = node.term)
      (role : node.role = .candidate candidate) :
      Move input node disk .stay []
        { node with role := .candidate { candidate with
            votes := insert msg.source candidate.votes } }
  /-- Win an election: announce it and append an empty entry to the log. -/
  | lead {candidate : Candidate} (role : node.role = .candidate candidate)
      (won : candidate.votes.card.toUInt8 ≥ quorumSize node.clusterSize) :
      Move input node disk .lead
        ((node.peers.insertionSort (· ≤ ·)).map (fun peer => .send ⟨node.id, peer, node.term,
            .heartbeat node.log.commitIndex node.log.commitTerm 0⟩) ++
          [.write (.set (.entry (node.log.lastIndex + 1)) (node.term, none))])
        { node with
          log := { node.log with lastIndex := node.log.lastIndex + 1, lastTerm := node.term }
          role := .leader (Leader.new node.peers node.log.lastIndex) }
  | beat {leader : Leader} {peer : NodeID} (role : node.role = .leader leader)
      (member : peer ∈ node.peers) :
      Move input node disk .stay [.send ⟨node.id, peer, node.term,
        .heartbeat node.log.commitIndex node.log.commitTerm leader.readSeq⟩] node
  /-- Append a client's command to the log, and track it until it is applied. -/
  | propose {msg : Envelope} {leader : Leader} {id : RequestID} {command : Bytes}
      (acting : input = .step msg) (asked : msg.message = .clientRequest id (.write command))
      (current : msg.term = node.term) (role : node.role = .leader leader) :
      Move input node disk (.propose (some command))
        [.write (.set (.entry (node.log.lastIndex + 1)) (node.term, some command))]
        { node with
          log := { node.log with lastIndex := node.log.lastIndex + 1, lastTerm := node.term }
          role := .leader (leader.insertWrite (node.log.lastIndex + 1)
            { source := msg.source, id }) }
  /-- Send the log behind a base entry to a peer, to its end. -/
  | replicate {leader : Leader} {peer : NodeID} {progress : Progress} {baseIndex baseTerm : Nat}
      {entries : List Entry} (role : node.role = .leader leader)
      (known : leader.getProgress peer = some progress)
      (base : Leader.Base disk progress.next baseIndex baseTerm)
      (scanned : (Log.scan fun index => baseIndex + 1 ≤ index).run disk.engine =
        ⟨[], .ok entries⟩) :
      Move input node disk .stay
        [.send ⟨node.id, peer, node.term, .append baseIndex baseTerm entries⟩] node
  /-- Record that a peer confirmed a read sequence number. -/
  | confirm {msg : Envelope} {leader : Leader} {lastIndex lastTerm readSeq : Nat}
      (acting : input = .step msg)
      (confirmed : msg.message = .heartbeatResponse lastIndex lastTerm readSeq)
      (current : msg.term = node.term) (role : node.role = .leader leader)
      (within : readSeq ≤ leader.readSeq) :
      Move input node disk .stay []
        { node with role := .leader (leader.modifyProgress msg.source fun known =>
            { known with readSeq }) }
  /-- Record that a peer accepted entries. -/
  | acknowledge {msg : Envelope} {leader : Leader} {lastIndex lastTerm : Nat}
      (acting : input = .step msg)
      (accepted : msg.message = .appendResponse false lastIndex lastTerm)
      (current : msg.term = node.term) (role : node.role = .leader leader)
      (within : lastIndex ≤ node.log.lastIndex) (positive : 0 < lastIndex) :
      Move input node disk .stay []
        { node with role := .leader (leader.modifyProgress msg.source fun known =>
            { known with next := lastIndex + 1, last := lastIndex }) }
  /-- Go one entry back for a peer that rejected entries. -/
  | probe {msg : Envelope} {leader : Leader} {lastIndex lastTerm : Nat}
      (acting : input = .step msg)
      (rejected : msg.message = .appendResponse true lastIndex lastTerm)
      (current : msg.term = node.term) (role : node.role = .leader leader) :
      Move input node disk .stay []
        { node with role := .leader (leader.modifyProgress msg.source fun known =>
            if known.next > 1 then { known with next := known.next - 1 } else known) }
  /-- Commit an entry of the own term that a quorum has. -/
  | decide {leader : Leader} {index : Nat} {command : Option Bytes}
      (role : node.role = .leader leader)
      (quorum : IsQuorumValue (leader.lastIndexes node.log) index)
      (advances : node.log.commitIndex < index)
      (stored : disk.entryAt index = some (node.term, command)) :
      Move input node disk (.decide index) [.write (.set .commitIndex (index, node.term))]
        { node with log := { node.log with commitIndex := index, commitTerm := node.term } }
  /-- Abort a pending write. -/
  | forsake {leader : Leader} {known : Nat × Write} {rest : List (Nat × Write)}
      (role : node.role = .leader leader) (front : leader.writes = known :: rest) :
      Move input node disk .stay
        [.send ⟨node.id, known.2.source, node.term, .clientResponse known.2.id (.error .abort)⟩]
        { node with role := .leader { leader with writes := rest } }
  /-- Abort a pending read. -/
  | forsakeRead {leader : Leader} {read : Read} {rest : List Read}
      (role : node.role = .leader leader) (front : leader.reads = read :: rest) :
      Move input node disk .stay
        [.send ⟨node.id, read.source, node.term, .clientResponse read.id (.error .abort)⟩]
        { node with role := .leader { leader with reads := rest } }
  /-- Report the status of the cluster. -/
  | report {msg : Envelope} {leader : Leader} {id : RequestID} (acting : input = .step msg)
      (asked : msg.message = .clientRequest id .status) (current : msg.term = node.term)
      (role : node.role = .leader leader) (status : Status) :
      Move input node disk .stay
        [.send ⟨node.id, msg.source, node.term, .clientResponse id (.ok (.status status))⟩] node
  /-- Register a client's read. -/
  | enqueue {msg : Envelope} {leader : Leader} {id : RequestID} {command : Bytes}
      (acting : input = .step msg) (asked : msg.message = .clientRequest id (.read command))
      (current : msg.term = node.term) (role : node.role = .leader leader) :
      Move input node disk .stay
        [.queue node.term { seq := leader.readSeq + 1, source := msg.source, id, command }]
        { node with role := .leader (leader.pushRead
            { seq := leader.readSeq + 1, source := msg.source, id, command }) }
  /-- Execute a read whose sequence number a quorum has confirmed. -/
  | read {leader : Leader} {read : Read} {rest : List Read} {readSeq : Nat}
      (role : node.role = .leader leader) (front : leader.reads = read :: rest)
      (quorum : IsQuorumValue leader.readSeqs readSeq) (ready : read.seq ≤ readSeq) :
      Move input node disk .stay
        [.read node.term read,
          .send ⟨node.id, read.source, node.term, .clientResponse read.id
            ((State.read disk.state read.command).map Response.read)⟩]
        { node with role := .leader { leader with reads := rest } }
  /-- Respond to the leader's heartbeat. -/
  | respond {msg : Envelope} {follower : Follower} {commitIndex commitTerm readSeq : Nat}
      (acting : input = .step msg)
      (received : msg.message = .heartbeat commitIndex commitTerm readSeq)
      (current : msg.term = node.term) (role : node.role = .follower follower)
      (follows : follower.leader = some msg.source) :
      Move input node disk .stay [.send ⟨node.id, msg.source, node.term,
        .heartbeatResponse node.log.lastIndex node.log.lastTerm readSeq⟩] node
  /-- Commit what the leader has committed. -/
  | commit {msg : Envelope} {follower : Follower} {commitIndex commitTerm readSeq : Nat}
      {command : Option Bytes} (acting : input = .step msg)
      (received : msg.message = .heartbeat commitIndex commitTerm readSeq)
      (current : msg.term = node.term) (role : node.role = .follower follower)
      (follows : follower.leader = some msg.source)
      (stored : disk.entryAt commitIndex = some (commitTerm, command))
      (advances : node.log.commitIndex < commitIndex) :
      Move input node disk .stay [.write (.set .commitIndex (commitIndex, commitTerm))]
        { node with log := { node.log with commitIndex, commitTerm } }
  /-- Append the leader's entries behind a base entry, and tell. -/
  | accept {msg : Envelope} {follower : Follower} {baseIndex baseTerm last : Nat}
      {entries : List Entry} {writes : List Log.Write} {log : Log} (acting : input = .step msg)
      (received : msg.message = .append baseIndex baseTerm entries)
      (current : msg.term = node.term) (role : node.role = .follower follower)
      (follows : follower.leader = some msg.source)
      (base : baseIndex = 0 ∨ disk.Has baseIndex baseTerm) (some : entries ≠ [])
      (spliced : (node.log.splice entries).run disk.engine = ⟨writes, .ok (log, last)⟩) :
      Move input node disk (.adopt (baseIndex + entries.length))
        (writes.map .write ++ [.send ⟨node.id, msg.source, node.term,
          .appendResponse false log.lastIndex log.lastTerm⟩])
        { node with log }
  /-- Tell the leader that there is nothing to append. -/
  | agree {msg : Envelope} {follower : Follower} {baseIndex baseTerm : Nat}
      (acting : input = .step msg) (received : msg.message = .append baseIndex baseTerm [])
      (current : msg.term = node.term) (role : node.role = .follower follower)
      (follows : follower.leader = some msg.source)
      (base : baseIndex = 0 ∨ disk.Has baseIndex baseTerm) :
      Move input node disk .stay [.send ⟨node.id, msg.source, node.term,
        .appendResponse false node.log.lastIndex node.log.lastTerm⟩] node
  | reject {msg : Envelope} {follower : Follower} {baseIndex baseTerm : Nat}
      {entries : List Entry} (acting : input = .step msg)
      (received : msg.message = .append baseIndex baseTerm entries)
      (current : msg.term = node.term) (role : node.role = .follower follower)
      (follows : follower.leader = some msg.source) :
      Move input node disk .stay [.send ⟨node.id, msg.source, node.term,
        .appendResponse true node.log.lastIndex node.log.lastTerm⟩] node
  /-- Forward a local client's request to the leader. -/
  | forward {msg : Envelope} {follower : Follower} {leader : NodeID} {id : RequestID}
      {request : Request} (acting : input = .step msg)
      (asked : msg.message = .clientRequest id request) (own : msg.source = node.id)
      (role : node.role = .follower follower) (follows : follower.leader = some leader) :
      Move input node disk .stay [.send ⟨node.id, leader, node.term, .clientRequest id request⟩]
        { node with role := .follower { follower with
            forwarded := follower.forwarded.insert id } }
  /-- Abort a request received during a campaign. -/
  | abort {msg : Envelope} {candidate : Candidate} {id : RequestID} {request : Request}
      (acting : input = .step msg) (asked : msg.message = .clientRequest id request)
      (current : msg.term = node.term) (role : node.role = .candidate candidate) :
      Move input node disk .stay
        [.send ⟨node.id, msg.source, node.term, .clientResponse id (.error .abort)⟩] node

/-- What a role takes for granted about the node. -/
def Role.Sane (node : Node) (vote : Option NodeID) : Role → Prop
  | .follower role => (∀ leader, role.leader = some leader →
      leader ≠ node.id ∧ leader ∈ node.peers ∧ node.term ≠ 0) ∧
      (role.leader = none → role.forwarded = []) ∧ role.votedFor = vote ∧
      role.leaderSeen < role.electionTimeout
  | .candidate role => node.term ≠ 0 ∧ node.id ∈ role.votes ∧ some node.id = vote ∧
      role.electionDuration < role.electionTimeout
  | .leader _ => node.term ≠ 0 ∧ some node.id = vote

/-- What a role takes for granted about a message of the current term. -/
def Role.Expects (node : Node) (msg : Envelope) : Role → Message → Prop
  | .follower role, .heartbeat .. | .follower role, .append .. =>
    ∀ leader, role.leader = some leader → msg.source = leader
  | .follower _, .clientRequest .. => msg.source = node.id
  | .follower role, .clientResponse .. => role.leader = some msg.source
  | .follower _, .heartbeatResponse .. | .follower _, .appendResponse .. => False
  | .candidate _, .heartbeatResponse .. | .candidate _, .appendResponse .. => False
  | .candidate _, .clientResponse .. => False
  | .leader _, .heartbeat .. | .leader _, .append .. | .leader _, .clientResponse .. => False
  | .leader role, .heartbeatResponse _ _ readSeq =>
    readSeq ≤ role.readSeq ∧ role.getProgress msg.source ≠ none
  | .leader role, .appendResponse false lastIndex lastTerm =>
    lastIndex ≤ node.log.lastIndex ∧ lastTerm ≤ node.log.lastTerm ∧
      role.getProgress msg.source ≠ none
  | .leader role, .appendResponse true _ _ => role.getProgress msg.source ≠ none
  | _, _ => True

/-- No assertion contradicts the state of a node and what it processes. -/
structure Sane (input : Input) (node : Node) (disk : Disk σ) : Prop where
  term : node.term = disk.termVote.1
  role : node.role.Sane node disk.termVote.2
  addressed : ∀ msg, input = .step msg →
    msg.target = node.id ∧ (msg.source = node.id ∨ msg.source ∈ node.peers)
  expected : ∀ msg, input = .step msg → msg.term = node.term →
    node.role.Expects node msg msg.message
  applied : disk.appliedIndex ≤ node.log.commitIndex
  reliable : ∀ (state : σ) entry message,
    (State.apply state entry).2 ≠ .error (.internal message)
  size : node.peers.length < 255
  progress : ∀ leader, node.role = .leader leader → leader.progress.length = node.peers.length ∧
    (∀ peer ∈ node.peers, leader.getProgress peer ≠ none) ∧
    ∀ peer progress, leader.getProgress peer = some progress → 1 < progress.next →
      disk.entryAt (progress.next - 1) ≠ none
  lastIndex : ∀ leader, node.role = .leader leader → ∀ index ∈ leader.lastIndexes node.log,
    0 < index → disk.entryAt index ≠ none
  splice : ∀ msg baseIndex baseTerm entries follower, input = .step msg →
    msg.message = .append baseIndex baseTerm entries → msg.term = node.term →
    node.role = .follower follower → (baseIndex = 0 ∨ disk.Has baseIndex baseTerm) →
      ∃ writes result, (node.log.splice entries).run disk.engine = ⟨writes, .ok result⟩

end Radb.Raft
