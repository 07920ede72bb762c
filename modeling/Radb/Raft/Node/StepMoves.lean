import Radb.Raft.Node.LeaderMoves

/-! # Candidates, followers and whole steps, move by move -/

namespace Radb.Raft

open Foundation Foundation.Program

variable {σ : Type} [State σ] {input : Input} {disk : Disk σ} {draw : Nat}

variable {msg : Envelope}

namespace Candidate

variable {node : RawNode Candidate}

theorem assert_passes : Passes input node.ofCandidate disk (assert node) := by
  simp only [assert, bind_eq_andThen]
  refine Tracks.pass (RawNode.assertNode_passes rfl) fun _ => ?_
  refine Tracks.require (fun zero sane => zero sane.role.1) fun _ => ?_
  refine Tracks.require (fun absent sane => absent sane.role.2.1) fun _ => ?_
  refine Tracks.read (getTerm_run disk) ?_
  refine Tracks.require (fun differs sane => differs sane.role.2.2.1) fun _ => ?_
  exact Tracks.check (fun passed sane => passed sane.role.2.2.2) ⟨rfl, rfl⟩

/-- A candidate, or a follower that has caught up, stands for election. -/
theorem campaign_moves (node : RawNode Candidate) {role : Role}
    (ready : (∃ candidate, role = .candidate candidate) ∨
      (∃ follower, role = .follower follower) ∧ disk.CaughtUp node.log.commitIndex)
    (drawn : electionTimeouts draw = true) :
    Moves input (node.intoRole role) disk (campaign node draw) fun value reached _ =>
      reached = value.ofCandidate ∧ value.peers = node.peers ∧
        value.role.votes = insert node.id ∅ := by
  simp only [campaign, bind_eq_andThen]
  refine Tracks.act (setTerm_run disk _ _) ⟨_, .stand ready drawn⟩ ?_
  refine Tracks.pass (moves_each_send ?_) fun _ => Tracks.ret ⟨rfl, rfl, rfl⟩
  intro peer member
  exact .solicit rfl ((List.mem_insertionSort _).mp member)

/-- A candidate with a quorum of votes starts its term. -/
theorem intoLeader_moves (node : RawNode Candidate)
    (won : node.role.votes.card.toUInt8 ≥ quorumSize node.clusterSize) :
    Moves input node.ofCandidate disk (intoLeader node) fun value reached _ =>
      reached = value.ofLeader := by
  simp only [intoLeader, Leader.propose, bind_eq_andThen, Program.andThen_assoc]
  refine Tracks.act_both (andThen_of_run _ (Leader.heartbeat_run _ disk)) ⟨_, .lead rfl won⟩ ?_
  refine Tracks.pass (Leader.each_sendLog_passes { node with
    log := { node.log with lastIndex := node.log.lastIndex + 1, lastTerm := node.term }
    role := Leader.new node.peers node.log.lastIndex }) fun _ => ?_
  exact Tracks.ret rfl

theorem recordVote_moves (acting : input = .step msg)
    (received : msg.message = .campaignResponse true) (current : msg.term = node.term) :
    Moves input node.ofCandidate disk (recordVote node msg.source)
      fun value reached _ => reached = value := by
  simp only [recordVote, bind_eq_andThen]
  refine Tracks.silent ⟨_, .poll acting received current rfl⟩ ?_
  split
  · next won =>
      exact (intoLeader_moves { node with
        role := { node.role with votes := insert msg.source node.role.votes } } won).andThen
          fun _ _ _ ends => Tracks.ret ends
  · exact Tracks.ret rfl

theorem intoFollower_none_moves (acting : input = .step msg) (later : node.term < msg.term)
    (drawn : electionTimeouts draw = true) :
    Moves input node.ofCandidate disk (intoFollower node msg.term none draw)
      fun value reached _ => reached = value.ofFollower ∧ value.term = msg.term := by
  simp only [intoFollower, bind_eq_andThen]
  refine Tracks.require (fun regresses => absurd later.le regresses) fun _ => ?_
  refine Tracks.require (fun same => absurd later.ne' same) fun _ => ?_
  exact Tracks.act (setTerm_run disk _ _) ⟨_, .advance acting later drawn⟩ (Tracks.ret ⟨rfl, rfl⟩)

theorem intoFollower_some_moves (acting : input = .step msg) (leads : msg.message.fromLeader)
    (current : msg.term = node.term) (drawn : electionTimeouts draw = true) :
    Moves input node.ofCandidate disk (intoFollower node msg.term (some msg.source) draw)
      fun value reached _ => reached = value.ofFollower := by
  simp only [intoFollower, bind_eq_andThen]
  refine Tracks.require (fun regresses => absurd current.ge regresses) fun _ => ?_
  refine Tracks.require (fun differs => absurd current differs) fun _ => ?_
  exact Tracks.silent ⟨_, .concede acting leads current rfl drawn⟩ (Tracks.ret rfl)

theorem tick_moves (node : RawNode Candidate) (drawn : electionTimeouts draw = true) :
    Moves input node.ofCandidate disk (tick node draw) fun value reached _ => reached = value := by
  simp only [tick, bind_eq_andThen]
  refine Tracks.pass assert_passes fun _ => ?_
  split
  · refine Tracks.andThen (campaign_moves { node with
      role := { node.role with electionDuration := node.role.electionDuration + 1 } }
      (.inl ⟨node.role, rfl⟩) drawn) ?_
    intro value reached left ends
    exact Tracks.ret ends.1
  · next early =>
      exact Tracks.silent ⟨_, .idle (.campaign _ (Nat.not_le.mp early))⟩ (Tracks.ret rfl)

end Candidate

namespace Follower

variable {node : RawNode Follower}

theorem assert_passes : Passes input node.ofFollower disk (assert node) := by
  have rest : Passes input node.ofFollower disk
      (Program.andThen (onLog Log.getTerm) fun value =>
        Program.andThen (Raft.assert (node.role.votedFor = value.2) "Vote does not match log")
          fun _ => Raft.assert (node.role.leaderSeen < node.role.electionTimeout)
            "Election timeout passed") := by
    refine Tracks.read (getTerm_run disk) ?_
    refine Tracks.require (fun differs sane => differs sane.role.2.2.1) fun _ => ?_
    exact Tracks.check (fun passed sane => passed sane.role.2.2.2) ⟨rfl, rfl⟩
  simp only [assert, bind_eq_andThen]
  refine Tracks.pass (RawNode.assertNode_passes rfl) fun _ => ?_
  cases known : node.role.leader with
  | none =>
    exact Tracks.require (fun left sane => left (sane.role.2.1 known)) fun _ => rest
  | some leader =>
    refine Tracks.require (fun self sane => self (sane.role.1 leader known).1) fun _ => ?_
    refine Tracks.require (fun other sane => other (sane.role.1 leader known).2.1) fun _ => ?_
    exact Tracks.require (fun zero sane => zero (sane.role.1 leader known).2.2) fun _ => rest

/-- The requests are aborted one after the other. The node may have a role that differs
from the program's in the clock. -/
theorem abortForwarded_moves (node : RawNode Follower) {follower : Follower}
    (same : follower.forwarded = node.role.forwarded) :
    Moves input (node.intoRole (.follower follower)) disk (abortForwarded node)
      fun value reached left =>
        (reached = node.intoRole (.follower { follower with forwarded := [] }) ∧ left = disk) ∧
          value = { node with role := { node.role with forwarded := [] } } := by
  have discard (id : RequestID) (rest : List RequestID) : Move input
      (node.intoRole (.follower { follower with forwarded := id :: rest })) disk .stay
      [.send ⟨node.id, node.id, node.term, .clientResponse id (.error .abort)⟩]
      (node.intoRole (.follower { follower with forwarded := rest })) :=
    @Move.discard _ _ _ _ _ { follower with forwarded := id :: rest } id rest rfl rfl
  simp only [abortForwarded, bind_eq_andThen]
  have drained := moves_drain (fun forwarded => node.intoRole
    (.follower { follower with forwarded })) discard node.role.forwarded
  rw [← same] at drained ⊢
  refine drained.andThen ?_
  intro _ reached left ends
  exact Tracks.ret ⟨ends, rfl⟩

theorem intoCandidate_moves (node : RawNode Follower) {follower : Follower}
    (same : follower.forwarded = node.role.forwarded) (drawn : electionTimeouts draw = true) :
    Moves input (node.intoRole (.follower follower)) disk (intoCandidate node draw)
      fun value reached _ => reached = value.ofCandidate ∧ value.peers = node.peers ∧
        value.role.votes = insert node.id ∅ := by
  simp only [intoCandidate, bind_eq_andThen]
  refine (abortForwarded_moves node same).andThen ?_
  intro value reached left ends
  obtain ⟨⟨rfl, rfl⟩, rfl⟩ := ends
  refine (RawNode.maybeApply_moves rfl).andThen ?_
  intro _ reached left ends
  obtain ⟨rfl, caughtUp⟩ := ends
  exact Candidate.campaign_moves (node.intoRole (Candidate.new draw)) (.inr ⟨⟨_, rfl⟩, caughtUp⟩)
    drawn

theorem intoFollower_none_moves (acting : input = .step msg) (later : node.term < msg.term)
    (drawn : electionTimeouts draw = true) :
    Moves input node.ofFollower disk (intoFollower node none msg.term draw)
      fun value reached _ => reached = value.ofFollower ∧ value.term = msg.term := by
  simp only [intoFollower, bind_eq_andThen]
  refine Tracks.require (fun regresses => absurd later.le regresses) fun _ => ?_
  refine (abortForwarded_moves node rfl).andThen ?_
  intro value reached left ends
  obtain ⟨⟨rfl, rfl⟩, rfl⟩ := ends
  refine Tracks.require (fun same => absurd later.ne' same) fun _ => ?_
  exact Tracks.act (setTerm_run _ _ _) ⟨_, .advance acting later drawn⟩ (Tracks.ret ⟨rfl, rfl⟩)

section Receive

variable {msg : Envelope} (acting : input = .step msg) (current : msg.term = node.term)
include acting current

/-- After a message of the leader, the follower follows it. -/
theorem followSender_moves (leads : msg.message.fromLeader)
    (drawn : electionTimeouts draw = true) :
    Moves input node.ofFollower disk (followSender node msg draw) fun value reached left =>
      (reached = value.ofFollower ∧ left = disk) ∧ value.role.leader = some msg.source ∧
        value.term = node.term := by
  unfold followSender
  cases known : node.role.leader with
  | some leader =>
    simp only [bind_eq_andThen]
    refine Tracks.require ?_ ?_
    · intro other sane
      have expects := sane.expected msg acting current
      cases shape : msg.message with
      | heartbeat | append => exact other (by rw [shape] at expects; exact expects leader known)
      | _ => simp [shape, Message.fromLeader] at leads
    · rintro rfl
      exact Tracks.ret ⟨⟨rfl, rfl⟩, known, rfl⟩
  | none =>
    simp only [intoFollower, bind_eq_andThen]
    refine Tracks.require (fun regresses => absurd current.ge regresses) fun _ => ?_
    refine (abortForwarded_moves node rfl).andThen ?_
    intro value reached left ends
    obtain ⟨⟨rfl, rfl⟩, rfl⟩ := ends
    refine Tracks.require (fun other => absurd known other) fun _ => ?_
    refine Tracks.require (fun differs => absurd current differs) fun _ => ?_
    exact Tracks.silent ⟨_, .follow acting leads current rfl known drawn⟩
      (Tracks.ret ⟨⟨rfl, rfl⟩, rfl, rfl⟩)

theorem heartbeat_moves {commitIndex commitTerm readSeq : Nat}
    (received : msg.message = .heartbeat commitIndex commitTerm readSeq)
    (drawn : electionTimeouts draw = true) :
    Moves input node.ofFollower disk (heartbeat node msg commitIndex commitTerm readSeq draw)
      fun value reached _ => reached = value.ofFollower := by
  simp only [heartbeat, bind_eq_andThen]
  refine (followSender_moves acting current (by rw [received]; rfl) drawn).andThen ?_
  intro value reached left ends
  obtain ⟨⟨rfl, rfl⟩, follows, same⟩ := ends
  have now : msg.term = value.term := current.trans same.symm
  refine Tracks.act (perform_run _ _) ⟨_, .respond acting received now rfl follows⟩ ?_
  obtain ⟨found, ran, spec⟩ := Log.has_spec left commitIndex commitTerm
  refine Tracks.read ran ?_
  split
  · next advances =>
      obtain ⟨has, above⟩ := advances
      rcases spec.mp has with ⟨command, stored⟩ | ⟨_, zero, _⟩
      · refine Tracks.act (Log.commit_spec left value.log above.le stored)
          ⟨_, .commit acting received now rfl follows stored above⟩ ?_
        refine (RawNode.maybeApply_moves rfl).andThen ?_
        intro _ reached left ends
        exact Tracks.ret ends.1
      · omega
  · exact Tracks.ret rfl

theorem append_moves {baseIndex baseTerm : Nat} {entries : List Entry}
    (received : msg.message = .append baseIndex baseTerm entries)
    (drawn : electionTimeouts draw = true) :
    Moves input node.ofFollower disk (append node msg baseIndex baseTerm entries draw)
      fun value reached _ => reached = value.ofFollower := by
  simp only [append, bind_eq_andThen]
  refine (followSender_moves acting current (by rw [received]; rfl) drawn).andThen ?_
  intro value reached left ends
  obtain ⟨⟨rfl, rfl⟩, follows, same⟩ := ends
  have now : msg.term = value.term := current.trans same.symm
  have refuse : Moves input value.ofFollower left
      (Program.andThen (value.send msg.source
        (.appendResponse true value.log.lastIndex value.log.lastTerm)) fun _ => ret value)
      fun value reached _ => reached = value.ofFollower :=
    Tracks.act (perform_run _ _) ⟨_, .reject acting received now rfl follows⟩ (Tracks.ret rfl)
  have splice (base : baseIndex = 0 ∨ left.Has baseIndex baseTerm) :
      Moves input value.ofFollower left
        (Program.andThen (onLog (value.log.splice entries)) fun spliced =>
          Program.andThen (RawNode.send { value with log := spliced.1 } msg.source
            (.appendResponse false spliced.1.lastIndex spliced.1.lastTerm)) fun _ =>
              ret { value with log := spliced.1 })
        fun value reached _ => reached = value.ofFollower := by
    by_cases empty : entries = []
    · subst empty
      exact Tracks.of_move rfl ⟨_, .agree acting received now rfl follows base⟩ rfl
    rcases Log.splice_spec left.engine value.log entries with ⟨fault, failed⟩ |
      ⟨writes, ⟨log, last⟩, ran, _⟩
    · refine Tracks.of_stop (andThen_of_stop _ (lift_run failed)) ?_
      intro sane
      obtain ⟨writes, result, ran⟩ := sane.splice msg _ _ _ _ acting received now rfl base
      cases failed.symm.trans ran
    · exact Tracks.of_move (andThen_of_run _ (lift_run ran))
        ⟨_, .accept acting received now rfl follows base empty ran⟩ rfl
  split
  · obtain ⟨found, ran, spec⟩ := Log.has_spec left baseIndex baseTerm
    refine Tracks.read ran ?_
    cases found with
    | false => exact refuse
    | true => exact splice (.inr (spec.mp rfl))
  · exact splice (.inl (by omega))

theorem campaign_moves {lastIndex lastTerm : Nat}
    (received : msg.message = .campaign lastIndex lastTerm) :
    Moves input node.ofFollower disk (campaign node msg lastIndex lastTerm)
      fun value reached _ => reached = value.ofFollower := by
  simp only [campaign, bind_eq_andThen]
  split
  · exact Tracks.act (perform_run _ _) ⟨_, .refuse acting received⟩ (Tracks.ret rfl)
  · next free =>
      split
      · exact Tracks.act (perform_run _ _) ⟨_, .refuse acting received⟩ (Tracks.ret rfl)
      · next recent =>
          refine Tracks.act_both rfl ⟨_, .grant acting received current rfl ?_ recent⟩ (Tracks.ret rfl)
          intro voted known
          by_contra other
          refine free ?_
          change node.role.votedFor = some voted at known
          simp [known, Ne.symm other]

theorem clientRequest_moves {id : RequestID} {request : Request}
    (received : msg.message = .clientRequest id request) :
    Moves input node.ofFollower disk (clientRequest node msg id)
      fun value reached _ => reached = value.ofFollower := by
  simp only [clientRequest, bind_eq_andThen]
  refine Tracks.require ?_ ?_
  · intro other sane
    have expects := sane.expected msg acting current
    rw [received] at expects
    exact other expects
  · intro own
    cases known : node.role.leader with
    | some leader =>
      rw [received]
      refine Tracks.act (perform_run _ _) ⟨_, .forward acting received own rfl known⟩ ?_
      exact Tracks.ret (by rw [← known]; rfl)
    | none =>
      rw [own]
      exact Tracks.act (perform_run _ _) ⟨_, .decline acting received current own rfl known⟩
        (Tracks.ret rfl)

theorem clientResponse_moves {id : RequestID} {response : Except Error Response}
    (received : msg.message = .clientResponse id response) :
    Moves input node.ofFollower disk (clientResponse node msg id response)
      fun value reached _ => reached = value.ofFollower := by
  simp only [clientResponse, bind_eq_andThen]
  refine Tracks.require ?_ fun _ => ?_
  · intro other sane
    have expects := sane.expected msg acting current
    rw [received] at expects
    refine other ?_
    change node.role.leader = some msg.source at expects
    simp [isLeader, expects]
  · split
    · next held =>
        exact Tracks.act (perform_run _ _) ⟨_, .relay acting received current rfl held⟩
          (Tracks.ret rfl)
    · exact Tracks.ret rfl

theorem dispatch_moves (drawn : electionTimeouts draw = true) :
    Moves input node.ofFollower disk (dispatch node msg draw)
      fun value reached _ => reached = value.ofFollower := by
  have unexpected (message : Message) (received : msg.message = message)
      (refused : ¬ (Role.follower node.role).Expects node.ofFollower msg message) :
      ¬ Sane input node.ofFollower disk := by
    intro sane
    have expects := sane.expected msg acting current
    rw [received] at expects
    exact refused expects
  unfold dispatch
  split
  case h_1 received => exact heartbeat_moves acting current received drawn
  case h_2 received => exact append_moves acting current received drawn
  case h_3 received => exact campaign_moves acting current received
  case h_4 => exact Tracks.ret rfl
  case h_5 received => exact clientRequest_moves acting current received
  case h_6 received => exact clientResponse_moves acting current received
  case h_7 received => exact Tracks.fail (unexpected _ received id)
  case h_8 received => exact Tracks.fail (unexpected _ received id)

theorem receive_moves (drawn : electionTimeouts draw = true) :
    Moves input node.ofFollower disk (receive node msg draw)
      fun value reached _ => reached = value.ofFollower := by
  unfold receive
  split
  · refine Tracks.silent ⟨_, .idle (.hear _)⟩ ?_
    exact dispatch_moves acting (show msg.term = RawNode.term { node with
      role := { node.role with leaderSeen := 0 } } from current) drawn
  · exact dispatch_moves acting current drawn

end Receive

theorem step_moves (node : RawNode Follower) (acting : input = .step msg)
    (drawn : electionTimeouts draw = true) :
    Moves input node.ofFollower disk (step node msg draw)
      fun value reached _ => reached = value.ofFollower := by
  simp only [step, bind_eq_andThen]
  refine Tracks.pass assert_passes fun _ => ?_
  refine Tracks.pass (RawNode.assertStep_passes acting rfl rfl) fun _ => ?_
  split
  · exact Tracks.ret rfl
  · next recent =>
      split
      · next later =>
          refine (intoFollower_none_moves acting later drawn).andThen ?_
          intro value reached left ends
          obtain ⟨rfl, same⟩ := ends
          refine Tracks.pass assert_passes fun _ => ?_
          refine Tracks.pass (RawNode.assertStep_passes acting rfl rfl) fun _ => ?_
          exact receive_moves acting same.symm drawn
      · next early =>
          exact receive_moves acting (by omega) drawn

theorem tick_moves (node : RawNode Follower) (drawn : electionTimeouts draw = true) :
    Moves input node.ofFollower disk (tick node draw) fun value reached _ => reached = value := by
  simp only [tick, bind_eq_andThen]
  refine Tracks.pass assert_passes fun _ => ?_
  split
  · refine Tracks.andThen (intoCandidate_moves { node with
      role := { node.role with leaderSeen := node.role.leaderSeen + 1 } } rfl drawn) ?_
    intro value reached left ends
    exact Tracks.ret ends.1
  · next early =>
      exact Tracks.silent ⟨_, .idle (.await _ (Nat.not_le.mp early))⟩ (Tracks.ret rfl)

end Follower

namespace Candidate

theorem step_moves (node : RawNode Candidate) (acting : input = .step msg)
    (drawn : electionTimeouts draw = true) :
    Moves input node.ofCandidate disk (step node msg draw)
      fun value reached _ => reached = value := by
  have follow {value : RawNode Follower} {left : Disk σ} : Moves input value.ofFollower left
      (Program.andThen (Follower.step value msg draw) fun node => ret node.ofFollower)
      fun value reached _ => reached = value :=
    (Follower.step_moves _ acting drawn).andThen fun _ _ _ ends => Tracks.ret ends
  simp only [step, bind_eq_andThen]
  refine Tracks.pass assert_passes fun _ => ?_
  refine Tracks.pass (RawNode.assertStep_passes acting rfl rfl) fun _ => ?_
  split
  · exact Tracks.ret rfl
  · next recent =>
      split
      · next later =>
          refine (intoFollower_none_moves acting later drawn).andThen ?_
          intro value reached left ends
          obtain ⟨rfl, _⟩ := ends
          exact follow
      · next early =>
          have current : msg.term = node.term := by omega
          have concede (leads : msg.message.fromLeader) : Moves input node.ofCandidate disk
              (Program.andThen (intoFollower node msg.term (some msg.source) draw) fun node =>
                Program.andThen (Follower.step node msg draw) fun node => ret node.ofFollower)
              fun value reached _ => reached = value := by
            refine (intoFollower_some_moves acting leads current drawn).andThen ?_
            intro value reached left ends
            obtain rfl := ends
            exact follow
          have unexpected (message : Message) (received : msg.message = message)
              (refused : ¬ (Role.candidate node.role).Expects node.ofCandidate msg message) :
              ¬ Sane input node.ofCandidate disk := by
            intro sane
            have expects := sane.expected msg acting current
            rw [received] at expects
            exact refused expects
          split
          case h_1 => exact Tracks.ret rfl
          case h_2 received => exact recordVote_moves acting received current
          case h_3 => exact Tracks.ret rfl
          case h_4 received => exact concede (by rw [received]; rfl)
          case h_5 received => exact concede (by rw [received]; rfl)
          case h_6 received =>
            exact Tracks.act (perform_run _ _) ⟨_, .abort acting received current rfl⟩ (Tracks.ret rfl)
          case h_7 received => exact Tracks.fail (unexpected _ received id)
          case h_8 received => exact Tracks.fail (unexpected _ received id)
          case h_9 received => exact Tracks.fail (unexpected _ received id)

end Candidate

theorem Leader.step_moves (node : RawNode Leader) (acting : input = .step msg)
    (drawn : electionTimeouts draw = true) :
    Moves input node.ofLeader disk (step node msg draw) fun value reached _ => reached = value := by
  simp only [step, bind_eq_andThen]
  refine Tracks.pass assert_passes fun _ => ?_
  refine Tracks.pass (RawNode.assertStep_passes acting rfl rfl) fun _ => ?_
  split
  · exact Tracks.ret rfl
  · next recent =>
      split
      · next later =>
          refine (intoFollower_moves acting later drawn).andThen ?_
          intro value reached left ends
          obtain ⟨rfl, _⟩ := ends
          exact (Follower.step_moves _ acting drawn).andThen fun _ _ _ ends => Tracks.ret ends
      · next early =>
          exact (receive_moves acting (by omega)).andThen fun _ _ _ ends => Tracks.ret ends

namespace Node

theorem step_moves (node : Node) (msg : Envelope) (drawn : electionTimeouts draw = true) :
    Moves (.step msg) node disk (node.step msg draw) fun value reached _ => reached = value := by
  obtain ⟨id, peers, term, log, role⟩ := node
  cases role with
  | candidate role => exact Candidate.step_moves ⟨id, peers, term, log, role⟩ rfl drawn
  | follower role =>
    exact (Follower.step_moves ⟨id, peers, term, log, role⟩ rfl drawn).andThen
      fun _ _ _ ends => Tracks.ret ends
  | leader role => exact Leader.step_moves ⟨id, peers, term, log, role⟩ rfl drawn

theorem tick_moves (node : Node) (drawn : electionTimeouts draw = true) :
    Moves .tick node disk (node.tick draw) fun value reached _ => reached = value := by
  obtain ⟨id, peers, term, log, role⟩ := node
  cases role with
  | candidate role => exact Candidate.tick_moves ⟨id, peers, term, log, role⟩ drawn
  | follower role => exact Follower.tick_moves ⟨id, peers, term, log, role⟩ drawn
  | leader role => exact Leader.tick_moves ⟨id, peers, term, log, role⟩

/-- The leaderless follower that a node starts as. -/
def restarted (id : NodeID) (peers : List NodeID) (log : Log) (disk : Disk σ) (draw : Nat) : Node :=
  { id, peers, term := disk.termVote.1, log,
    role := .follower (Follower.new none disk.termVote.2 draw) }

theorem new_moves (id : NodeID) (peers : List NodeID) (log : Log)
    (drawn : electionTimeouts draw = true) :
    Moves .boot (restarted id peers log disk draw) disk (new id peers log draw)
      fun value reached _ => reached = value := by
  simp only [new, bind_eq_andThen]
  refine Tracks.read (getTerm_run disk) ?_
  split
  · next alone =>
      refine (Follower.intoCandidate_moves ⟨id, peers, disk.termVote.1, log,
        Follower.new none disk.termVote.2 draw⟩ rfl drawn).andThen ?_
      intro value reached left ends
      obtain ⟨rfl, same, votes⟩ := ends
      refine (Candidate.intoLeader_moves value ?_).andThen fun _ _ _ ends => Tracks.ret ends
      have size : value.clusterSize = 1 := by
        rw [RawNode.clusterSize, same]
        exact congrArg (fun peers : List NodeID => peers.length.toUInt8 + 1) alone
      rw [votes, size, insert_empty_eq, Finset.card_singleton]
      decide
  · exact Tracks.ret rfl

end Node

end Radb.Raft
