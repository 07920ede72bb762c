import Radb.Foundation.Consensus.Protocol
import Radb.Raft.Turn

/-! # Elections

Every vote a member ever persisted is in the history. A member votes at most once in a
term, every vote that was sent is persisted, and whoever leads or led a term has the
votes of a majority, so that a term has at most one leader. Nothing here depends on what
the logs contain.
-/

namespace Radb.Raft

open Foundation Foundation.Program Foundation.Consensus

variable {σ : Type} [State σ]

variable {history : List (NodeID × Effect)} {term : Nat} {target : NodeID}

variable {candidate first second : NodeID} {vote : Option NodeID} {role : Role} {disk : Disk σ}
  {effects : List Effect}

/-- A member persisted a vote for a candidate. -/
def Ballot (history : List (NodeID × Effect)) (term : Nat) (voter candidate : NodeID) : Prop :=
  (voter, Effect.write (.set .termVote (term, some candidate))) ∈ history

/-- A majority of the members voted for a candidate. -/
def Elected (config : Config) (history : List (NodeID × Effect)) (term : Nat)
    (candidate : NodeID) : Prop :=
  ∃ quorum, Majority config.nodes quorum ∧ ∀ voter ∈ quorum, Ballot history term voter candidate

theorem Ballot.mono {voter : NodeID} (ballot : Ballot history term voter candidate)
    (more : List (NodeID × Effect)) :
    Ballot (history ++ more) term voter candidate := List.mem_append_left more ballot

theorem Elected.mono (elected : Elected config history term candidate)
    (more : List (NodeID × Effect)) : Elected config (history ++ more) term candidate := by
  obtain ⟨quorum, majority, ballots⟩ := elected
  exact ⟨quorum, majority, fun voter member => (ballots voter member).mono more⟩

/-- What the votes say about a member's role in a term. -/
def Role.Voted (config : Config) (history : List (NodeID × Effect)) (member : NodeID) (term : Nat)
    (vote : Option NodeID) : Role → Prop
  | .follower role => role.votedFor = vote
  | .candidate role => vote = some member ∧ term ≠ 0 ∧ member ∈ role.votes ∧
      ∀ voter ∈ role.votes, Ballot history term voter member
  | .leader _ => vote = some member ∧ term ≠ 0 ∧ Elected config history term member

theorem Role.Voted.mono (voted : role.Voted config history member term vote)
    (more : List (NodeID × Effect)) :
    role.Voted config (history ++ more) member term vote := by
  cases role with
  | follower role => exact voted
  | candidate role =>
    exact ⟨voted.1, voted.2.1, voted.2.2.1, fun voter member =>
      (voted.2.2.2 voter member).mono more⟩
  | leader role => exact ⟨voted.1, voted.2.1, voted.2.2.mono more⟩

/-- The invariant of elections. -/
structure Elects (config : Config) (cluster : Cluster σ) : Prop where
  node : ∀ {member node}, (cluster.processes member).node = some node →
    member ∈ config.nodes ∧ node.id = member ∧ node.peers = config.peers member ∧
      node.term = (cluster.processes member).disk.termVote.1 ∧
      node.role.Voted config cluster.history member node.term
        (cluster.processes member).disk.termVote.2
  sender : ∀ {sender envelope}, (sender, Effect.send envelope) ∈ cluster.history →
    envelope.source = sender ∧ sender ∈ config.nodes
  ballot : ∀ {term voter candidate}, Ballot cluster.history term voter candidate →
    voter ∈ config.nodes ∧ term ≤ (cluster.processes voter).disk.termVote.1 ∧
      (term = (cluster.processes voter).disk.termVote.1 →
        (cluster.processes voter).disk.termVote.2 = some candidate)
  unique : ∀ {term voter first second}, Ballot cluster.history term voter first →
    Ballot cluster.history term voter second → first = second
  granted : ∀ {voter candidate term},
    (voter, Effect.send ⟨voter, candidate, term, .campaignResponse true⟩) ∈ cluster.history →
      Ballot cluster.history term voter candidate
  leads : ∀ {sender envelope}, (sender, Effect.send envelope) ∈ cluster.history →
    envelope.message.fromLeader = true → Elected config cluster.history envelope.term sender

/-- The members are a node and its peers. -/
theorem Config.card_eq (config : Config) (inside : member ∈ config.nodes) :
    config.nodes.card = (config.peers member).length + 1 := by
  have same : (config.peers member).toFinset = config.nodes.erase member := by
    ext peer
    rw [List.mem_toFinset, config.mem_peers member inside, Finset.mem_erase, and_comm]
  rw [← List.toFinset_card_of_nodup (config.nodup_peers member inside), same,
    Finset.card_erase_of_mem inside]
  have positive := Finset.card_pos.mpr ⟨member, inside⟩
  omega

theorem Config.length_peers_lt (config : Config) (inside : member ∈ config.nodes) :
    (config.peers member).length < 255 := by
  have size := config.size
  rw [config.card_eq inside] at size
  omega

/-- A quorum of votes is a majority. -/
theorem Config.majority_of_votes (config : Config) {R : Type} {node : RawNode R}
    (inside : member ∈ config.nodes) (peers : node.peers = config.peers member)
    {votes : Finset NodeID} (members : votes ⊆ config.nodes)
    (won : votes.card.toUInt8 ≥ quorumSize node.clusterSize) : Majority config.nodes votes := by
  refine ⟨members, ?_⟩
  have small : node.peers.length < 255 := peers ▸ config.length_peers_lt inside
  have size := config.size
  have fewer := Finset.card_le_card members
  have count : (quorumSize node.clusterSize).toNat ≤ votes.card.toUInt8.toNat := won
  rw [quorumSize_toNat, RawNode.clusterSize_toNat small, Nat.toUInt8_eq, UInt8.toNat_ofNat',
    peers, ← config.card_eq inside] at count
  omega

namespace Elects

variable {config : Config} {cluster : Cluster σ} (elects : Elects config cluster)
include elects

/-- A term has at most one leader. -/
theorem leader_unique (left : Elected config cluster.history term first)
    (right : Elected config cluster.history term second) : first = second := by
  obtain ⟨quorum, majority, ballots⟩ := left
  obtain ⟨other, otherMajority, otherBallots⟩ := right
  obtain ⟨voter, inFirst, inSecond⟩ := majority.meet otherMajority
  exact elects.unique (ballots voter inFirst) (otherBallots voter inSecond)

end Elects

theorem Idle.voted {next : Role} (idles : Idle role next)
    (voted : role.Voted config history member term vote) :
    next.Voted config history member term vote := by
  cases idles <;> exact voted

/-- Effects that concern no election, of a member that leads the term if it says so. -/
def Effect.Quiet (config : Config) (history : List (NodeID × Effect)) (member : NodeID) :
    Effect → Prop
  | .write change => change.key ≠ .termVote
  | .send envelope => envelope.source = member ∧ envelope.message ≠ .campaignResponse true ∧
      (envelope.message.fromLeader = true → Elected config history envelope.term member)
  | _ => True

/-- What no effect writes stays as it is. -/
theorem Disk.get_replayAll {key : Log.Key}
    (untouched : ∀ write, Effect.write write ∈ effects → key ≠ write.key) :
    (replayAll Disk.replay disk effects).engine.get key = disk.engine.get key := by
  induction effects generalizing disk with
  | nil => rfl
  | cons effect rest ih =>
    rw [replayAll_cons, ih fun write member => untouched write (List.mem_cons_of_mem _ member)]
    cases effect with
    | write write => exact Store.get_replay_of_ne _ _ (untouched write List.mem_cons_self)
    | _ => rfl

theorem Disk.termVote_replayAll
    (quiet : ∀ write, Effect.write write ∈ effects → write.key ≠ .termVote) :
    (replayAll Disk.replay disk effects).termVote = disk.termVote := by
  rw [termVote, get_replayAll fun write found => (quiet write found).symm]
  rfl

@[simp] theorem Disk.termVote_set (disk : Disk σ) (term : Nat) (vote : Option NodeID) :
    (disk.replay (.write (.set .termVote (term, vote)))).termVote = (term, vote) := by
  simp only [termVote, replay, Store.get_set_self, Option.getD_some]

namespace Elects

variable {config : Config} {cluster : Cluster σ} (elects : Elects config cluster)
  {member : NodeID} (inside : member ∈ config.nodes) {effects : List Effect} {result : Option Node}
include elects inside

/-- Effects that neither go back in terms nor change a vote, and back every vote that is
sent and every message of a leader. -/
theorem record {vote : Nat × Option NodeID}
    (persisted : (replayAll Disk.replay (cluster.processes member).disk effects).termVote = vote)
    (forward : (cluster.processes member).disk.termVote.1 < vote.1 ∨
      (cluster.processes member).disk.termVote.1 = vote.1 ∧ ∀ candidate,
        (cluster.processes member).disk.termVote.2 = some candidate → vote.2 = some candidate)
    (ballots : ∀ term candidate, Effect.write (.set .termVote (term, some candidate)) ∈ effects →
      term = vote.1 ∧ vote.2 = some candidate)
    (sends : ∀ envelope, Effect.send envelope ∈ effects → envelope.source = member ∧
      (envelope.message = .campaignResponse true →
        Effect.write (.set .termVote (envelope.term, some envelope.target)) ∈ effects) ∧
      (envelope.message.fromLeader = true → Elected config cluster.history envelope.term member))
    (nodes : ∀ next, result = some next → next.id = member ∧ next.peers = config.peers member ∧
      next.term = vote.1 ∧ next.role.Voted config
        (cluster.history ++ effects.map fun effect => (member, effect)) member next.term vote.2) :
    Elects config (cluster.record member effects result) := by
  have added {sender : NodeID} {effect : Effect}
      (found : (sender, effect) ∈ (cluster.record member effects result).history) :
      (sender, effect) ∈ cluster.history ∨ sender = member ∧ effect ∈ effects := by
    rcases List.mem_append.mp found with old | new
    · exact .inl old
    · obtain ⟨other, performed, same⟩ := List.mem_map.mp new
      cases same
      exact .inr ⟨rfl, performed⟩
  have current : ((cluster.record member effects result).processes member).disk.termVote = vote := by
    rw [Cluster.processes_record_self]
    exact persisted
  -- A ballot of the member is one of the vote it has now, or of an earlier term.
  have cast {term : Nat} {candidate : NodeID}
      (ballot : Ballot (cluster.record member effects result).history term member candidate) :
      term ≤ vote.1 ∧ (term = vote.1 → vote.2 = some candidate) := by
    rcases added ballot with old | ⟨_, new⟩
    · obtain ⟨_, bound, voted⟩ := elects.ballot old
      rcases forward with later | ⟨same, keeps⟩
      · exact ⟨by omega, fun now => by omega⟩
      · exact ⟨by omega, fun now => keeps candidate (voted (now.trans same.symm))⟩
    · obtain ⟨now, voted⟩ := ballots term candidate new
      exact ⟨now.le, fun _ => voted⟩
  refine ⟨?_, ?_, ?_, ?_, ?_, ?_⟩
  · intro other node up
    by_cases same : other = member
    · subst same
      rw [Cluster.processes_record_self] at up
      obtain ⟨id, peers, term, voted⟩ := nodes node up
      rw [current]
      exact ⟨inside, id, peers, term, voted⟩
    · rw [Cluster.processes_record_of_ne same] at up ⊢
      obtain ⟨inside, id, peers, term, voted⟩ := elects.node up
      exact ⟨inside, id, peers, term, voted.mono _⟩
  · intro sender envelope found
    rcases added found with old | ⟨rfl, new⟩
    · exact elects.sender old
    · exact ⟨(sends envelope new).1, inside⟩
  · intro term voter candidate ballot
    by_cases same : voter = member
    · subst same
      rw [current]
      exact ⟨inside, cast ballot⟩
    · rw [Cluster.processes_record_of_ne same]
      rcases added ballot with old | ⟨here, _⟩
      · exact elects.ballot old
      · exact absurd here same
  · intro term voter first second ballot other
    by_cases same : voter = member
    · subst same
      rcases added ballot with old | ⟨_, new⟩
      · rcases added other with oldOther | ⟨_, newOther⟩
        · exact elects.unique old oldOther
        · obtain ⟨now, voted⟩ := ballots term second newOther
          exact Option.some.inj (((cast ballot).2 now).symm.trans voted)
      · obtain ⟨now, voted⟩ := ballots term first new
        exact Option.some.inj (voted.symm.trans ((cast other).2 now))
    · rcases added ballot with old | ⟨here, _⟩
      · rcases added other with oldOther | ⟨here, _⟩
        · exact elects.unique old oldOther
        · exact absurd here same
      · exact absurd here same
  · intro voter candidate term found
    rcases added found with old | ⟨rfl, new⟩
    · exact (elects.granted old).mono _
    · exact List.mem_append_right _ (List.mem_map_of_mem ((sends _ new).2.1 rfl))
  · intro sender envelope found leads
    rcases added found with old | ⟨rfl, new⟩
    · exact (elects.leads old leads).mono _
    · exact ((sends _ new).2.2 leads).mono _

/-- Effects that concern no election. -/
theorem record_quiet (quiet : ∀ effect ∈ effects, effect.Quiet config cluster.history member)
    (nodes : ∀ next, result = some next → next.id = member ∧ next.peers = config.peers member ∧
      next.term = (cluster.processes member).disk.termVote.1 ∧ next.role.Voted config
        cluster.history member next.term (cluster.processes member).disk.termVote.2) :
    Elects config (cluster.record member effects result) := by
  refine elects.record inside (Disk.termVote_replayAll fun write found => quiet _ found)
    (.inr ⟨rfl, fun _ voted => voted⟩) ?_ ?_ ?_
  · intro term candidate found
    exact absurd rfl (quiet _ found)
  · intro envelope found
    obtain ⟨source, vote, leads⟩ := quiet _ found
    exact ⟨source, fun granted => absurd granted vote, leads⟩
  · intro next same
    obtain ⟨id, peers, term, voted⟩ := nodes next same
    exact ⟨id, peers, term, voted.mono _⟩

variable {discipline : Discipline σ} {node next : Node} {input : Input} {act : Act}
  (up : (cluster.processes member).node = some node)
include up

omit inside in
/-- Single messages other than votes. -/
theorem quiet_send {message : Message} (plain : message ≠ .campaignResponse true)
    (leads : message.fromLeader = true → ∃ leader, node.role = .leader leader) :
    ∀ effect ∈ [Effect.send ⟨node.id, target, node.term, message⟩],
      effect.Quiet config cluster.history member := by
  obtain ⟨_, id, _, _, voted⟩ := elects.node up
  intro effect found
  rw [List.mem_singleton.mp found]
  refine ⟨id, plain, ?_⟩
  intro announced
  obtain ⟨leader, role⟩ := leads announced
  rw [role] at voted
  exact voted.2.2

omit inside [State σ] in
/-- A candidate with a quorum of votes is elected. -/
theorem elected_of_votes {candidate : Candidate} (role : node.role = .candidate candidate)
    (won : candidate.votes.card.toUInt8 ≥ quorumSize node.clusterSize) :
    Elected config cluster.history node.term member := by
  obtain ⟨inside, _, peers, _, voted⟩ := elects.node up
  rw [role] at voted
  obtain ⟨_, _, _, ballots⟩ := voted
  exact ⟨candidate.votes, config.majority_of_votes inside peers
    (fun voter counted => (elects.ballot (ballots voter counted)).1) won, ballots⟩

omit inside in
theorem quiet_lead {candidate : Candidate} (role : node.role = .candidate candidate)
    (won : candidate.votes.card.toUInt8 ≥ quorumSize node.clusterSize) {peers : List NodeID}
    {commitIndex commitTerm readSeq : Nat} {write : Log.Write} (entry : write.key ≠ .termVote) :
    ∀ effect ∈ peers.map (fun peer => Effect.send ⟨node.id, peer, node.term,
        .heartbeat commitIndex commitTerm readSeq⟩) ++ [.write write],
      effect.Quiet config cluster.history member := by
  intro effect found
  rcases List.mem_append.mp found with beat | written
  · obtain ⟨peer, _, rfl⟩ := List.mem_map.mp beat
    exact ⟨(elects.node up).2.1, by simp, fun _ => elects.elected_of_votes up role won⟩
  · rw [List.mem_singleton.mp written]
    exact entry

omit inside in
theorem quiet_accept {log result : Log} {entries : List Entry} {writes : List Log.Write}
    {last : Nat} {lastIndex lastTerm : Nat}
    (spliced : (log.splice entries).run (cluster.processes member).disk.engine =
      ⟨writes, .ok (result, last)⟩) :
    ∀ effect ∈ writes.map Effect.write ++ [.send ⟨node.id, target, node.term,
        .appendResponse false lastIndex lastTerm⟩],
      effect.Quiet config cluster.history member := by
  intro effect found
  rcases List.mem_append.mp found with write | sent
  · obtain ⟨change, written, rfl⟩ := List.mem_map.mp write
    rcases Log.splice_spec (cluster.processes member).disk.engine log entries with
      ⟨fault, failed⟩ | ⟨others, _, ran, entry, _⟩
    · cases failed.symm.trans spliced
    · cases ran.symm.trans spliced
      obtain ⟨index, same⟩ := entry change written
      intro vote
      cases same.symm.trans vote
  · exact elects.quiet_send up (by simp) (by simp [Message.fromLeader]) _ sent

omit inside in
/-- An effect that concerns no election, and the response to a client. -/
theorem quiet_answer {first : Effect} {request : RequestID} {response : Except Error Response}
    (quiet : first.Quiet config cluster.history member) :
    ∀ effect ∈ [first, .send ⟨node.id, target, node.term, .clientResponse request response⟩],
      effect.Quiet config cluster.history member := by
  intro effect found
  rcases List.mem_cons.mp found with rfl | sent
  · exact quiet
  · exact elects.quiet_send up (by simp) (by simp [Message.fromLeader]) _ sent

/-- Every move keeps the invariant. -/
theorem move (acting : Cluster.Acting discipline cluster member input)
    (moved : Move input node (cluster.processes member).disk act effects next) :
    Elects config (cluster.record member effects (some next)) := by
  obtain ⟨_, id, peers, term, voted⟩ := elects.node up
  have quietly {effects : List Effect} {next : Node}
      (quiet : ∀ effect ∈ effects, effect.Quiet config cluster.history member)
      (same : next.id = node.id ∧ next.peers = node.peers ∧ next.term = node.term)
      (voted : next.role.Voted config cluster.history member node.term
        (cluster.processes member).disk.termVote.2) :
      Elects config (cluster.record member effects (some next)) := by
    refine elects.record_quiet inside quiet ?_
    intro other found
    cases found
    rw [same.1, same.2.1, same.2.2]
    exact ⟨id, peers, term, voted⟩
  have silent : ∀ effect ∈ ([] : List Effect), effect.Quiet config cluster.history member :=
    fun effect found => absurd found List.not_mem_nil
  have unchanged : node.id = node.id ∧ node.peers = node.peers ∧ node.term = node.term :=
    ⟨rfl, rfl, rfl⟩
  have stays {leader other : Leader} (role : node.role = .leader leader) :
      (Role.leader other).Voted config cluster.history member node.term
        (cluster.processes member).disk.termVote.2 := by
    rw [role] at voted
    exact voted
  have follows {follower other : Follower} (role : node.role = .follower follower)
      (vote : other.votedFor = follower.votedFor) :
      (Role.follower other).Voted config cluster.history member node.term
        (cluster.processes member).disk.termVote.2 := by
    rw [role] at voted
    exact vote.trans voted
  cases moved with
  | relay acting received current role | discard role | forward acting asked own role =>
    exact quietly (elects.quiet_send up (by simp) (by simp [Message.fromLeader]))
      ⟨rfl, rfl, rfl⟩ (follows role rfl)
  | decline | solicit | refuse | report | respond | agree | reject | abort =>
    exact quietly (elects.quiet_send up (by simp) (by simp [Message.fromLeader])) unchanged voted
  | @advance msg draw acting later drawn =>
    refine elects.record inside (Disk.termVote_set _ _ _) (.inl (by rw [← term]; exact later))
      ?_ ?_ ?_
    · intro other candidate found
      cases List.mem_singleton.mp found
    · intro envelope found
      cases List.mem_singleton.mp found
    · intro other found
      cases found
      exact ⟨id, peers, rfl, rfl⟩
  | apply pending =>
    refine quietly ?_ unchanged voted
    intro effect found
    rw [List.mem_singleton.mp found]
    trivial
  | fulfill role | read role =>
    exact quietly (elects.quiet_answer up trivial) ⟨rfl, rfl, rfl⟩ (stays role)
  | idle idles => exact quietly silent ⟨rfl, rfl, rfl⟩ (idles.voted voted)
  | follow acting leads current role leaderless drawn =>
    exact quietly silent ⟨rfl, rfl, rfl⟩ (follows role rfl)
  | concede acting leads current role drawn =>
    refine quietly silent ⟨rfl, rfl, rfl⟩ ?_
    rw [role] at voted
    rw [id]
    exact voted.1.symm
  | stand ready drawn =>
    refine elects.record inside (Disk.termVote_set _ _ _)
      (.inl (by rw [← term]; exact Nat.lt_succ_self _)) ?_ ?_ ?_
    · intro other candidate found
      cases List.mem_singleton.mp found
      exact ⟨rfl, rfl⟩
    · intro envelope found
      cases List.mem_singleton.mp found
    · intro other found
      cases found
      refine ⟨id, peers, rfl, congrArg some id, Nat.succ_ne_zero _, ?_, ?_⟩
      · rw [id]
        exact Finset.mem_insert_self _ _
      · intro voter counted
        rw [insert_empty_eq, Finset.mem_singleton] at counted
        refine List.mem_append_right _ ?_
        rw [counted, id]
        exact List.mem_singleton_self _
  | @grant msg follower lastIndex lastTerm _ asked current role free recent =>
    rw [role] at voted
    refine elects.record inside (Disk.termVote_set _ _ _) (.inr ⟨term.symm, ?_⟩) ?_ ?_ ?_
    · intro candidate known
      rw [free candidate (Eq.trans voted known)]
    · intro other candidate found
      rcases List.mem_cons.mp found with sent | written
      · cases sent
      · cases List.mem_singleton.mp written
        exact ⟨rfl, rfl⟩
    · intro envelope found
      rcases List.mem_cons.mp found with sent | written
      · cases sent
        exact ⟨id, fun _ => List.mem_cons_of_mem _ (List.mem_singleton_self _),
          by simp [Message.fromLeader]⟩
      · cases List.mem_singleton.mp written
    · intro other found
      cases found
      exact ⟨id, peers, rfl, rfl⟩
  | @poll msg candidate same granted current role =>
    subst same
    obtain ⟨sender, sent⟩ := acting.mem_history (by simp [granted])
    obtain ⟨source, target, sentTerm, message⟩ := msg
    obtain rfl : source = sender := (elects.sender sent).1
    obtain rfl : target = member := acting.1
    dsimp only at granted current
    subst granted current
    have ballot := elects.granted sent
    refine quietly silent ⟨rfl, rfl, rfl⟩ ?_
    rw [role] at voted
    refine ⟨voted.1, voted.2.1, Finset.mem_insert_of_mem voted.2.2.1, ?_⟩
    intro voter counted
    rcases Finset.mem_insert.mp counted with rfl | before
    · exact ballot
    · exact voted.2.2.2 voter before
  | lead role won =>
    refine quietly (elects.quiet_lead up role won (by simp)) ⟨rfl, rfl, rfl⟩ ?_
    have elected := elects.elected_of_votes up role won
    rw [role] at voted
    exact ⟨voted.1, voted.2.1, elected⟩
  | beat role | replicate role =>
    exact quietly (elects.quiet_send up (by simp) fun _ => ⟨_, role⟩) unchanged voted
  | propose acting asked current role =>
    refine quietly ?_ ⟨rfl, rfl, rfl⟩ (stays role)
    intro effect found
    rw [List.mem_singleton.mp found]
    exact fun same => by cases same
  | confirm acting confirmed current role | acknowledge acting accepted current role
  | probe acting rejected current role =>
    exact quietly silent ⟨rfl, rfl, rfl⟩ (stays role)
  | decide | commit =>
    refine quietly ?_ ⟨rfl, rfl, rfl⟩ voted
    intro effect found
    rw [List.mem_singleton.mp found]
    exact fun same => by cases same
  | forsake role | forsakeRead role =>
    exact quietly (elects.quiet_send up (by simp) (by simp [Message.fromLeader]))
      ⟨rfl, rfl, rfl⟩ (stays role)
  | enqueue acting asked current role =>
    refine quietly ?_ ⟨rfl, rfl, rfl⟩ (stays role)
    intro effect found
    rw [List.mem_singleton.mp found]
    trivial
  | accept acting received current role follows base some spliced =>
    exact quietly (elects.quiet_accept up spliced) ⟨rfl, rfl, rfl⟩ voted

omit inside in
/-- What a member did of a move when it crashes is quiet, unless it just sent a vote. -/
theorem quiet_part {part rest : List Effect}
    (moved : Move input node (cluster.processes member).disk act (part ++ rest) next)
    (left : rest ≠ [])
    (unsent : ∀ effect, part.getLast? = some effect → effect.isVote = false) :
    ∀ effect ∈ part, effect.Quiet config cluster.history member := by
  have remains := List.length_pos_iff.mpr left
  generalize split : part ++ rest = effects at moved
  have within : ∀ effect ∈ part, effect ∈ effects := fun effect found =>
    split ▸ List.mem_append_left rest found
  have length := congrArg List.length split
  rw [List.length_append] at length
  cases moved with
  | lead role won =>
    exact fun effect found => elects.quiet_lead up role won (by simp) effect (within effect found)
  | fulfill | read =>
    exact fun effect found => elects.quiet_answer up (by trivial) effect (within effect found)
  | accept acting received current role follows base some spliced =>
    exact fun effect found => elects.quiet_accept up spliced effect (within effect found)
  | grant acting asked current role free recent =>
    -- The only part that is neither empty nor whole is the vote itself.
    rcases part with _ | ⟨first, more⟩
    · simp
    · obtain ⟨rfl, tail⟩ := List.cons.inj split
      obtain rfl : more = [] := by
        refine List.eq_nil_of_length_eq_zero ?_
        simp only [List.length_cons, List.length_nil] at length
        omega
      exact absurd (unsent _ rfl) (by simp [Effect.isVote])
  | _ =>
    have empty : part = [] := by
      refine List.eq_nil_of_length_eq_zero ?_
      simp only [List.length_cons, List.length_nil] at length
      omega
    simp [empty]

omit inside up in
/-- Every turn keeps the invariant. -/
theorem turn {next : Cluster σ} (taken : Cluster.Turn config discipline cluster member act next) :
    Elects config next := by
  cases taken with
  | @boot member log draw inside down opened drawn =>
    refine elects.record_quiet inside (by simp) ?_
    intro other found
    cases found
    exact ⟨rfl, rfl, rfl, rfl⟩
  | move inside up acting moved => exact elects.move inside up acting moved
  | crash inside stops => exact elects.record_quiet inside (by simp) (by simp)
  | tear inside up acting torn moved left unsent =>
    exact elects.record_quiet inside (elects.quiet_part up moved left unsent) (by simp)
  | seek forward =>
    exact ⟨elects.node, elects.sender, elects.ballot, elects.unique, elects.granted,
      elects.leads⟩

end Elects

namespace Cluster

variable {config : Config} {discipline : Discipline σ} {cluster : Cluster σ}

theorem elects_initial (config : Config) : Elects config (initial : Cluster σ) := by
  refine ⟨?_, ?_, ?_, ?_, ?_, ?_⟩ <;> simp [initial, Ballot]

theorem elects_of_turns (turns : Turns config discipline initial cluster) :
    Elects config cluster := by
  induction turns with
  | refl => exact elects_initial config
  | tail _ taken ih =>
    obtain ⟨member, act, taken⟩ := taken
    exact ih.turn taken

/-- The history only grows. -/
theorem history_prefix_of_turns {start last : Cluster σ}
    (turns : Turns config discipline start last) : start.history <+: last.history := by
  induction turns with
  | refl => exact List.prefix_rfl
  | tail _ taken ih =>
    refine ih.trans ?_
    obtain ⟨member, act, taken⟩ := taken
    cases taken with
    | seek => exact List.prefix_rfl
    | _ => exact List.prefix_append _ _

/-- The term a member is the leader of. -/
def leaderTerm (cluster : Cluster σ) (member : NodeID) : Option Nat :=
  match (cluster.processes member).node with
  | some ⟨_, _, term, _, .leader _⟩ => some term
  | _ => none

omit [State σ] in
theorem leaderTerm_eq_some :
    cluster.leaderTerm member = some term ↔ ∃ node leader,
      (cluster.processes member).node = some node ∧ node.role = .leader leader ∧
        node.term = term := by
  unfold leaderTerm
  rcases (cluster.processes member).node with _ | ⟨id, peers, current, log, role⟩
  · simp
  · cases role <;> simp

omit [State σ] in
theorem elected_of_leaderTerm (elects : Elects config cluster)
    (leads : cluster.leaderTerm member = some term) :
    Elected config cluster.history term member := by
  obtain ⟨node, leader, up, role, rfl⟩ := leaderTerm_eq_some.mp leads
  have voted := (elects.node up).2.2.2.2
  rw [role] at voted
  exact voted.2.2

/-- Along turns, a term never has two leaders. -/
theorem leader_unique_of_turns {early late : Cluster σ}
    (before : Turns config discipline initial early) (after : Turns config discipline early late)
    (leads : early.leaderTerm first = some term) (leadsLate : late.leaderTerm second = some term) :
    first = second := by
  have elects := elects_of_turns (before.trans after)
  obtain ⟨more, split⟩ := history_prefix_of_turns after
  have elected := (elected_of_leaderTerm (elects_of_turns before) leads).mono more
  rw [split] at elected
  exact elects.leader_unique elected (elected_of_leaderTerm elects leadsLate)

end Cluster

end Radb.Raft
