import Radb.Raft.Confirmation
import Radb.Raft.History
import Radb.Raft.StateMachineSafety

/-! # Linearizable reads

A leader executes a read once a quorum confirmed that it still led its term after it received
the read. Whatever an earlier leader acknowledged is then in its log, but the leader does not
wait until it has applied it. If it executes reads only once everything of earlier terms in
its log is applied, a read sees every write that was acknowledged before.
-/

namespace Radb.Raft

open Foundation Foundation.Program Foundation.Consensus Log

variable {σ : Type} [State σ]
  {envelope : Envelope} {entry : Entry} {other : NodeID}
  {term position : Nat} {read : Read} {member : NodeID}
  {result : Except Error Bytes} {sender : NodeID} {voters : Finset NodeID} {label : Label}
  {count : Nat} {items : List Item} {config : Config}

/-- A leader applied an entry and later sent the result of the write as its response. -/
def WriteAcked (config : Config) (history : List (NodeID × Effect)) (entry : Entry) : Prop :=
  ∃ (applied acked term : Nat) (leader target : NodeID) (id : RequestID) (result : Bytes),
    applied < acked ∧
    history[applied]? = some (leader, Effect.apply entry (.ok result)) ∧
    history[acked]? = some
      (leader, Effect.send ⟨leader, target, term, .clientResponse id (.ok (.write result))⟩) ∧
    Elected config history term leader

/-- The execution of a read. -/
def Effect.isRead : Effect → Bool
  | .read _ _ => true
  | _ => false

/-- A running member has applied every entry of an earlier term in its log. -/
def Cluster.appliedEarlierTerms (cluster : Cluster σ) (member : NodeID) : Bool :=
  (cluster.processes member).node.any fun node =>
    (List.range' 1 node.log.lastIndex).all fun index =>
      ((cluster.processes member).disk.entryAt index).all fun item =>
        node.term ≤ item.1 || index ≤ (cluster.processes member).disk.appliedIndex

/-- Members with peers execute reads only once they applied the entries of earlier terms. -/
def Label.readsCaughtUp (config : Config) (cluster : Cluster σ) (label : Label) : Bool :=
  (cluster.step config label).all fun next =>
    (next.history.drop cluster.history.length).all fun record =>
      !record.2.isRead || (config.peers record.1).isEmpty || cluster.appliedEarlierTerms record.1

section Moves

variable {input : Input} {node next : Node} {disk : Disk σ} {act : Act} {effects : List Effect}
  (moved : Move input node disk act effects next)
include moved

theorem Move.term_of_send (sent : Effect.send envelope ∈ effects) :
    envelope.term = node.term := by
  cases moved with
  | lead role won =>
    simp only [List.mem_append, List.mem_map, Effect.send.injEq, List.mem_singleton,
      reduceCtorEq, or_false] at sent
    obtain ⟨peer, _, rfl⟩ := sent
    rfl
  | accept acting received current role follows base some spliced =>
    simp only [List.mem_append, List.mem_map, reduceCtorEq, and_false, exists_false,
      List.mem_singleton, Effect.send.injEq, false_or] at sent
    rw [sent]
  | _ =>
    simp only [List.mem_cons, List.not_mem_nil, reduceCtorEq, Effect.send.injEq, or_false,
      false_or] at sent
    try rw [sent]

/-- An applied entry was the next one to apply. -/
theorem Move.pending_of_apply (applied : Effect.apply entry result ∈ effects) :
    disk.Pending node.log.commitIndex entry := by
  cases moved with
  | apply pending =>
    cases List.mem_singleton.mp applied
    exact pending
  | fulfill role pending tracked regular =>
    rcases List.mem_cons.mp applied with same | sent
    · cases same
      exact pending
    · cases List.mem_singleton.mp sent
  | _ => simp at applied

/-- A leader gives a read the next sequence number. -/
theorem Move.of_queue (queued : Effect.queue term read ∈ effects) :
    effects = [.queue term read] ∧ term = node.term ∧
      ∃ leader, node.role = .leader leader ∧ read.seq = leader.readSeq + 1 := by
  cases moved with
  | enqueue acting asked current role =>
    cases List.mem_singleton.mp queued
    exact ⟨rfl, rfl, _, role, rfl⟩
  | _ => simp at queued

/-- A leader executes a read whose sequence number a quorum confirmed. -/
theorem Move.of_read (executed : effects[position]? = some (.read term read)) :
    position = 0 ∧ term = node.term ∧ ∃ leader readSeq, node.role = .leader leader ∧
      IsQuorumValue leader.readSeqs readSeq ∧ read.seq ≤ readSeq := by
  have found := List.mem_of_getElem? executed
  cases moved with
  | read role front quorum ready =>
    match position with
    | 0 =>
      cases executed
      exact ⟨rfl, rfl, _, _, role, quorum, ready⟩
    | 1 => cases executed
    | _ + 2 => cases executed
  | _ => simp at found

end Moves

/-- The cluster replicates the agreement's log, and leaders confirm reads. -/
structure Serves (config : Config) (cluster : Cluster σ) (s : Agreement) : Prop where
  replicates : Replicates config cluster s
  confirms : Confirms cluster

namespace Serves

variable {config : Config} {cluster last : Cluster σ} {s : Agreement}

theorem initial (config : Config) : Serves config (Cluster.initial : Cluster σ) State.initial :=
  ⟨Replicates.initial config, Confirms.initial⟩

theorem turns {discipline : Discipline σ} (ordered : discipline.ordered)
    (whole : ¬ discipline.torn) (serves : Serves config cluster s)
    (turns : Cluster.Turns config discipline cluster last) :
    ∃ next, Serves config last next ∧ Grows s next := by
  induction turns with
  | refl => exact ⟨s, serves, Grows.refl s⟩
  | tail _ taken ih =>
    obtain ⟨mid, ⟨replicates, confirms⟩, grows⟩ := ih
    obtain ⟨member, act, taken⟩ := taken
    obtain ⟨enabled, after⟩ := replicates.turn ordered whole taken
    exact ⟨_, ⟨after, confirms.turn replicates.mirror whole taken enabled⟩,
      grows.trans (Act.frame replicates.mirror.sound enabled).toGrows⟩

theorem term_le_of_sent (serves : Serves config cluster s)
    (turns : Cluster.Turns config .fifo cluster last) (new : cluster.history.length ≤ position)
    (sent : last.history[position]? = some (sender, .send envelope)) :
    s.term sender ≤ envelope.term := by
  obtain ⟨before, member, act, after, first, taken, _, bound, found⟩ :=
    Cluster.exists_turn turns new sent
  obtain ⟨rfl, node, next, input, effects, up, _, moved, performed⟩ := taken.performed id bound found
  obtain ⟨mid, served, grows⟩ := serves.turns trivial id first
  have term := served.replicates.mirror.term_eq up
  rw [moved.term_of_send (List.mem_of_getElem? performed), ← term]
  exact grows.term sender

/-- What a leader acknowledged is settled up to the term of the acknowledgement. -/
theorem settled_of_acked (turns : Cluster.Turns config .fifo .initial cluster)
    {applied acked : Nat} (order : applied < acked)
    (passed : cluster.history[applied]? = some (sender, .apply entry result))
    (sent : cluster.history[acked]? = some (sender, .send envelope)) :
    ∃ s, Serves config cluster s ∧ ∃ items count, Settled s envelope.term items count ∧
      entry.index ≤ count ∧ itemAt items entry.index = some (entry.term, entry.command) ∧
      entry.term ≤ envelope.term := by
  obtain ⟨before, member, act, after, first, taken, rest, bound, found⟩ :=
    Cluster.exists_turn turns (Nat.zero_le _) passed
  obtain ⟨rfl, node, next, input, effects, up, _, moved, performed⟩ := taken.performed id bound found
  obtain ⟨s, served, _⟩ := (Serves.initial config).turns trivial id first
  obtain ⟨late, servedLate, grows⟩ := served.turns trivial id (.head ⟨_, _, taken⟩ rest)
  -- The response comes after the state in which the entry was applied.
  have later : s.term sender ≤ envelope.term :=
    served.term_le_of_sent (.head ⟨_, _, taken⟩ rest) (bound.trans order.le) sent
  obtain ⟨mirror, commits, _, _⟩ := served.replicates
  have pending := moved.pending_of_apply (List.mem_of_getElem? performed)
  have cached := congrArg Prod.fst (commits.cached up)
  dsimp only at cached
  rw [cached] at pending
  obtain ⟨_, stored⟩ := Applies.pending mirror commits pending
  refine ⟨late, servedLate, s.log sender, _, ?_, pending.committed, stored, ?_⟩
  · exact (commits.position sender).settled.mono commits.safe grows later
  · have bounded : termAt (s.log sender) entry.index ≤ s.term sender :=
      termAt_le (fun item found => mirror.sound.log_le found) entry.index
    rw [termAt_eq_of_itemAt stored] at bounded
    exact bounded.trans later

theorem eq_of_majority {members : Finset NodeID} (majority : Majority members voters)
    (alone : ∀ voter ∈ voters, voter = member) (inside : member ∈ members)
    (otherInside : other ∈ members) : other = member := by
  have small : voters.card ≤ 1 := Finset.card_le_one.mpr fun first left second right =>
    (alone first left).trans (alone second right).symm
  have size := majority.2
  exact Finset.card_le_one.mp (by omega) other otherInside member inside

section Confirmed

variable {member : NodeID} {node nodeLate : Node} {leader leaderLate : Leader} {readSeq : Nat}
  (serves : Serves config cluster s)
  (turns : Cluster.Turns config .fifo cluster last)
  (up : (cluster.processes member).node = some node) (role : node.role = .leader leader)
  (upLate : (last.processes member).node = some nodeLate)
  (roleLate : nodeLate.role = .leader leaderLate) (current : nodeLate.term = node.term)
  (quorum : IsQuorumValue leaderLate.readSeqs readSeq) (later : leader.readSeq < readSeq)
include serves turns up role upLate roleLate current quorum later

/-- A majority confirmed a new sequence number after it was given, in the leader's term. -/
theorem exists_confirmation : ∃ voters, Majority config.nodes voters ∧ ∀ voter ∈ voters,
    voter = member ∨ ∃ position response, cluster.history.length ≤ position ∧
      last.history[position]? = some (voter, .send response) ∧ response.term = node.term := by
  obtain ⟨next, served, _⟩ := serves.turns trivial id turns
  have agrees := served.replicates.mirror.role upLate
  rw [roleLate] at agrees
  obtain ⟨_, _, _, peers, _⟩ := agrees
  obtain ⟨voters, majority, reached⟩ := Leader.majority_of_isQuorumValue
    (served.replicates.mirror.elects.node upLate).1 peers quorum
  refine ⟨voters, majority, ?_⟩
  intro voter inside
  rcases reached voter inside with ⟨own, _⟩ | ⟨progress, known, above⟩
  · exact .inl own
  · right
    rcases served.confirms.progress upLate roleLate known with none | ⟨lastIndex, lastTerm, sent⟩
    · omega
    · obtain ⟨position, found⟩ := List.mem_iff_getElem?.mp sent
      refine ⟨position, _, ?_, found, current⟩
      -- A response from before would carry a number that the leader had not given yet.
      by_contra old
      obtain ⟨rest, split⟩ := Cluster.history_prefix_of_turns turns
      rw [← split, List.getElem?_append_left (Nat.not_le.mp old)] at found
      have bounded := serves.confirms.seqs up role (List.mem_of_getElem? found) current rfl
      omega

/-- No member of that majority was in a later term before. -/
theorem exists_voters_term_le : ∃ voters, Majority config.nodes voters ∧ ∀ voter ∈ voters,
    s.term voter ≤ node.term := by
  obtain ⟨voters, majority, confirmed⟩ := serves.exists_confirmation turns up role upLate roleLate
    current quorum later
  refine ⟨voters, majority, ?_⟩
  intro voter inside
  rcases confirmed voter inside with rfl | ⟨position, response, new, sent, term⟩
  · exact (serves.replicates.mirror.term_eq up).le
  · rw [← term]
    exact serves.term_le_of_sent turns new sent

/-- If the leader confirmed the number within one of its steps, it has no peers. -/
theorem eq_of_same_step {before after : Cluster σ} (taken : before.step config label = some after)
    (started : before.history.length ≤ cluster.history.length)
    (within : last.history <+: after.history) (own : member = label.member)
    (inside : other ∈ config.nodes) : other = member := by
  obtain ⟨voters, majority, confirmed⟩ := serves.exists_confirmation turns up role upLate roleLate
    current quorum later
  refine eq_of_majority majority ?_ (serves.replicates.mirror.elects.node up).1 inside
  intro voter votes
  rcases confirmed voter votes with same | ⟨position, response, new, sent, _⟩
  · exact same
  · obtain ⟨more, split⟩ := within
    have found : after.history[position]? = some (voter, .send response) := by
      rw [← split, List.getElem?_append_left (List.getElem?_eq_some_iff.mp sent).1, sent]
    exact (Cluster.sender_of_step taken (started.trans new) found).trans own.symm

end Confirmed

section

variable (serves : Serves config cluster s)

include serves

theorem elected_le {bound : Nat} {candidate : NodeID}
    (elected : Elected config cluster.history term candidate)
    (majority : Majority config.nodes voters) (within : ∀ voter ∈ voters, s.term voter ≤ bound) :
    term ≤ bound := by
  obtain ⟨quorum, elects, ballots⟩ := elected
  obtain ⟨voter, voted, confirmed⟩ := elects.meet majority
  have cast := (serves.replicates.mirror.elects.ballot (ballots voter voted)).2.1
  rw [← serves.replicates.mirror.agrees.term] at cast
  exact cast.trans (within voter confirmed)

theorem exists_apply (settled : Settled s term items count) (within : entry.index ≤ count)
    (stored : itemAt items entry.index = some (entry.term, entry.command))
    (applied : entry.index ∈ appliedIndexes cluster.history member) :
    ∃ result, (member, Effect.apply entry result) ∈ cluster.history := by
  obtain ⟨record, found, shape⟩ := List.mem_filterMap.mp applied
  obtain ⟨sender, effect⟩ := record
  obtain ⟨rfl, counted⟩ := Option.ite_none_right_eq_some.mp shape
  obtain ⟨other, result, rfl, same⟩ := Effect.exists_of_applied counted
  obtain ⟨otherTerm, otherItems, otherCount, otherSettled, otherWithin, otherStored⟩ :=
    serves.replicates.applies.settled found
  obtain ⟨index, entryTerm, command⟩ := entry
  obtain ⟨otherIndex, otherEntryTerm, otherCommand⟩ := other
  dsimp only at same within stored otherWithin otherStored
  subst same
  cases otherIndex with
  | zero => cases stored
  | succ position =>
    cases settled.unique serves.replicates.commits.safe otherSettled within otherWithin stored
      otherStored
    exact ⟨result, found⟩

/-- A leader that applied every entry of an earlier term in its log has applied what was
settled in an earlier term. -/
theorem applied_of_settled (leads : s.leader (s.term member) = some member)
    (earlier : term < s.term member) (settled : Settled s term items count)
    (within : entry.index ≤ count)
    (stored : itemAt items entry.index = some (entry.term, entry.command))
    (old : entry.term ≤ term) (caughtUp : cluster.appliedEarlierTerms member = true) :
    entry.index ∈ appliedIndexes cluster.history member ∧
      ∃ result, (member, Effect.apply entry result) ∈ cluster.history := by
  obtain ⟨mirror, commits, applies, _⟩ := serves.replicates
  have positive := ((itemAt_isSome _ _).mp (Option.isSome_of_eq_some stored)).1
  -- The leader's own log has the entry.
  have inLog : itemAt (s.log member) entry.index = some (entry.term, entry.command) := by
    obtain ⟨_, same⟩ := (settled.mono commits.safe (Grows.refl s) earlier.le).take_ledger
      commits.safe (by rw [leads]; simp)
    have read := congrArg (fun items => itemAt items entry.index) same
    simp only [itemAt_take, within, ↓reduceIte, stored] at read
    rw [mirror.sound.leader_log leads rfl, ← read]
  have reached : entry.index ≤ (cluster.processes member).disk.appliedIndex := by
    obtain ⟨node, up, all⟩ : ∃ node, (cluster.processes member).node = some node ∧ _ := by
      unfold Cluster.appliedEarlierTerms at caughtUp
      cases up : (cluster.processes member).node with
      | none => simp [up] at caughtUp
      | some node =>
        rw [up, Option.any_some] at caughtUp
        exact ⟨node, rfl, caughtUp⟩
    have last := ((itemAt_isSome _ _).mp (Option.isSome_of_eq_some inLog)).2
    rw [← (mirror.caches up).lastIndex] at last
    have here := List.all_eq_true.mp all entry.index
      (List.mem_range'_1.mpr ⟨positive, by omega⟩)
    rw [mirror.entryAt, inLog, Option.all_some, Bool.or_eq_true, decide_eq_true_eq,
      decide_eq_true_eq, ← mirror.term_eq up] at here
    omega
  have applied : entry.index ∈ appliedIndexes cluster.history member := by
    rw [applies.indexes, List.mem_range'_1]
    exact ⟨positive, by omega⟩
  exact ⟨applied, serves.exists_apply settled within stored applied⟩

/-- What was settled in an earlier term before is applied by a leader that stays in its term
and has applied the entries of earlier terms. -/
theorem applied_in_term {mid : Cluster σ} (first : Cluster.Turns config .fifo cluster mid)
    (second : Cluster.Turns config .fifo mid last)
    (upLate : (last.processes member).node = some node) (current : s.term member = node.term)
    (leads : s.leader node.term = some member) (earlier : term < node.term)
    (settled : ∃ items count, Settled s term items count ∧ entry.index ≤ count ∧
      itemAt items entry.index = some (entry.term, entry.command) ∧ entry.term ≤ term)
    (caughtUp : mid.appliedEarlierTerms member = true) :
    entry.index ∈ appliedIndexes mid.history member ∧
      ∃ result, (member, Effect.apply entry result) ∈ mid.history := by
  obtain ⟨items, count, settled, within, stored, old⟩ := settled
  obtain ⟨next, served, grows⟩ := serves.turns trivial id first
  obtain ⟨late, servedLate, growsLate⟩ := served.turns trivial id second
  have still : next.term member = node.term := by
    have after := growsLate.term member
    have start := grows.term member
    rw [servedLate.replicates.mirror.term_eq upLate] at after
    omega
  rw [← still] at earlier leads
  exact served.applied_of_settled (grows.leader leads) earlier
    (settled.mono serves.replicates.commits.safe grows (Nat.le_refl _)) within stored old caughtUp

theorem eq_of_peers_eq_nil (up : (cluster.processes member).node = some node)
    (alone : config.peers member = []) (inside : other ∈ config.nodes) : other = member := by
  have outside := (config.mem_peers member (serves.replicates.mirror.elects.node up).1 other).not.mp
    (by simp [alone])
  by_contra different
  exact outside ⟨inside, different⟩

end

/-- An entry that was acknowledged before a read was received was applied by the leader that
executes the read, or was settled in an earlier term. -/
theorem settled_before_read (turns : Cluster.Turns config .fifo .initial cluster)
    (later : Cluster.Turns config .fifo cluster last) {nodeLate : Node}
    {leader leaderLate : Leader} {readSeq : Nat}
    (up : (cluster.processes member).node = some node) (role : node.role = .leader leader)
    (upLate : (last.processes member).node = some nodeLate)
    (roleLate : nodeLate.role = .leader leaderLate) (current : nodeLate.term = node.term)
    (quorum : IsQuorumValue leaderLate.readSeqs readSeq) (new : leader.readSeq < readSeq)
    (acknowledged : WriteAcked config cluster.history entry) :
    ∃ sender s result, (sender, Effect.apply entry (.ok result)) ∈ cluster.history ∧
      sender ∈ config.nodes ∧ Serves config cluster s ∧ s.term member = node.term ∧
      s.leader node.term = some member ∧ (sender = member ∨ ∃ term < node.term, ∃ items count,
        Settled s term items count ∧ entry.index ≤ count ∧
          itemAt items entry.index = some (entry.term, entry.command) ∧ entry.term ≤ term) := by
  obtain ⟨applied, acked, term, sender, target, id, result, order, passed, sent, elected⟩ :=
    acknowledged
  obtain ⟨s, serves, items, count, settled, within, stored, old⟩ :=
    settled_of_acked turns order passed sent
  obtain ⟨mirror, _, _, _⟩ := serves.replicates
  refine ⟨sender, s, result, List.mem_of_getElem? passed,
    (mirror.elects.sender (List.mem_of_getElem? sent)).2, serves, mirror.term_eq up,
    (mirror.leads up role).1, ?_⟩
  obtain ⟨voters, majority, bounded⟩ := serves.exists_voters_term_le later up role upLate roleLate
    current quorum new
  rcases Nat.lt_or_eq_of_le (serves.elected_le elected majority bounded) with earlier | same
  · exact .inr ⟨term, earlier, items, count, settled, within, stored, old⟩
  · left
    have voted := (mirror.elects.node up).2.2.2.2
    rw [role] at voted
    rw [same] at elected
    exact mirror.elects.leader_unique elected voted.2.2

end Serves

/-- A run over links that lose messages but deliver in sending order, with restarts between
steps. -/
def Cluster.Ordered (config : Config) : Cluster σ → Cluster σ → Prop :=
  Reaches (step config) fun cluster label => label.whole = true ∧ label.inOrder cluster = true

/-- Committed entries stay: what a member has committed, every later leader of no earlier term
than the member's has at the same index, and so has every member that commits that far. -/
theorem leader_completeness (config : Config) {early late : Cluster σ}
    (before : Cluster.Ordered config .initial early) (after : Cluster.Ordered config early late)
    {index : Nat} (positive : 1 ≤ index)
    (committed : index ≤ (early.processes member).disk.commit.1) :
    ∃ item, (early.processes member).disk.entryAt index = some item ∧
      (∀ leading term, late.leaderTerm leading = some term →
        (early.processes member).disk.termVote.1 ≤ term →
          (late.processes leading).disk.entryAt index = some item) ∧
      ∀ other, index ≤ (late.processes other).disk.commit.1 →
        (late.processes other).disk.entryAt index = some item := by
  have turns {start last : Cluster σ} (run : Cluster.Ordered config start last) :=
    Cluster.turns_of_reaches Discipline.stable_fifo (fun _ _ => Discipline.permits_fifo) run
  obtain ⟨s, serves, _⟩ := (Serves.initial config).turns trivial id (turns before)
  obtain ⟨next, ⟨⟨mirrorLate, commitsLate, _, _⟩, _⟩, grows⟩ := serves.turns trivial id (turns after)
  obtain ⟨mirror, commits, _, _⟩ := serves.replicates
  have settled := (commits.position member).settled
  obtain ⟨item, found⟩ := Option.isSome_iff_exists.mp
    ((itemAt_isSome (s.log member) index).mpr ⟨positive, committed.trans settled.1⟩)
  refine ⟨item, (mirror.entryAt member index).trans found, ?_, ?_⟩
  · intro leading term leads later
    obtain ⟨node, leader, up, role, rfl⟩ := Cluster.leaderTerm_eq_some.mp leads
    obtain ⟨elected, ledger, _⟩ := mirrorLate.leads up role
    rw [← mirror.agrees.term] at later
    obtain ⟨_, same⟩ := (settled.mono commits.safe grows later).take_ledger commitsLate.safe
      (by simp [elected])
    have read := congrArg (fun items => itemAt items index) same
    simp only [itemAt_take, committed, ↓reduceIte, found] at read
    rw [mirrorLate.entryAt, ledger, read]
  · intro other reached
    have settledLate := (commitsLate.position other).settled
    obtain ⟨itemLate, foundLate⟩ := Option.isSome_iff_exists.mp
      ((itemAt_isSome (next.log other) index).mpr ⟨positive, reached.trans settledLate.1⟩)
    cases index with
    | zero => cases found
    | succ position =>
      cases (settled.mono commits.safe grows le_rfl).unique commitsLate.safe settledLate committed
        reached found foundLate
      exact (mirrorLate.entryAt other _).trans foundLate

theorem leader_completeness_reelected : ∃ early late : Cluster TestState,
    Cluster.Ordered .three .initial early ∧ Cluster.Ordered .three early late ∧
      late.leaderTerm 2 = some 2 ∧ ∃ item, (early.processes 1).disk.entryAt 2 = some item ∧
        (late.processes 2).disk.entryAt 2 = some item := by
  have passed : (execute (Cluster.step .three)
      (fun cluster label => label.whole && label.inOrder cluster)
      (.initial : Cluster TestState) commitment).map (fun early =>
        decide (((early.processes 1).disk.commit.1 = 2 ∧ (early.processes 1).disk.termVote.1 = 1) ∧
          (execute (Cluster.step .three) (fun cluster label => label.whole && label.inOrder cluster)
            early (Label.ticks 2 10 ++ [.deliver 2 3 0, .deliver 3 2 0])).map
              (fun late => decide (late.leaderTerm 2 = some 2)) = some true)) = some true := by
    decide +kernel
  obtain ⟨early, reached, test⟩ := exists_reaches_of_execute _ passed
  obtain ⟨⟨committed, current⟩, later⟩ := of_decide_eq_true test
  obtain ⟨late, reachedLate, testLate⟩ := exists_reaches_of_execute _ later
  have leads := of_decide_eq_true testLate
  have before := reached.mono fun _ _ allowed => Bool.and_eq_true_iff.mp allowed
  have after := reachedLate.mono fun _ _ allowed => Bool.and_eq_true_iff.mp allowed
  obtain ⟨item, found, led, _⟩ := leader_completeness .three before after (by decide) committed.ge
  exact ⟨early, late, before, after, leads, item, found, led 2 2 leads (by omega)⟩

theorem Label.readsCaughtUp_of_step {cluster next : Cluster σ}
    (allowed : label.readsCaughtUp config cluster = true)
    (taken : cluster.step config label = some next) (new : cluster.history.length ≤ position)
    (executed : next.history[position]? = some (member, .read term read)) :
    config.peers member = [] ∨ cluster.appliedEarlierTerms member = true := by
  rw [Label.readsCaughtUp, taken, Option.all_some, List.all_eq_true] at allowed
  have found : (next.history.drop cluster.history.length)[position - cluster.history.length]? =
      some (member, .read term read) := by
    rw [List.getElem?_drop, Nat.add_sub_of_le new, executed]
  simpa [Effect.isRead] using allowed _ (List.mem_of_getElem? found)

/-- A received read was received by a leader, right after what happened before. -/
theorem Cluster.exists_waiting {start last : Cluster σ} (turns : Turns config .fifo start last)
    (new : start.history.length ≤ position)
    (queued : last.history[position]? = some (member, .queue term read)) :
    ∃ waiting node leader, Turns config .fifo start waiting ∧ Turns config .fifo waiting last ∧
      waiting.history = last.history.take position ∧
      (waiting.processes member).node = some node ∧ node.term = term ∧
      node.role = .leader leader ∧ read.seq = leader.readSeq + 1 := by
  obtain ⟨waiting, _, act, after, toQueue, taken, rest, bound, found⟩ := exists_turn turns new queued
  obtain ⟨rfl, node, _, _, effects, up, _, moved, performed⟩ := taken.performed id bound found
  obtain ⟨rfl, rfl, leader, role, seq⟩ := moved.of_queue (List.mem_of_getElem? performed)
  have later : Turns config .fifo waiting last := .head ⟨_, _, taken⟩ rest
  refine ⟨waiting, node, leader, toQueue, later, ?_, up, rfl, role, seq⟩
  have only := (List.getElem?_eq_some_iff.mp performed).1
  rw [List.length_singleton] at only
  obtain rfl : waiting.history.length = position := by omega
  exact List.prefix_iff_eq_take.mp (history_prefix_of_turns later)

/-- In every run over links that lose messages but deliver in sending order and without
duplication, with restarts between steps, in which a leader with peers executes a read only
once it has applied every entry of an earlier term in its log, a leader that executes a read
has applied every entry whose write a leader acknowledged before the read was received. -/
theorem linearizable_reads (config : Config) {cluster : Cluster σ}
    (reached : Reaches (Cluster.step config)
      (fun cluster label => (label.whole = true ∧ label.inOrder cluster = true) ∧
        label.readsCaughtUp config cluster = true) .initial cluster)
    {received executed term : Nat} {leader : NodeID} {read : Read} {entry : Entry}
    (queued : cluster.history[received]? = some (leader, .queue term read))
    (executes : cluster.history[executed]? = some (leader, .read term read))
    (order : received < executed)
    (acknowledged : WriteAcked config (cluster.history.take received) entry) :
    entry.index ∈ appliedIndexes (cluster.history.take executed) leader ∧
      ∃ result, (leader, Effect.apply entry result) ∈ cluster.history.take executed := by
  have permitted (cluster : Cluster σ) (label : Label)
      (allowed : (label.whole = true ∧ label.inOrder cluster = true) ∧
        label.readsCaughtUp config cluster = true) :
      Discipline.fifo.Permits config cluster label := Discipline.permits_fifo allowed.1
  obtain ⟨before, label, after, run, allowed, taken, part, bound, found⟩ :=
    Cluster.exists_step reached (Nat.zero_le _) executes
  have untilStep := Cluster.turns_of_reaches Discipline.stable_fifo permitted run
  have within := Cluster.turns_of_step Discipline.stable_fifo (permitted _ _ allowed) taken
  -- The turn that executes the read.
  obtain ⟨reading, _, act, afterRead, toRead, readTurn, fromRead, readBound, readFound⟩ :=
    Cluster.exists_turn within bound found
  obtain ⟨rfl, nodeLate, _, _, _, upLate, _, readMove, performedRead⟩ :=
    readTurn.performed id readBound readFound
  obtain ⟨first, rfl, leaderLate, readSeq, roleLate, quorum, ready⟩ := readMove.of_read performedRead
  have inStep := Cluster.history_prefix_of_turns (.head ⟨_, _, readTurn⟩ fromRead)
  have readHere : reading.history = cluster.history.take executed := by
    rw [show executed = reading.history.length by omega]
    exact List.prefix_iff_eq_take.mp (inStep.trans part)
  rw [← readHere]
  have queuedHere : reading.history[received]? = some (leader, .queue nodeLate.term read) := by
    rw [readHere, List.getElem?_take, if_pos order, queued]
  have takenHere : reading.history.take received = cluster.history.take received := by
    rw [readHere, List.take_take, Nat.min_eq_left order.le]
  -- Whatever the leader applied itself is applied.
  have own {result : Bytes} (applied : (leader, Effect.apply entry (.ok result)) ∈
      cluster.history.take received) : entry.index ∈ appliedIndexes reading.history leader ∧
        ∃ result, (leader, Effect.apply entry result) ∈ reading.history := by
    rw [← takenHere] at applied
    have here := List.mem_of_mem_take applied
    refine ⟨List.mem_filterMap.mpr ⟨_, here, ?_⟩, _, here⟩
    rw [if_pos rfl]
    rfl
  by_cases early : received < before.history.length
  · -- The read was received in an earlier step.
    have toRead' := Cluster.history_prefix_of_turns toRead
    have inBefore : before.history[received]? = some (leader, .queue nodeLate.term read) := by
      obtain ⟨rest, split⟩ := toRead'
      rw [← split, List.getElem?_append_left early] at queuedHere
      exact queuedHere
    obtain ⟨waiting, node, leading, toQueue, rest, history, up, same, role, seq⟩ :=
      Cluster.exists_waiting untilStep (Nat.zero_le _) inBefore
    have unchanged : waiting.history = cluster.history.take received := by
      rw [history, ← takenHere]
      obtain ⟨more, split⟩ := toRead'
      rw [← split, List.take_append_of_le_length early.le]
    rw [← unchanged] at acknowledged own
    obtain ⟨sender, s, result, applied, inside, serves, current, leads, settled⟩ :=
      Serves.settled_before_read toQueue (rest.trans toRead) up role upLate roleLate same.symm quorum
        (by omega) acknowledged
    rcases settled with rfl | ⟨earlierTerm, earlier, settled⟩
    · exact own applied
    · rcases Label.readsCaughtUp_of_step allowed.2 taken bound found with alone | caughtUp
      · obtain rfl := serves.eq_of_peers_eq_nil up alone inside
        exact own applied
      · obtain ⟨index, result, here⟩ := serves.applied_in_term rest toRead upLate (same ▸ current)
          (same ▸ leads) (same ▸ earlier) settled caughtUp
        obtain ⟨more, split⟩ := toRead'
        rw [← split, appliedIndexes_append]
        exact ⟨List.mem_append_left _ index, result, List.mem_append_left _ here⟩
  · -- The read was received in the same step, so nobody else has confirmed it.
    obtain ⟨waiting, node, leading, toQueue, rest, history, up, same, role, seq⟩ :=
      Cluster.exists_waiting toRead (Nat.not_lt.mp early) queuedHere
    rw [← takenHere, ← history] at acknowledged own
    have start := untilStep.trans toQueue
    obtain ⟨sender, s, result, applied, inside, serves, _⟩ :=
      Serves.settled_before_read start rest up role upLate roleLate same.symm quorum (by omega)
        acknowledged
    obtain rfl := serves.eq_of_same_step rest up role upLate roleLate same.symm quorum (by omega)
      taken (Cluster.history_prefix_of_turns toQueue).length_le inStep
      (Cluster.sender_of_step taken bound found) inside
    exact own applied

/-- Member 1 leads the first term and acknowledges a write that member 2 has stored, and then
member 2 is elected by member 3. -/
def leaderChange : List Label :=
  [.boot 1, .boot 2, .boot 3] ++ Label.ticks 1 10 ++ [.deliver 1 2 0, .deliver 2 1 0,
    .deliver 1 2 1, .deliver 1 2 2, .deliver 2 1 1, .deliver 2 1 2, .submit 1 (.write [7]),
    .deliver 1 2 3, .deliver 1 2 4, .deliver 2 1 3, .deliver 2 1 4] ++ Label.ticks 2 10 ++
    [.deliver 2 3 0, .deliver 3 2 0]

/-- What the histories of runs that go on from there have in common: the acknowledgement of
the write, and a later read that its leader received and executed. -/
def AckedBeforeRead (history : List (NodeID × Effect)) (received executed : Nat) : Prop :=
  history[24]? = some (1, .apply ⟨2, 1, some [7]⟩ (.ok [7])) ∧
  history[25]? = some (1, .send ⟨1, 1, 1, .clientResponse [] (.ok (.write [7]))⟩) ∧
  (∀ voter ∈ [1, 2], (voter, Effect.write (.set .termVote (1, some 1))) ∈ history.take received) ∧
  history[received]? = some (2, .queue 2 ⟨1, 2, [], [9]⟩) ∧
  history[executed]? = some (2, .read 2 ⟨1, 2, [], [9]⟩)

instance (history : List (NodeID × Effect)) (received executed : Nat) :
    Decidable (AckedBeforeRead history received executed) := by
  unfold AckedBeforeRead
  infer_instance

theorem AckedBeforeRead.writeAcked {history : List (NodeID × Effect)} {received executed : Nat}
    (holds : AckedBeforeRead history received executed) (after : 25 < received) :
    WriteAcked .three (history.take received) ⟨2, 1, some [7]⟩ := by
  obtain ⟨applied, acked, ballots, _⟩ := holds
  refine ⟨24, 25, 1, 1, 1, [], [7], by decide, ?_, ?_, {1, 2}, ⟨by decide, by decide⟩, ?_⟩
  · rw [List.getElem?_take, if_pos (by omega), applied]
  · rw [List.getElem?_take, if_pos after, acked]
  · intro voter found
    exact ballots voter (by simpa using found)

/-- The new leader first commits an entry of its term, and then executes a read. -/
theorem linearizable_reads_caught_up : ∃ cluster : Cluster TestState,
    Reaches (Cluster.step .three)
        (fun cluster label => (label.whole = true ∧ label.inOrder cluster = true) ∧
          label.readsCaughtUp .three cluster = true) .initial cluster ∧
      WriteAcked .three (cluster.history.take 50) ⟨2, 1, some [7]⟩ ∧
      cluster.history[50]? = some (2, .queue 2 ⟨1, 2, [], [9]⟩) ∧
      cluster.history[58]? = some (2, .read 2 ⟨1, 2, [], [9]⟩) ∧
      2 ∈ appliedIndexes (cluster.history.take 58) 2 := by
  have passed : (execute (Cluster.step .three)
      (fun cluster label => decide ((label.whole = true ∧ label.inOrder cluster = true) ∧
        label.readsCaughtUp .three cluster = true)) (.initial : Cluster TestState)
      (leaderChange ++ [.deliver 2 3 1, .deliver 2 3 2, .deliver 3 2 2, .deliver 2 3 3,
        .deliver 3 2 3, .deliver 2 3 4, .deliver 3 2 4, .submit 2 (.read [9]), .deliver 2 3 5,
        .deliver 3 2 5])).map (fun cluster => decide (AckedBeforeRead cluster.history 50 58)) =
          some true := by
    decide +kernel
  obtain ⟨cluster, run, test⟩ := exists_reaches_of_execute _ passed
  have reached := run.mono fun _ _ allowed => of_decide_eq_true allowed
  have holds := of_decide_eq_true test
  have acknowledged := holds.writeAcked (by decide)
  obtain ⟨_, _, _, queued, executes⟩ := holds
  exact ⟨cluster, reached, acknowledged, queued, executes,
    (linearizable_reads .three reached queued executes (by decide) acknowledged).1⟩

/-- A new leader executes a read that it received after a write was acknowledged by the leader
before it, and has not applied the write. -/
theorem stale_read : ∃ cluster : Cluster TestState,
    Reaches (Cluster.step .three)
        (fun cluster label => label.whole = true ∧ label.inOrder cluster = true) .initial cluster ∧
      cluster.history[24]? = some (1, .apply ⟨2, 1, some [7]⟩ (.ok [7])) ∧
      cluster.history[25]? = some
        (1, .send ⟨1, 1, 1, .clientResponse [] (.ok (.write [7]))⟩) ∧
      WriteAcked .three (cluster.history.take 37) ⟨2, 1, some [7]⟩ ∧
      cluster.history[37]? = some (2, .queue 2 ⟨1, 2, [], [9]⟩) ∧
      cluster.history[45]? = some (2, .read 2 ⟨1, 2, [], [9]⟩) ∧
      2 ∉ appliedIndexes (cluster.history.take 45) 2 := by
  have passed : (execute (Cluster.step .three)
      (fun cluster label => decide (label.whole = true ∧ label.inOrder cluster = true))
      (.initial : Cluster TestState)
      (leaderChange ++ [.submit 2 (.read [9]), .deliver 2 3 1, .deliver 2 3 2, .deliver 2 3 3,
        .deliver 3 2 1, .deliver 3 2 2, .deliver 3 2 3])).map (fun cluster =>
          decide (AckedBeforeRead cluster.history 37 45 ∧
            2 ∉ appliedIndexes (cluster.history.take 45) 2)) = some true := by
    decide +kernel
  obtain ⟨cluster, run, test⟩ := exists_reaches_of_execute _ passed
  obtain ⟨holds, unapplied⟩ := of_decide_eq_true test
  have acknowledged := holds.writeAcked (by decide)
  obtain ⟨applied, acked, _, queued, executes⟩ := holds
  exact ⟨cluster, run.mono fun _ _ allowed => of_decide_eq_true allowed, applied, acked,
    acknowledged, queued, executes, unapplied⟩

end Radb.Raft
