import Radb.Raft.Refinement

/-! # Moves mirror the protocol

Every move of a member is an enabled act of the agreement protocol, and the cluster it
leaves agrees with the state the act leads to. The only thing left open is that a node
keeps what it holds when it adopts entries, which is up to the order of deliveries.
-/

namespace Radb.Raft

open Foundation Foundation.Program Foundation.Consensus Log

variable {σ : Type} [State σ]

variable {items : List Item} {index term baseIndex baseTerm : Nat} {s : Agreement} {peer : NodeID}
  {progress : Progress} {effects : List Effect} {follower : Follower} {discipline : Discipline σ}
  {msg : Envelope} {entries : List Entry} {log : Log} {strict : Prop}

variable {new : List Item} {peers : List NodeID} {lastIndex last draw : Nat}
  {writes : List Log.Write} {candidate : Candidate} {command : Option Bytes}

/-- The cluster mirrors a state of the protocol. -/
structure Mirrors (config : Config) (cluster : Cluster σ) (s : Agreement) : Prop where
  elects : Elects config cluster
  sound : Sound config.nodes Prod.fst s
  follows : Follows s
  agrees : Agrees config cluster s

theorem lastStamp_eq_termAt (items : List Item) :
    lastStamp Prod.fst items = termAt items items.length := by
  rcases List.eq_nil_or_concat' items with rfl | ⟨before, item, rfl⟩
  · rfl
  · simp [lastStamp, termAt]

theorem termAt_eq_of_itemAt {item : Item} (found : itemAt items index = some item) :
    termAt items index = item.1 := by
  rw [termAt, found]
  rfl

/-- The term at an index is bounded if all terms are. -/
theorem termAt_le (bounded : ∀ item ∈ items, item.1 ≤ term) (index : Nat) :
    termAt items index ≤ term := by
  cases found : itemAt items index with
  | none =>
    rw [termAt, found]
    exact Nat.zero_le _
  | some item =>
    rw [termAt_eq_of_itemAt found]
    cases index with
    | zero => cases found
    | succ => exact bounded item (List.mem_of_getElem? found)

/-- Two logs with the same term at an index agree up to it. -/
theorem take_eq_of_termAt {first second : List Item} (left : Matching Prod.fst s first)
    (right : Matching Prod.fst s second) (within : index ≤ first.length)
    (withinOther : index ≤ second.length) (same : termAt first index = termAt second index) :
    first.take index = second.take index := by
  cases index with
  | zero => rw [List.take_zero, List.take_zero]
  | succ position =>
    have found : itemAt first (position + 1) = some _ := List.getElem?_eq_getElem within
    have foundOther : itemAt second (position + 1) = some _ :=
      List.getElem?_eq_getElem withinOther
    refine left.take_eq right found foundOther ?_
    rwa [termAt_eq_of_itemAt found, termAt_eq_of_itemAt foundOther] at same

/-- Splicing a part of the ledger behind a common base yields the ledger up to the end of
the part. -/
theorem spliced_eq_take {ledger : List Item} {base : Nat} (left : Matching Prod.fst s items)
    (right : Matching Prod.fst s ledger) (within : base ≤ items.length)
    (common : items.take base = ledger.take base) (part : ledger.take base ++ new <+: ledger)
    (withinLedger : base ≤ ledger.length) :
    spliced items base new = ledger.take (base + new.length) := by
  have whole : ledger.take base ++ new = ledger.take (base + new.length) := by
    rw [List.prefix_iff_eq_take.mp part, List.length_append, List.length_take,
      Nat.min_eq_left withinLedger]
  have reach : base + new.length ≤ ledger.length := by
    have length := part.length_le
    rwa [List.length_append, List.length_take, Nat.min_eq_left withinLedger] at length
  have matchedLeft := matched_le_left (items.drop base) new
  have matchedRight := matched_le_right (items.drop base) new
  rw [List.length_drop] at matchedLeft
  -- What is already stored agrees with the ledger, as its last term is the ledger's.
  have stored : items.take (base + matched (items.drop base) new) =
      ledger.take (base + matched (items.drop base) new) := by
    cases count : matched (items.drop base) new with
    | zero => exact common
    | succ position =>
      have below : position < matched (items.drop base) new := by omega
      have terms := matched_terms below
      rw [List.getElem?_drop] at terms
      refine take_eq_of_termAt left right (by omega) (by omega) ?_
      simp only [← Nat.add_assoc, termAt, itemAt_succ]
      rw [terms]
      have inside : (ledger.take base ++ new)[base + position]? = new[position]? := by
        rw [List.getElem?_append_right (by rw [List.length_take]; omega), List.length_take,
          Nat.min_eq_left withinLedger, Nat.add_sub_cancel_left]
      rw [← inside, whole, List.getElem?_take, if_pos (by omega)]
  have rest : new.drop (matched (items.drop base) new) =
      (ledger.take (base + new.length)).drop (base + matched (items.drop base) new) := by
    have length : (ledger.take base).length = base := by
      rw [List.length_take, Nat.min_eq_left withinLedger]
    rw [← whole, ← List.drop_drop, List.drop_left' length]
  have front : ledger.take (base + matched (items.drop base) new) =
      (ledger.take (base + new.length)).take (base + matched (items.drop base) new) := by
    rw [List.take_take, Nat.min_eq_left (by omega)]
  rw [spliced, stored, rest, front, List.take_append_drop]

theorem Envelope.Agrees.leader {envelope : Envelope} (agrees : envelope.Agrees s)
    (leads : envelope.message.fromLeader = true) :
    s.leader envelope.term = some envelope.source := by
  obtain ⟨source, target, term, message⟩ := envelope
  cases message with
  | heartbeat => exact agrees
  | append => exact agrees.1
  | _ => cases leads

/-- What a new leader assumes about its peers. -/
theorem Leader.getProgress_new
    (known : (Leader.new peers lastIndex).getProgress peer = some progress) :
    progress = ⟨lastIndex + 1, 0, 0⟩ := by
  obtain ⟨_, _, same⟩ := List.mem_map.mp (Leader.mem_of_getProgress known)
  cases same
  rfl

/-- Messages leave the disk as it is. -/
theorem Disk.replayAll_sends {disk : Disk σ}
    (sends : ∀ effect ∈ effects, ∃ envelope, effect = .send envelope) :
    replayAll Disk.replay disk effects = disk := by
  induction effects with
  | nil => rfl
  | cons effect rest ih =>
    obtain ⟨envelope, rfl⟩ := sends effect List.mem_cons_self
    exact ih fun other member => sends other (List.mem_cons_of_mem _ member)

theorem Disk.replayAll_writes (disk : Disk σ) (writes : List Log.Write) :
    replayAll Disk.replay disk (writes.map Effect.write) =
      ⟨replayAll Store.replay disk.engine writes, disk.state⟩ := by
  induction writes generalizing disk with
  | nil => rfl
  | cons write rest ih => exact ih _

namespace Mirrors

variable {config : Config} {cluster : Cluster σ} {s : Agreement} (mirror : Mirrors config cluster s)
  {member : NodeID} {node : Node} (up : (cluster.processes member).node = some node)
include mirror

/-- The item a member stores at an index. -/
theorem entryAt (member : NodeID) (index : Nat) :
    (cluster.processes member).disk.entryAt index = itemAt (s.log member) index :=
  mirror.agrees.stores member index

include up

theorem term_eq : s.term member = node.term := by
  obtain ⟨_, _, _, term, _⟩ := mirror.elects.node up
  exact (mirror.agrees.term member).trans term.symm

theorem role : node.role.Agrees config s member node.term := (mirror.agrees.node up).2

theorem caches : node.log.Caches (s.log member) := (mirror.agrees.node up).1

/-- What the agreement says about a leader. -/
theorem leads {leader : Leader} (role : node.role = .leader leader) :
    s.leader node.term = some member ∧ s.log member = s.ledger node.term ∧
      (s.base node.term).length < (s.ledger node.term).length ∧
      s.held node.term member = (s.ledger node.term).length := by
  have agrees := mirror.role up
  rw [role] at agrees
  obtain ⟨leads, beyond, held, _⟩ := agrees
  exact ⟨leads, mirror.sound.leader_log leads (mirror.term_eq up), beyond, held⟩

theorem follows_leader {leader : NodeID} (role : node.role = .follower follower)
    (follows : follower.leader = some leader) :
    s.leader node.term = some leader := by
  have agrees := mirror.role up
  rw [role] at agrees
  exact agrees leader follows

omit up in
/-- A received message other than a client's request was sent by another member, and
agrees with the state. -/
theorem received (acting : Cluster.Acting discipline cluster member (.step msg))
    (other : ∀ id request, msg.message ≠ .clientRequest id request) :
    msg.Agrees s ∧ msg.target = member ∧ msg.source ≠ member := by
  obtain ⟨target, different, _⟩ := acting.sent other
  obtain ⟨sender, sent⟩ := acting.mem_history other
  exact ⟨mirror.agrees.sent sent, target, different⟩

omit up in
/-- Whoever sends a leader's message leads the term. -/
theorem leader_of_received (acting : Cluster.Acting discipline cluster member (.step msg))
    (leads : msg.message.fromLeader = true) : s.leader msg.term = some msg.source := by
  refine (mirror.received acting ?_).1.leader leads
  intro id request same
  rw [same] at leads
  cases leads

/-- What an append received in the current term says, if the log has its base. -/
theorem appended (acting : Cluster.Acting discipline cluster member (.step msg))
    (received : msg.message = .append baseIndex baseTerm entries) (current : msg.term = node.term)
    (base : baseIndex = 0 ∨ (cluster.processes member).disk.Has baseIndex baseTerm) :
    ∃ new, entries = entriesFrom (baseIndex + 1) new ∧ baseIndex ≤ (s.log member).length ∧
      baseIndex + new.length ≤ (s.ledger node.term).length ∧
      spliced (s.log member) baseIndex new =
        (s.ledger node.term).take (baseIndex + new.length) ∧
      (new = [] → 0 < s.held node.term member) ∧
      (new ≠ [] → (s.base node.term).length < baseIndex + new.length) := by
  obtain ⟨agrees, target, _⟩ := mirror.received acting (by simp [received])
  simp only [Envelope.Agrees, received, current, target] at agrees
  obtain ⟨_, new, shape, within, baseTermEq, part, empty, beyond⟩ := agrees
  have stored : baseIndex ≤ (s.log member).length ∧
      (s.log member).take baseIndex = (s.ledger node.term).take baseIndex := by
    by_cases zero : baseIndex = 0
    · subst zero
      exact ⟨Nat.zero_le _, rfl⟩
    · rcases base.resolve_left zero with ⟨command, found⟩ | ⟨_, start, _⟩
      · rw [mirror.entryAt] at found
        have inside := ((itemAt_isSome _ _).mp (Option.isSome_of_eq_some found)).2
        refine ⟨inside, take_eq_of_termAt (mirror.sound.matching_log member)
          (mirror.sound.matching_ledger node.term) inside within ?_⟩
        rw [termAt_eq_of_itemAt found, ← baseTermEq]
      · exact absurd start zero
  have reach := part.length_le
  rw [List.length_append, List.length_take, Nat.min_eq_left within] at reach
  exact ⟨new, shape, stored.1, reach, spliced_eq_take (mirror.sound.matching_log member)
    (mirror.sound.matching_ledger node.term) stored.1 stored.2 part within, empty, beyond⟩

/-- What a successful splice of such entries does. -/
theorem spliced_run (within : baseIndex ≤ (s.log member).length) (some : new ≠ [])
    (spliced : (node.log.splice (entriesFrom (baseIndex + 1) new)).run
      (cluster.processes member).disk.engine = ⟨writes, .ok (log, last)⟩) :
    writes = spliceWrites (s.log member) baseIndex new ∧
      log = { node.log with
        lastIndex := baseIndex + new.length, lastTerm := termAt new new.length } ∧
      ¬ (matched ((s.log member).drop baseIndex) new < new.length ∧
        baseIndex + 1 + matched ((s.log member).drop baseIndex) new ≤ node.log.commitIndex) := by
  have ran := splice_run (mirror.agrees.stores member) (mirror.caches up).lastIndex within some
  split at ran
  · cases ran.symm.trans spliced
  · next free =>
      cases ran.symm.trans spliced
      exact ⟨rfl, rfl, free⟩

/-- The votes of a candidate that wins its election. -/
theorem enabled_lead (role : node.role = .candidate candidate)
    (won : candidate.votes.card.toUInt8 ≥ quorumSize node.clusterSize) :
    Act.lead.Enabled config strict s member := by
  have agrees := mirror.role up
  rw [role] at agrees
  obtain ⟨standing, other⟩ := agrees
  obtain ⟨quorum, majority, votes⟩ := mirror.elects.elected_of_votes up role won
  rw [← mirror.term_eq up] at standing other votes
  have ballots : ∀ voter ∈ quorum, s.ballot (s.term member) voter = some member :=
    fun voter voted => mirror.agrees.ballot.mpr (votes voter voted)
  refine ⟨?_, standing, quorum, majority, ballots⟩
  -- Another leader would share a voter with this one.
  cases leads : s.leader (s.term member) with
  | none => rfl
  | some =>
    obtain ⟨others, otherMajority, otherVotes⟩ := mirror.sound.elected leads
    obtain ⟨voter, inFirst, inSecond⟩ := majority.meet otherMajority
    have same := (ballots voter inFirst).symm.trans (otherVotes voter inSecond)
    rw [← Option.some.inj same] at leads
    exact absurd leads other

/-- What a leader finds a quorum to have is held by a majority. -/
theorem enabled_decide {leader : Leader} (role : node.role = .leader leader)
    (quorum : IsQuorumValue (leader.lastIndexes node.log) index)
    (stored : (cluster.processes member).disk.entryAt index = some (node.term, command)) :
    (Act.decide index).Enabled config strict s member := by
  obtain ⟨leads, log, _, held⟩ := mirror.leads up role
  have agrees := mirror.role up
  rw [role] at agrees
  obtain ⟨_, _, _, peers, known⟩ := agrees
  obtain ⟨voters, majority, reached⟩ :=
    Leader.majority_of_isQuorumValue (mirror.elects.node up).1 peers quorum
  rw [mirror.entryAt, log] at stored
  simp only [Act.Enabled, mirror.term_eq up]
  refine ⟨leads, ?_, voters, majority, ?_⟩
  · cases index with
    | zero => cases stored
    | succ => exact Nat.lt_succ_of_le (mirror.sound.base_le_of_stamp stored rfl)
  · intro voter voted
    rcases reached voter voted with ⟨rfl, own⟩ | ⟨progress, found, last⟩
    · rwa [(mirror.caches up).lastIndex, log, ← held] at own
    · exact Nat.le_trans last (known voter progress found).1

/-- The candidate that a member votes for stood with a log as recent as its own. -/
theorem enabled_vote {lastTerm : Nat}
    (acting : Cluster.Acting discipline cluster member (.step msg))
    (asked : msg.message = .campaign lastIndex lastTerm) (current : msg.term = node.term)
    (role : node.role = .follower follower)
    (free : ∀ voted, follower.votedFor = some voted → voted = msg.source)
    (recent : ¬ (node.log.lastTerm > lastTerm ∨
      node.log.lastTerm = lastTerm ∧ node.log.lastIndex > lastIndex)) :
    (Act.vote msg.source).Enabled config strict s member := by
  obtain ⟨agrees, _, _⟩ := mirror.received acting (by simp [asked])
  simp only [Envelope.Agrees, asked, current] at agrees
  obtain ⟨log, standing, length, last⟩ := agrees
  obtain ⟨_, _, _, term, voted⟩ := mirror.elects.node up
  rw [role] at voted
  simp only [Act.Enabled, mirror.term_eq up]
  refine ⟨?_, log, standing, ?_⟩
  · intro other cast
    have persisted := (mirror.elects.ballot (mirror.agrees.ballot.mp cast)).2.2 term
    exact free other (Eq.trans voted persisted)
  · rw [UpToDate, lastStamp_eq_termAt, lastStamp_eq_termAt, last, length,
      ← (mirror.caches up).lastTerm, ← (mirror.caches up).lastIndex]
    omega

/-- Every move is an enabled act, if a node keeps what it holds when it adopts entries. -/
theorem enabled {input : Input} {act : Act} {next : Node}
    (acting : Cluster.Acting discipline cluster member input)
    (moved : Move input node (cluster.processes member).disk act effects next)
    (keeps : strict → ∀ count, act = .adopt count → s.held (s.term member) member ≤ count) :
    act.Enabled config strict s member := by
  cases moved with
  | advance same later =>
    rw [Act.Enabled, mirror.term_eq up]
    exact later
  | grant same asked current role free recent =>
    subst same
    exact mirror.enabled_vote up acting asked current role free recent
  | lead role won => exact mirror.enabled_lead up role won
  | propose same asked current role =>
    rw [Act.Enabled, mirror.term_eq up]
    exact (mirror.leads up role).1
  | decide role quorum advances stored => exact mirror.enabled_decide up role quorum stored
  | accept same received current role follows base some =>
    subst same
    obtain ⟨new, rfl, _, reach, _, _, beyond⟩ := mirror.appended up acting received current base
    have filled := ne_nil_of_entriesFrom some
    have leads := mirror.follows_leader up role follows
    obtain ⟨_, _, different⟩ := mirror.received acting (by simp [received])
    rw [length_entriesFrom] at keeps ⊢
    refine ⟨⟨_, ?_, different⟩, ?_, ?_, fun kept => keeps kept _ rfl⟩
    · rwa [mirror.term_eq up]
    · rw [mirror.term_eq up]
      exact beyond filled
    · rwa [mirror.term_eq up]
  | _ => trivial

omit up in
/-- Effects that write no entry leave the stored log as it is. -/
theorem stores_of_quiet
    (quiet : ∀ write, Effect.write write ∈ effects → ∀ index, write.key ≠ .entry index) :
    Stores (replayAll Disk.replay (cluster.processes member).disk effects).engine
      (s.log member) := by
  intro index
  rw [Disk.get_replayAll fun write found => (quiet write found index).symm]
  exact mirror.agrees.stores member index

theorem agrees_advance (later : node.term < term) :
    Agrees config (cluster.record member [.write (.set .termVote (term, none))]
      (some { node with term, role := .follower (Follower.new none none draw) }))
      ((Act.advance term).perform s member) := by
  have caches := mirror.caches up
  have enabled : (Act.advance term).Enabled config False s member := by
    rw [Act.Enabled, mirror.term_eq up]
    exact later
  refine mirror.agrees.record (Act.frame mirror.sound enabled) ?_ ?_ ?_ ?_ (by simp)
  · rw [replayAll_cons, replayAll_nil, Disk.termVote_set]
    exact Function.update_self ..
  · exact mirror.stores_of_quiet (by simp)
  · exact mirror.agrees.ballot_quiet (by simp)
  · intro other found
    cases found
    exact ⟨caches, fun leader follows => by cases follows⟩

theorem agrees_stand :
    Agrees config (cluster.record member [.write (.set .termVote (node.term + 1, some node.id))]
      (some { node with
        term := node.term + 1
        role := .candidate { Candidate.new draw with votes := insert node.id ∅ } }))
      (Act.stand.perform s member) := by
  obtain ⟨_, id, _, term, _⟩ := mirror.elects.node up
  have caches := mirror.caches up
  have current := mirror.term_eq up
  have enabled : Act.stand.Enabled config False s member := trivial
  refine mirror.agrees.record (Act.frame mirror.sound enabled) ?_ ?_ ?_ ?_ (by simp)
  · rw [replayAll_cons, replayAll_nil, Disk.termVote_set, ← current]
    exact Function.update_self ..
  · exact mirror.stores_of_quiet (by simp)
  · refine mirror.agrees.ballot_cast ?_ ?_
    · intro candidate cast
      have bound := (mirror.elects.ballot cast).2.1
      rw [← term, current] at bound
      omega
    · simp [current, id]
  · intro other found
    cases found
    refine ⟨caches, ?_, ?_⟩
    · rw [← current]
      exact assign_same ..
    · intro leads
      have bound : node.term + 1 ≤ s.term member := mirror.sound.leader_le leads
      omega

theorem agrees_grant {response : Envelope} (plain : response.message = .campaignResponse true)
    (enabled : (Act.vote msg.source).Enabled config False s member)
    (role : node.role = .follower follower) :
    Agrees config (cluster.record member
      [.send response, .write (.set .termVote (node.term, some msg.source))]
      (some { node with role := .follower { follower with votedFor := some msg.source } }))
      ((Act.vote msg.source).perform s member) := by
  have caches := mirror.caches up
  have current := mirror.term_eq up
  have agrees := mirror.role up
  rw [role] at agrees
  refine mirror.agrees.record (Act.frame mirror.sound enabled) ?_ ?_ ?_ ?_ ?_
  · rw [replayAll_cons, replayAll_cons, replayAll_nil, Disk.termVote_set]
    exact current
  · exact mirror.stores_of_quiet (by simp)
  · refine mirror.agrees.ballot_cast ?_ (by simp [current])
    intro candidate cast
    exact enabled.1 candidate (mirror.agrees.ballot.mpr cast)
  · intro other found
    cases found
    exact ⟨caches, agrees⟩
  · intro envelope found
    obtain rfl : envelope = response := by simpa using found
    simp [Envelope.Agrees, plain]

omit up in
/-- Messages followed by an appended item. -/
theorem stores_append (sends : ∀ effect ∈ effects, ∃ envelope, effect = .send envelope)
    (item : Item) :
    Stores (replayAll Disk.replay (cluster.processes member).disk
      (effects ++ [.write (.set (.entry ((s.log member).length + 1)) item)])).engine
      (s.log member ++ [item]) := by
  rw [replayAll_append, Disk.replayAll_sends sends]
  exact Log.stores_append (mirror.agrees.stores member) item

omit mirror up in
theorem caches_append (caches : log.Caches items) (item : Item) :
    Log.Caches { log with lastIndex := log.lastIndex + 1, lastTerm := item.1 }
      (items ++ [item]) := by
  refine ⟨?_, ?_⟩
  · rw [List.length_append, List.length_singleton, ← caches.lastIndex]
  · simp [termAt]

theorem agrees_lead {commitIndex commitTerm : Nat} (role : node.role = .candidate candidate)
    (won : candidate.votes.card.toUInt8 ≥ quorumSize node.clusterSize) :
    Agrees config (cluster.record member
      (peers.map (fun peer => Effect.send ⟨node.id, peer, node.term,
          .heartbeat commitIndex commitTerm 0⟩) ++
        [.write (.set (.entry (node.log.lastIndex + 1)) (node.term, none))])
      (some { node with
        log := { node.log with lastIndex := node.log.lastIndex + 1, lastTerm := node.term }
        role := .leader (Leader.new node.peers node.log.lastIndex) }))
      (Act.lead.perform s member) := by
  obtain ⟨_, id, configured, persisted, _⟩ := mirror.elects.node up
  have caches := mirror.caches up
  have current := mirror.term_eq up
  have enabled : Act.lead.Enabled config False s member := mirror.enabled_lead up role won
  have led := Act.leader_lead s member
  have ledger := Act.ledger_lead s member
  have log := Act.log_lead s member
  rw [current] at led ledger log
  have sends : ∀ effect ∈ peers.map (fun peer => Effect.send ⟨node.id, peer, node.term,
      .heartbeat commitIndex commitTerm 0⟩), ∃ envelope, effect = .send envelope := by
    intro effect found
    obtain ⟨peer, _, rfl⟩ := List.mem_map.mp found
    exact ⟨_, rfl⟩
  refine mirror.agrees.record (Act.frame mirror.sound enabled) ?_ ?_ ?_ ?_ ?_
  · rw [Disk.termVote_replayAll (by simp)]
    exact mirror.agrees.term member
  · rw [log, caches.lastIndex]
    exact mirror.stores_append sends _
  · exact mirror.agrees.ballot_quiet (by simp)
  · intro other found
    cases found
    rw [log]
    refine ⟨caches_append caches (node.term, none), led, ?_, ?_, ?_, ?_⟩
    · dsimp only
      rw [ledger, List.length_append, List.length_singleton, ← current]
      simp [Act.perform]
    · dsimp only
      rw [ledger, List.length_append, List.length_singleton, ← current]
      exact assign_same ..
    · rw [← configured]
      exact (List.map_map ..).trans (List.map_id _)
    · intro peer progress known
      dsimp only
      rw [Leader.getProgress_new known, ledger, List.length_append, List.length_singleton,
        caches.lastIndex]
      dsimp only
      exact ⟨Nat.zero_le _, by omega, by omega⟩
  · intro envelope found
    simp only [List.mem_append, List.mem_map, Effect.send.injEq, List.mem_singleton, reduceCtorEq,
      or_false] at found
    obtain ⟨peer, _, rfl⟩ := found
    rw [id]
    exact led

theorem agrees_propose {leader next : Leader} (role : node.role = .leader leader)
    (progress : next.progress = leader.progress) :
    Agrees config (cluster.record member
      [.write (.set (.entry (node.log.lastIndex + 1)) (node.term, command))]
      (some { node with
        log := { node.log with lastIndex := node.log.lastIndex + 1, lastTerm := node.term }
        role := .leader next }))
      ((Act.propose command).perform s member) := by
  obtain ⟨leads, same, beyond, held⟩ := mirror.leads up role
  have agrees := mirror.role up
  rw [role] at agrees
  obtain ⟨_, _, _, peers, known⟩ := agrees
  have caches := mirror.caches up
  have current := mirror.term_eq up
  have enabled : (Act.propose command).Enabled config False s member := by
    rw [Act.Enabled, current]
    exact leads
  have frame := Act.frame mirror.sound enabled
  have ledger := Act.ledger_propose s member command
  have log := Act.log_propose s member command
  rw [current] at ledger log
  have unsent : ∀ effect ∈ ([] : List Effect), ∃ envelope, effect = .send envelope := by simp
  refine mirror.agrees.record frame ?_ ?_ ?_ ?_ (by simp)
  · rw [Disk.termVote_replayAll (by simp)]
    exact mirror.agrees.term member
  · rw [log, caches.lastIndex]
    exact mirror.stores_append unsent _
  · exact mirror.agrees.ballot_quiet (by simp)
  · intro other found
    cases found
    rw [log]
    refine ⟨caches_append caches (node.term, command), leads, ?_, ?_, progress ▸ peers, ?_⟩
    · rw [ledger, List.length_append]
      exact Nat.lt_add_right _ beyond
    · rw [ledger, List.length_append, List.length_singleton, ← current]
      exact assign_same ..
    · intro peer state found
      rw [Leader.getProgress, progress] at found
      obtain ⟨last, within, _⟩ := known peer state found
      rw [ledger, List.length_append, List.length_singleton]
      exact ⟨last.trans (frame.held _ _), by omega, by omega⟩

/-- Splicing writes only entries, and leaves the items as the ledger has them. -/
theorem agrees_accept (acting : Cluster.Acting discipline cluster member (.step msg))
    (received : msg.message = .append baseIndex baseTerm entries) (current : msg.term = node.term)
    (role : node.role = .follower follower) (follows : follower.leader = some msg.source)
    (base : baseIndex = 0 ∨ (cluster.processes member).disk.Has baseIndex baseTerm)
    (some : entries ≠ [])
    (spliced : (node.log.splice entries).run (cluster.processes member).disk.engine =
      ⟨writes, .ok (log, last)⟩)
    (enabled : (Act.adopt (baseIndex + entries.length)).Enabled config False s member) :
    Agrees config (cluster.record member
      (writes.map Effect.write ++ [.send ⟨node.id, msg.source, node.term,
        .appendResponse false log.lastIndex log.lastTerm⟩])
      (.some { node with log }))
      ((Act.adopt (baseIndex + entries.length)).perform s member) := by
  obtain ⟨new, rfl, within, reach, whole, _, _⟩ := mirror.appended up acting received current base
  have filled := ne_nil_of_entriesFrom some
  obtain ⟨rfl, rfl, _⟩ := mirror.spliced_run up within filled spliced
  have frame := Act.frame mirror.sound enabled
  have id := (mirror.elects.node up).2.1
  have term := mirror.term_eq up
  have leads := mirror.follows_leader up role follows
  have agrees := mirror.role up
  rw [role] at agrees
  rw [length_entriesFrom] at frame ⊢
  have adopted : ((Act.adopt (baseIndex + new.length)).perform s member).log member =
      Log.spliced (s.log member) baseIndex new := by
    rw [whole, ← term, Act.log_adopt]
  have lastTerm : termAt (Log.spliced (s.log member) baseIndex new)
      (Log.spliced (s.log member) baseIndex new).length = termAt new new.length := by
    rw [length_spliced within, termAt_spliced within new (List.length_pos_iff.mpr filled)]
  refine mirror.agrees.record frame ?_ ?_ ?_ ?_ ?_
  · rw [Disk.termVote_replayAll]
    · exact mirror.agrees.term member
    · intro write found
      obtain ⟨index, entry⟩ := key_spliceWrites (by simpa using found)
      simp [entry]
  · rw [replayAll_append, Disk.replayAll_writes, adopted]
    exact stores_splice (mirror.agrees.stores member) within new
  · refine mirror.agrees.ballot_quiet ?_
    intro otherTerm candidate found
    obtain ⟨index, entry⟩ := key_spliceWrites (by simpa using found)
    cases entry
  · intro other found
    cases found
    rw [adopted]
    refine ⟨⟨(length_spliced within new).symm, lastTerm.symm⟩, ?_⟩
    dsimp only
    rw [role]
    exact agrees
  · intro envelope found
    obtain rfl : envelope = _ := by simpa using found
    refine ⟨leads, ?_, ?_⟩
    · rw [id, ← term, Act.held_adopt]
      exact Nat.le_max_right _ _
    · dsimp only
      rw [← lastTerm, whole]
      exact termAt_le (fun item member =>
        mirror.sound.ledger_stamp_le (List.mem_of_mem_take member)) _

/-- What a leader decides changes nothing else. -/
theorem agrees_decide {write : Log.Write}
    (enabled : (Act.decide index).Enabled config False s member)
    (plain : write.key = .commitIndex)
    (same : log.lastIndex = node.log.lastIndex ∧ log.lastTerm = node.log.lastTerm) :
    Agrees config (cluster.record member [.write write] (some { node with log }))
      ((Act.decide index).perform s member) := by
  have caches := mirror.caches up
  have role := mirror.role up
  refine mirror.agrees.record (Act.frame mirror.sound enabled) ?_ ?_ ?_ ?_ (by simp)
  · rw [Disk.termVote_replayAll (by simp [plain])]
    exact mirror.agrees.term member
  · exact mirror.stores_of_quiet (by simp [plain])
  · refine mirror.agrees.ballot_quiet ?_
    intro term candidate found
    rw [← Effect.write.inj (List.mem_singleton.mp found)] at plain
    cases plain
  · intro other found
    cases found
    exact ⟨⟨same.1.trans caches.lastIndex, same.2.trans caches.lastTerm⟩, role⟩

/-- What a leader sends is the end of its ledger. -/
theorem replicated {leader : Leader} (role : node.role = .leader leader)
    (known : leader.getProgress peer = some progress)
    (base : Leader.Base (cluster.processes member).disk progress.next baseIndex baseTerm)
    (scanned : (Log.scan fun index => baseIndex + 1 ≤ index).run
      (cluster.processes member).disk.engine = ⟨[], .ok entries⟩) :
    entries = entriesFrom (baseIndex + 1) ((s.ledger node.term).drop baseIndex) ∧
      baseIndex ≤ (s.ledger node.term).length ∧
      baseTerm = termAt (s.ledger node.term) baseIndex := by
  obtain ⟨_, log, _⟩ := mirror.leads up role
  have agrees := mirror.role up
  rw [role] at agrees
  obtain ⟨_, within, _⟩ := agrees.2.2.2.2 peer progress known
  refine ⟨?_, ?_⟩
  · have ran := scan_run (mirror.agrees.stores member) fun index => decide (baseIndex + 1 ≤ index)
    rw [filter_entriesFrom_unbounded _ (Nat.le_add_left _ _), log] at ran
    cases ran.symm.trans scanned
    rfl
  · rcases base with ⟨_, rfl, rfl⟩ | ⟨_, rfl, command, found⟩
    · exact ⟨Nat.zero_le _, rfl⟩
    · rw [mirror.entryAt, log] at found
      exact ⟨by omega, (termAt_eq_of_itemAt found).symm⟩

theorem agrees_replicate {leader : Leader} (role : node.role = .leader leader)
    (known : leader.getProgress peer = some progress)
    (base : Leader.Base (cluster.processes member).disk progress.next baseIndex baseTerm)
    (scanned : (Log.scan fun index => baseIndex + 1 ≤ index).run
      (cluster.processes member).disk.engine = ⟨[], .ok entries⟩) :
    Envelope.Agrees s ⟨node.id, peer, node.term, .append baseIndex baseTerm entries⟩ := by
  obtain ⟨leads, _, beyond, _⟩ := mirror.leads up role
  have agrees := mirror.role up
  rw [role] at agrees
  obtain ⟨_, _, full⟩ := agrees.2.2.2.2 peer progress known
  obtain ⟨sent, inside⟩ := mirror.replicated up role known base scanned
  rw [(mirror.elects.node up).2.1]
  refine ⟨leads, _, sent, inside.1, inside.2, ?_, ?_, ?_⟩
  · dsimp only
    rw [List.take_append_drop]
  · intro empty
    have ends := List.drop_eq_nil_iff.mp empty
    refine full ?_
    rcases base with ⟨_, rfl, _⟩ | ⟨above, rfl, _⟩
    · omega
    · omega
  · intro _
    dsimp only
    rw [List.length_drop]
    omega

/-- A follower that is asked to append nothing holds its whole log. -/
theorem agrees_agree (acting : Cluster.Acting discipline cluster member (.step msg))
    (received : msg.message = .append baseIndex baseTerm []) (current : msg.term = node.term)
    (role : node.role = .follower follower) (follows : follower.leader = some msg.source)
    (base : baseIndex = 0 ∨ (cluster.processes member).disk.Has baseIndex baseTerm) :
    Envelope.Agrees s ⟨node.id, msg.source, node.term,
      .appendResponse false node.log.lastIndex node.log.lastTerm⟩ := by
  obtain ⟨new, shape, _, _, _, empty, _⟩ := mirror.appended up acting received current base
  have none : new = [] := by
    rw [← List.length_eq_zero_iff, ← length_entriesFrom (baseIndex + 1), ← shape, List.length_nil]
  obtain ⟨_, _, different⟩ := mirror.received acting (by simp [received])
  have leads := mirror.follows_leader up role follows
  have term := mirror.term_eq up
  have caches := mirror.caches up
  have other : s.leader node.term ≠ some member := by
    rw [leads]
    exact fun same => different (Option.some.inj same)
  obtain ⟨_, short⟩ := mirror.follows (empty none) term other
  rw [(mirror.elects.node up).2.1, caches.lastIndex, caches.lastTerm]
  refine ⟨leads, short, termAt_le ?_ _⟩
  intro item found
  exact (mirror.sound.log_le found).trans_eq term

omit mirror up in
/-- Changing what a leader knows of a peer. -/
theorem agrees_modifyProgress {leader : Leader} {change : Progress → Progress}
    (agrees : (Role.leader leader).Agrees config s member term)
    (changes : ∀ progress, leader.getProgress peer = some progress →
      (change progress).last ≤ s.held term peer ∧
        (change progress).next ≤ (s.ledger term).length + 1 ∧
        ((change progress).next = (s.ledger term).length + 1 → 0 < s.held term peer)) :
    (Role.leader (leader.modifyProgress peer change)).Agrees config s member term := by
  obtain ⟨leads, beyond, held, peers, known⟩ := agrees
  refine ⟨leads, beyond, held, ?_, ?_⟩
  · rw [← peers]
    simp only [Leader.modifyProgress, List.map_map]
    refine List.map_congr_left fun other _ => ?_
    simp only [Function.comp_apply]
    split <;> rfl
  · intro other progress found
    rw [Leader.getProgress_modifyProgress] at found
    split at found
    · next same =>
        subst same
        obtain ⟨before, foundBefore, rfl⟩ := Option.map_eq_some_iff.mp found
        exact changes before foundBefore
    · exact known other progress found

variable {discipline : Discipline σ} {input : Input} {act : Act} {effects : List Effect}
  {next : Node}

/-- Every move leads to where its act leads. -/
theorem agrees_move (acting : Cluster.Acting discipline cluster member input)
    (moved : Move input node (cluster.processes member).disk act effects next) :
    Agrees config (cluster.record member effects (some next)) (act.perform s member) := by
  obtain ⟨_, id, peers, _, _⟩ := mirror.elects.node up
  have caches := mirror.caches up
  have term := mirror.term_eq up
  have agrees := mirror.role up
  have enabled : act.Enabled config False s member := mirror.enabled up acting moved (by simp)
  -- Moves that do not concern the logs, with at most one message.
  have stays {effects : List Effect} {next : Node}
      (unwritten : Unwritten effects)
      (same : next.term = node.term ∧ next.log.lastIndex = node.log.lastIndex ∧
        next.log.lastTerm = node.log.lastTerm)
      (role : next.role.Agrees config s member node.term)
      (sends : ∀ envelope, Effect.send envelope ∈ effects → envelope.Agrees s) :
      Agrees config (cluster.record member effects (some next)) s := by
    refine mirror.agrees.record_quiet unwritten ?_ sends
    intro other found
    cases found
    rw [same.1]
    exact ⟨⟨same.2.1.trans caches.lastIndex, same.2.2.trans caches.lastTerm⟩, role⟩
  have silent {next : Node}
      (same : next.term = node.term ∧ next.log = node.log)
      (role : next.role.Agrees config s member node.term) :
      Agrees config (cluster.record member [] (some next)) s :=
    stays (by simp [Unwritten]) ⟨same.1, by rw [same.2], by rw [same.2]⟩ role (by simp)
  have sends {envelope : Envelope} {next : Node} (same : next.term = node.term ∧ next.log = node.log)
      (role : next.role.Agrees config s member node.term) (message : envelope.Agrees s) :
      Agrees config (cluster.record member [.send envelope] (some next)) s :=
    stays (by simp [Unwritten]) ⟨same.1, by rw [same.2], by rw [same.2]⟩ role (by simpa using message)
  have leader {role other : Leader} (before : node.role = .leader role)
      (same : other.progress = role.progress) :
      (Role.leader other).Agrees config s member node.term := by
    rw [before] at agrees
    obtain ⟨leads, beyond, held, peers, known⟩ := agrees
    refine ⟨leads, beyond, held, same ▸ peers, ?_⟩
    intro peer progress found
    refine known peer progress ?_
    rwa [Leader.getProgress, ← same]
  have follower {role other : Follower} (before : node.role = .follower role)
      (same : other.leader = role.leader) :
      (Role.follower other).Agrees config s member node.term := by
    rw [before] at agrees
    intro led follows
    exact agrees led (same ▸ follows)
  have answers {first : Effect} {envelope : Envelope} {next : Node}
      (quiet : ∀ write, first ≠ .write write) (other : ∀ sent, first ≠ .send sent)
      (same : next.term = node.term ∧ next.log = node.log)
      (role : next.role.Agrees config s member node.term) (message : envelope.Agrees s) :
      Agrees config (cluster.record member [first, .send envelope] (some next)) s := by
    refine stays ?_ ⟨same.1, by rw [same.2], by rw [same.2]⟩ role ?_
    · intro write found
      simp [(quiet write).symm] at found
    · intro sent found
      obtain rfl : sent = envelope := by simpa [(other sent).symm] using found
      exact message
  cases moved with
  | relay same received current role | discard role | forward same asked own role =>
    exact sends ⟨rfl, rfl⟩ (follower role rfl) trivial
  | decline | refuse | report | abort => exact sends ⟨rfl, rfl⟩ agrees trivial
  | advance same later => exact mirror.agrees_advance up later
  | apply | commit => exact stays (by simp [Unwritten]) ⟨rfl, rfl, rfl⟩ agrees (by simp)
  | fulfill role | read role =>
    exact answers (by simp) (by simp) ⟨rfl, rfl⟩ (leader role rfl) trivial
  | idle idles => exact silent ⟨rfl, rfl⟩ (idles.agrees agrees)
  | follow same leads current | concede same leads current =>
    subst same
    refine silent ⟨rfl, rfl⟩ ?_
    intro other follows
    rw [← Option.some.inj follows, ← current]
    exact mirror.leader_of_received acting leads
  | stand => exact mirror.agrees_stand up
  | solicit role =>
    rw [role] at agrees
    refine sends ⟨rfl, rfl⟩ (role ▸ agrees) ⟨s.log member, ?_, ?_, ?_⟩
    · rw [id]
      exact agrees.1
    · exact caches.lastIndex.symm
    · exact caches.lastTerm.symm
  | grant same asked current role => exact mirror.agrees_grant up rfl enabled role
  | poll same voted current role =>
    refine silent ⟨rfl, rfl⟩ ?_
    rw [role] at agrees
    exact agrees
  | lead role won => exact mirror.agrees_lead up role won
  | beat role =>
    refine sends ⟨rfl, rfl⟩ agrees ?_
    rw [id]
    exact (mirror.leads up role).1
  | propose same asked current role => exact mirror.agrees_propose up role rfl
  | replicate role known base scanned =>
    exact sends ⟨rfl, rfl⟩ agrees (mirror.agrees_replicate up role known base scanned)
  | confirm same confirmed current role =>
    refine silent ⟨rfl, rfl⟩ (agrees_modifyProgress (role ▸ agrees) ?_)
    intro progress found
    rw [role] at agrees
    exact agrees.2.2.2.2 _ progress found
  | acknowledge same accepted current role within positive =>
    subst same
    refine silent ⟨rfl, rfl⟩ (agrees_modifyProgress (role ▸ agrees) ?_)
    intro progress found
    obtain ⟨message, _, _⟩ := mirror.received acting (by simp [accepted])
    simp only [Envelope.Agrees, accepted, current] at message
    obtain ⟨_, log, _, _⟩ := mirror.leads up role
    rw [caches.lastIndex, log] at within
    exact ⟨message.2.1, Nat.succ_le_succ within, fun _ => positive.trans_le message.2.1⟩
  | probe same rejected current role =>
    refine silent ⟨rfl, rfl⟩ (agrees_modifyProgress (role ▸ agrees) ?_)
    intro progress found
    rw [role] at agrees
    obtain ⟨last, within, full⟩ := agrees.2.2.2.2 _ progress found
    split
    · exact ⟨last, by dsimp only; omega, by dsimp only; omega⟩
    · exact ⟨last, within, full⟩
  | decide => exact mirror.agrees_decide up enabled rfl ⟨rfl, rfl⟩
  | forsake role | forsakeRead role => exact sends ⟨rfl, rfl⟩ (leader role rfl) trivial
  | enqueue same asked current role =>
    exact stays (by simp [Unwritten]) ⟨rfl, rfl, rfl⟩ (leader role rfl) (by simp)
  | respond same received current role follows | reject same received current role follows =>
    exact sends ⟨rfl, rfl⟩ agrees (mirror.follows_leader up role follows)
  | accept same received current role follows base some spliced =>
    subst same
    exact mirror.agrees_accept up acting received current role follows base some spliced enabled
  | agree same received current role follows base =>
    subst same
    exact sends ⟨rfl, rfl⟩ agrees
      (mirror.agrees_agree up acting received current role follows base)

omit up in
/-- A turn without a crash inside a move leads to where its act leads. -/
theorem turn {after : Cluster σ} (whole : ¬ discipline.torn)
    (taken : Cluster.Turn config discipline cluster member act after)
    (keeps : strict → ∀ count, act = .adopt count → s.held (s.term member) member ≤ count) :
    act.Enabled config strict s member ∧ Mirrors config after (act.perform s member) := by
  have elects := mirror.elects.turn taken
  -- Turns that only start or stop a member.
  have quiet {result : Option Node} (nodes : ∀ node, result = some node →
      node.log.Caches (s.log member) ∧ node.role.Agrees config s member node.term) :
      Agrees config (cluster.record member [] result) s :=
    mirror.agrees.record_quiet (by simp [Unwritten]) nodes (by simp)
  cases taken with
  | boot inside down opened =>
    refine ⟨trivial, elects, mirror.sound, mirror.follows, quiet ?_⟩
    intro node found
    cases found
    have ran := Log.new_run (mirror.agrees.stores member)
    cases ran.symm.trans opened
    exact ⟨⟨rfl, rfl⟩, fun leader follows => by cases follows⟩
  | move inside up acting moved =>
    have enabled := mirror.enabled up acting moved keeps
    obtain ⟨sound, _⟩ := Agreement.sound_of_steps mirror.sound (Act.steps enabled)
    exact ⟨enabled, elects, sound,
      Agreement.follows_of_steps mirror.sound mirror.follows (Act.steps enabled),
      mirror.agrees_move up acting moved⟩
  | crash => exact ⟨trivial, elects, mirror.sound, mirror.follows, quiet (by simp)⟩
  | tear inside up acting torn => exact absurd torn whole
  | seek =>
    exact ⟨trivial, elects, mirror.sound, mirror.follows,
      ⟨mirror.agrees.term, mirror.agrees.stores, mirror.agrees.node, mirror.agrees.ballot,
        mirror.agrees.sent⟩⟩

omit mirror up in
theorem initial (config : Config) : Mirrors config (Cluster.initial : Cluster σ) State.initial where
  elects := Cluster.elects_initial config
  sound := Sound.initial
  follows := Follows.initial
  agrees := by
    refine ⟨?_, ?_, ?_, ?_, ?_⟩
    · intro member
      rfl
    · intro member index
      cases index <;> simp [Cluster.initial, Consensus.State.initial]
    · simp [Cluster.initial]
    · simp [Cluster.initial, Consensus.State.initial, Ballot]
    · simp [Cluster.initial]

end Mirrors

/-- Every cluster that turns lead to mirrors a state of the protocol. -/
theorem Cluster.exists_mirrors {config : Config} {cluster : Cluster σ} (whole : ¬ discipline.torn)
    (turns : Turns config discipline initial cluster) :
    ∃ s, Mirrors config cluster s := by
  induction turns with
  | refl => exact ⟨_, Mirrors.initial config⟩
  | tail _ taken ih =>
    obtain ⟨s, mirror⟩ := ih
    obtain ⟨member, act, taken⟩ := taken
    have unforced : False → ∀ count, act = .adopt count → s.held (s.term member) member ≤ count :=
      False.elim
    exact ⟨_, (mirror.turn whole taken unforced).2⟩

end Radb.Raft
