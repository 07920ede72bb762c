import Radb.Raft.LinearizableReads

/-! # Assertions

No assertion of a node contradicts what the cluster guarantees, as long as nobody receives
a message that belongs to a role it does not have any more.
-/

namespace Radb.Raft

open Foundation Foundation.Program Foundation.Consensus Log

variable {σ : Type} [State σ]
  {next : Node} {draw : Nat} {input : Input} {disk : Disk σ} {msg : Envelope}

theorem Log.le_matched {stored new : List Item} {count : Nat} (left : count ≤ stored.length)
    (right : count ≤ new.length)
    (same : ∀ position < count, stored[position]? = new[position]?) :
    count ≤ matched stored new := by
  induction count generalizing stored new with
  | zero => exact Nat.zero_le _
  | succ count ih =>
    cases stored with
    | nil => cases left
    | cons =>
      cases new with
      | nil => cases right
      | cons =>
        have here := same 0 (Nat.succ_pos _)
        cases here
        rw [matched, if_pos rfl]
        refine Nat.succ_le_succ (ih (Nat.le_of_succ_le_succ left)
          (Nat.le_of_succ_le_succ right) ?_)
        intro position below
        exact same (position + 1) (Nat.succ_lt_succ below)

/-- The role's clock has not run out, a leaderless follower has not forwarded anything, and
nobody follows itself. -/
def Role.Tidy (config : Config) (member : NodeID) : Role → Prop
  | .follower role => role.leaderSeen < role.electionTimeout ∧
      (role.leader = none → role.forwarded = []) ∧
      ∀ leader, role.leader = some leader → leader ≠ member ∧ leader ∈ config.nodes
  | .candidate role => role.electionDuration < role.electionTimeout
  | .leader _ => True

/-- Every running member is tidy, and nobody leads term 0. -/
structure Tidy (config : Config) (cluster : Cluster σ) (s : Agreement) : Prop where
  role : ∀ {member node}, (cluster.processes member).node = some node →
    node.role.Tidy config member
  term : ∀ {term leader}, s.leader term = some leader → term ≠ 0

theorem Idle.tidy {config : Config} {role next : Role} (idles : Idle role next)
    (tidy : role.Tidy config member) : next.Tidy config member := by
  cases idles with
  | hear role => exact ⟨Nat.zero_lt_of_lt tidy.1, tidy.2⟩
  | await role early => exact ⟨early, tidy.2⟩
  | campaign role early => exact early
  | lead => trivial

theorem pos_of_electionTimeouts (drawn : electionTimeouts draw = true) :
    0 < draw := by
  simp only [electionTimeouts, Bool.and_eq_true, decide_eq_true_eq] at drawn
  omega

theorem Role.tidy_new {config : Config} {leader votedFor : Option NodeID}
    (drawn : electionTimeouts draw = true)
    (other : ∀ led, leader = some led → led ≠ member ∧ led ∈ config.nodes) :
    (Role.follower (Follower.new leader votedFor draw)).Tidy config member :=
  ⟨pos_of_electionTimeouts drawn, fun _ => rfl, other⟩

namespace Tidy

variable {config : Config} {cluster : Cluster σ} {s : Agreement} (tidy : Tidy config cluster s)
  {member : NodeID} {effects : List Effect} {result : Option Node}
include tidy

theorem record {next : Agreement}
    (nodes : ∀ node, result = some node → node.role.Tidy config member)
    (leaders : ∀ {term leader}, next.leader term = some leader → term ≠ 0) :
    Tidy config (cluster.record member effects result) next := by
  refine ⟨?_, leaders⟩
  intro other node up
  by_cases same : other = member
  · subst same
    rw [Cluster.processes_record_self] at up
    exact nodes node up
  · rw [Cluster.processes_record_of_ne same] at up
    exact tidy.role up

variable (mirror : Mirrors config cluster s) {discipline : Discipline σ} {act : Act}

theorem leader_perform (mirror : Mirrors config cluster s)
    (up : (cluster.processes member).node = some node)
    (moved : Move input node (cluster.processes member).disk act effects next) {term : Nat}
    {leader : NodeID} (leads : (act.perform s member).leader term = some leader) : term ≠ 0 := by
  cases moved with
  | lead role won =>
    by_cases same : term = s.term member
    · have voted := (mirror.elects.node up).2.2.2.2
      rw [role] at voted
      rw [same, mirror.term_eq up]
      exact voted.2.1
    · dsimp only [Act.perform] at leads
      rw [Function.update_of_ne same] at leads
      exact tidy.term leads
  | _ => exact tidy.term leads

include mirror

theorem move (up : (cluster.processes member).node = some node)
    (acting : Cluster.Acting discipline cluster member input)
    (moved : Move input node (cluster.processes member).disk act effects next) :
    Tidy config (cluster.record member effects (some next)) (act.perform s member) := by
  have before := tidy.role up
  have leaders {term : Nat} {leader : NodeID} :
      (act.perform s member).leader term = some leader → term ≠ 0 :=
    tidy.leader_perform mirror up moved
  refine tidy.record ?_ leaders
  intro other found
  cases found
  -- Whoever sends a leader's message is another member.
  have source {msg : Envelope} (same : input = .step msg) (leads : msg.message.fromLeader = true)
      (led : NodeID) (follows : some msg.source = some led) : led ≠ member ∧ led ∈ config.nodes := by
    subst same
    cases follows
    have other : ∀ id request, msg.message ≠ .clientRequest id request := by
      intro id request shape
      rw [shape] at leads
      cases leads
    obtain ⟨_, different, _⟩ := acting.sent other
    obtain ⟨sender, sent⟩ := acting.mem_history other
    obtain ⟨same, inside⟩ := mirror.elects.sender sent
    exact ⟨different, same ▸ inside⟩
  cases moved with
  | relay same received current role held =>
    rw [role] at before
    refine ⟨before.1, ?_, before.2.2⟩
    intro leaderless
    rw [before.2.1 leaderless] at held
    cases held
  | discard role front =>
    rw [role] at before
    refine ⟨before.1, ?_, before.2.2⟩
    intro leaderless
    rw [before.2.1 leaderless] at front
    cases front
  | advance same later drawn => exact Role.tidy_new drawn (by simp)
  | idle idles => exact idles.tidy before
  | follow same leads current role leaderless drawn | concede same leads current role drawn =>
    exact Role.tidy_new drawn (source same leads)
  | stand ready drawn => exact pos_of_electionTimeouts drawn
  | grant same asked current role | poll same voted current role =>
    rw [role] at before
    exact before
  | forward same asked own role follows =>
    rw [role] at before
    refine ⟨before.1, ?_, before.2.2⟩
    intro leaderless
    cases leaderless.symm.trans follows
  | lead | propose | confirm | acknowledge | probe | fulfill | forsake | forsakeRead | enqueue |
    read => trivial
  | _ => exact before

theorem turn {after : Cluster σ} (whole : ¬ discipline.torn)
    (taken : Cluster.Turn config discipline cluster member act after) :
    Tidy config after (act.perform s member) := by
  cases taken with
  | boot inside down opened drawn =>
    refine tidy.record ?_ tidy.term
    intro node found
    cases found
    exact Role.tidy_new drawn (by simp)
  | move inside up acting moved => exact tidy.move mirror up acting moved
  | crash => exact tidy.record (by simp) tidy.term
  | tear inside up acting torn => exact absurd torn whole
  | seek => exact ⟨tidy.role, tidy.term⟩

omit tidy mirror in
theorem initial (config : Config) : Tidy config (Cluster.initial : Cluster σ) State.initial where
  role := by simp [Cluster.initial]
  term := by simp [State.initial]

end Tidy

def Role.isLeader : Role → Bool
  | .leader _ => true
  | _ => false

/-- The role is that of a follower of a node. -/
def Role.follows (leader : NodeID) : Role → Bool
  | .follower role => role.leader == some leader
  | _ => false

/-- A node receives what is addressed to the leader of its term only as the leader, and
responses to its requests only as a follower of their sender. What is from an earlier term
does not matter. -/
def Node.admits (node : Node) (msg : Envelope) : Bool :=
  match msg.message with
  | .heartbeatResponse .. | .appendResponse .. | .clientRequest .. =>
    msg.term < node.term || msg.term == node.term && node.role.isLeader
  | .clientResponse .. =>
    msg.term < node.term || msg.term == node.term && node.role.follows msg.source
  | _ => true

theorem Idle.stays {role next : Role} (idles : Idle role next) :
    (role.isLeader = true → next.isLeader = true) ∧
      ∀ leader, role.follows leader = true → next.follows leader = true := by
  cases idles with
  | lead => exact ⟨fun _ => rfl, fun _ => id⟩
  | _ => exact ⟨id, fun _ => id⟩

section

variable (moved : Move input node disk act effects next)

include moved

/-- A follower forwards its clients' requests to its leader. -/
theorem Move.of_clientRequest {envelope : Envelope} {id : RequestID} {request : Request}
    (sent : Effect.send envelope ∈ effects) (shape : envelope.message = .clientRequest id request) :
    envelope.source = node.id ∧ envelope.term = node.term ∧ next.term = node.term ∧
      (∃ msg, input = .step msg ∧ msg.message = envelope.message ∧ msg.source = node.id) ∧
      ∃ follower, node.role = .follower follower ∧ follower.leader = some envelope.target ∧
        next.role.follows envelope.target = true := by
  cases moved with
  | forward acting asked own role follows =>
    cases List.mem_singleton.mp sent
    exact ⟨rfl, rfl, rfl, ⟨_, acting, asked, own⟩, _, role, follows,
      by simp [Role.follows, follows]⟩
  | lead =>
    simp only [List.mem_append, List.mem_map, Effect.send.injEq, List.mem_singleton,
      reduceCtorEq, or_false] at sent
    obtain ⟨peer, _, rfl⟩ := sent
    cases shape
  | accept =>
    simp only [List.mem_append, List.mem_map, reduceCtorEq, and_false, exists_false,
      List.mem_singleton, Effect.send.injEq, false_or] at sent
    rw [sent] at shape
    cases shape
  | _ =>
    simp only [List.mem_cons, List.not_mem_nil, reduceCtorEq, Effect.send.injEq, or_false,
      false_or] at sent
    try (rw [sent] at shape; cases shape)

/-- Within a term a leader stays a leader, and a follower stays with its leader. -/
theorem Move.stays :
    node.term < next.term ∨ next.term = node.term ∧
      (node.role.isLeader = true → next.role.isLeader = true) ∧
      ∀ leader, node.role.follows leader = true → next.role.follows leader = true := by
  cases moved with
  | advance same later => exact .inl later
  | stand => exact .inl (Nat.lt_succ_self _)
  | idle idles => exact .inr ⟨rfl, idles.stays⟩
  | relay _ _ _ role | discard role | grant _ _ _ role | forward _ _ _ role | concede _ _ _ role
  | poll _ _ _ role | lead role | fulfill role | forsake role | forsakeRead role | read role
  | propose _ _ _ role | confirm _ _ _ role | acknowledge _ _ _ role | probe _ _ _ role
  | enqueue _ _ _ role =>
    simp [role, Role.isLeader, Role.follows]
  | follow _ _ _ role leaderless => simp [role, leaderless, Role.isLeader, Role.follows]
  | _ => exact .inr ⟨rfl, id, fun _ => id⟩

theorem Move.admits (admitted : node.admits msg = true) : next.admits msg = true := by
  have stays := moved.stays
  unfold Node.admits at admitted ⊢
  split at admitted
  case h_1 | h_2 | h_3 =>
    simp only [Bool.or_eq_true, decide_eq_true_eq, Bool.and_eq_true, beq_iff_eq] at admitted ⊢
    rcases stays with later | ⟨same, leads, _⟩
    · exact .inl (by omega)
    · exact admitted.imp (fun early => by omega) fun now => ⟨by omega, leads now.2⟩
  case h_4 =>
    simp only [Bool.or_eq_true, decide_eq_true_eq, Bool.and_eq_true, beq_iff_eq] at admitted ⊢
    rcases stays with later | ⟨same, _, follows⟩
    · exact .inl (by omega)
    · exact admitted.imp (fun early => by omega) fun now => ⟨by omega, follows _ now.2⟩
  case h_5 => rfl

end

namespace Serves

variable {config : Config} {cluster : Cluster σ} {s : Agreement}
  (serves : Serves config cluster s) {discipline : Discipline σ} {member : NodeID} {node : Node}
  (up : (cluster.processes member).node = some node)
include serves up

theorem exists_spliced {baseIndex baseTerm : Nat} {entries : List Entry}
    (acting : Cluster.Acting discipline cluster member (.step msg))
    (received : msg.message = .append baseIndex baseTerm entries) (current : msg.term = node.term)
    (base : baseIndex = 0 ∨ (cluster.processes member).disk.Has baseIndex baseTerm) :
    ∃ writes result, (node.log.splice entries).run (cluster.processes member).disk.engine =
      ⟨writes, .ok result⟩ := by
  obtain ⟨mirror, commits, _, _⟩ := serves.replicates
  obtain ⟨agrees, _, _⟩ := mirror.received acting (by simp [received])
  simp only [Envelope.Agrees, received, current] at agrees
  obtain ⟨leads, new, rfl, inLedger, _, part, _⟩ := agrees
  obtain ⟨_, shape, within, _⟩ := mirror.appended up acting received current base
  by_cases empty : new = []
  · subst empty
    exact ⟨[], _, rfl⟩
  · rw [splice_run (mirror.agrees.stores member) (mirror.caches up).lastIndex within empty, if_neg]
    · exact ⟨_, _, rfl⟩
    · intro failing
      -- The committed items are the leader's, so the splice finds them all in place.
      have position := (commits.position member).settled
      rw [← commits.cached up, mirror.term_eq up] at position
      obtain ⟨reach, same⟩ := position.take_ledger commits.safe (by rw [leads]; simp)
      dsimp only at reach same
      have length := position.1
      dsimp only at length
      have enough : min new.length (node.log.commitIndex - baseIndex) ≤
          matched ((s.log member).drop baseIndex) new := by
        refine le_matched (by rw [List.length_drop]; omega) (Nat.min_le_left _ _) ?_
        intro offset below
        have stored := congrArg (fun items => items[baseIndex + offset]?) same
        simp only [List.getElem?_take, show baseIndex + offset < node.log.commitIndex by omega,
          ↓reduceIte] at stored
        obtain ⟨rest, split⟩ := part
        rw [List.getElem?_drop, stored, ← split, List.getElem?_append_left
          (by rw [List.length_append, List.length_take]; omega), List.getElem?_append_right
          (by rw [List.length_take]; omega), List.length_take, Nat.min_eq_left inLedger,
          Nat.add_sub_cancel_left]
      omega

theorem mem_peers_of_acting (acting : Cluster.Acting discipline cluster member (.step msg))
    (other : msg.source ≠ member) :
    msg.source ∈ node.peers := by
  obtain ⟨mirror, _, _, _⟩ := serves.replicates
  obtain ⟨inside, _, peers, _, _⟩ := mirror.elects.node up
  obtain ⟨_, ⟨own, _⟩ | ⟨_, _, position, found, _⟩⟩ := acting
  · exact absurd own other
  · obtain ⟨⟨sender, sent⟩, _, _⟩ := mem_link.mp (List.mem_of_getElem? found)
    obtain ⟨same, known⟩ := mirror.elects.sender sent
    rw [peers, config.mem_peers member inside]
    exact ⟨same ▸ known, other⟩

/-- A leader knows its peers. -/
theorem getProgress_ne_none {leader : Leader} {peer : NodeID} (role : node.role = .leader leader)
    (known : peer ∈ node.peers) : leader.getProgress peer ≠ none := by
  obtain ⟨mirror, _, _, _⟩ := serves.replicates
  have agrees := mirror.role up
  rw [role] at agrees
  obtain ⟨_, _, _, peers, _⟩ := agrees
  rw [(mirror.elects.node up).2.2.1, ← peers] at known
  obtain ⟨⟨id, progress⟩, found, rfl⟩ := List.mem_map.mp known
  have nodup : (leader.progress.map Prod.fst).Nodup :=
    peers ▸ config.nodup_peers member (mirror.elects.node up).1
  rw [Leader.getProgress_of_mem nodup found]
  simp

/-- Nobody holds more of a leader's log than there is, and its last entry is of its term. -/
theorem last_of_leader {leader : Leader} (role : node.role = .leader leader) :
    (∀ other, s.held node.term other ≤ node.log.lastIndex) ∧ node.log.lastTerm = node.term := by
  obtain ⟨mirror, _, _, _⟩ := serves.replicates
  obtain ⟨leads, log, beyond, _⟩ := mirror.leads up role
  have caches := mirror.caches up
  rw [log] at caches
  refine ⟨?_, ?_⟩
  · intro other
    rw [caches.lastIndex]
    exact mirror.sound.held_le node.term other
  · obtain ⟨proposed, split, stamped⟩ := mirror.sound.ledger_eq leads
    rw [caches.lastTerm, ← lastStamp_eq_termAt, lastStamp]
    rcases List.eq_nil_or_concat' proposed with rfl | ⟨before, item, rfl⟩
    · rw [List.append_nil] at split
      rw [split] at beyond
      exact absurd beyond (Nat.lt_irrefl _)
    · rw [split, ← List.append_assoc, List.getLast?_append]
      exact stamped item (by simp)

/-- What a role takes for granted about an admitted message. -/
theorem expects (acting : Cluster.Acting discipline cluster member (.step msg))
    (admitted : msg.source ≠ member → node.admits msg = true) (current : msg.term = node.term) :
    node.role.Expects node msg msg.message := by
  obtain ⟨mirror, _, _, _⟩ := serves.replicates
  obtain ⟨inside, id, _, _, _⟩ := mirror.elects.node up
  have agrees := mirror.role up
  -- Only client requests come from the member itself.
  by_cases own : msg.source = member
  · obtain ⟨_, ⟨_, request, command, shape⟩ | ⟨other, _⟩⟩ := acting
    · rw [shape]
      cases node.role with
      | follower role => exact own.trans id.symm
      | _ => trivial
    · exact absurd own other
  · have known := serves.mem_peers_of_acting up acting own
    have admits := admitted own
    -- A leader's message of the term is from the one that the node knows.
    have announced (leads : msg.message.fromLeader = true) :
        s.leader node.term = some msg.source := current ▸ mirror.leader_of_received acting leads
    have followed (leads : msg.message.fromLeader = true) {role : Follower}
        (same : node.role = .follower role) (leader : NodeID)
        (follows : role.leader = some leader) : msg.source = leader :=
      Option.some.inj ((announced leads).symm.trans (mirror.follows_leader up same follows))
    have alone (leads : msg.message.fromLeader = true) {role : Leader}
        (same : node.role = .leader role) : False :=
      own (Option.some.inj ((announced leads).symm.trans (mirror.leads up same).1))
    cases shape : msg.message with
    | heartbeat | append =>
      have leads : msg.message.fromLeader = true := by rw [shape]; rfl
      cases role : node.role with
      | follower _ => exact followed leads role
      | candidate _ => trivial
      | leader _ => exact alone leads role
    | campaign | campaignResponse => cases node.role <;> trivial
    | heartbeatResponse =>
      cases role : node.role with
      | leader =>
        obtain ⟨sender, found⟩ := acting.mem_history (by simp [shape])
        refine ⟨serves.confirms.seqs up role found current (by rw [shape]; rfl), ?_⟩
        exact serves.getProgress_ne_none up role known
      | _ => simp [Node.admits, Role.isLeader, shape, role, current] at admits
    | appendResponse reject lastIndex lastTerm =>
      cases role : node.role with
      | leader =>
        have peer := serves.getProgress_ne_none up role known
        cases reject with
        | true => exact peer
        | false =>
          obtain ⟨message, _, _⟩ := mirror.received acting (by simp [shape])
          simp only [Envelope.Agrees, shape, current] at message
          obtain ⟨within, lastTerm⟩ := serves.last_of_leader up role
          exact ⟨message.2.1.trans (within _), message.2.2.trans lastTerm.ge, peer⟩
      | _ => simp [Node.admits, Role.isLeader, shape, role, current] at admits
    | clientRequest =>
      cases role : node.role with
      | follower _ => simp [Node.admits, Role.isLeader, shape, role, current] at admits
      | _ => trivial
    | clientResponse =>
      cases role : node.role with
      | follower follower =>
        have follows : follower.leader = some msg.source := by
          simpa [Node.admits, Role.follows, shape, role, current] using admits
        exact follows
      | _ => simp [Node.admits, Role.follows, shape, role, current] at admits

/-- In a tidy cluster, no assertion contradicts a node that processes an admitted message. -/
theorem sane (tidy : Tidy config cluster s) (reliable : ∀ (state : σ) entry message,
      (State.apply state entry).2 ≠ .error (.internal message))
    (acting : Cluster.Acting discipline cluster member input)
    (admitted : ∀ msg, input = .step msg → msg.source ≠ member → node.admits msg = true) :
    Sane input node (cluster.processes member).disk := by
  obtain ⟨mirror, commits, applies, _⟩ := serves.replicates
  obtain ⟨inside, id, peers, term, voted⟩ := mirror.elects.node up
  have agrees := mirror.role up
  have cached := congrArg Prod.fst (commits.cached up)
  dsimp only at cached
  refine ⟨term, ?_, ?_, ?_, ?_, reliable, ?_, ?_, ?_, ?_⟩
  · have clean := tidy.role up
    cases role : node.role with
    | follower =>
      rw [role] at voted clean
      refine ⟨?_, clean.2.1, voted, clean.1⟩
      intro leader follows
      obtain ⟨different, known⟩ := clean.2.2 leader follows
      rw [id, peers, config.mem_peers member inside]
      exact ⟨different, ⟨known, different⟩, tidy.term (mirror.follows_leader up role follows)⟩
    | candidate =>
      rw [role] at voted clean
      exact ⟨voted.2.1, id ▸ voted.2.2.1, id ▸ voted.1.symm, clean⟩
    | leader =>
      rw [role] at voted
      exact ⟨voted.2.1, id ▸ voted.1.symm⟩
  · intro msg same
    subst same
    refine ⟨acting.1.trans id.symm, ?_⟩
    by_cases own : msg.source = member
    · exact .inl (own.trans id.symm)
    · exact .inr (serves.mem_peers_of_acting up acting own)
  · intro msg same current
    subst same
    exact serves.expects up acting (admitted msg rfl) current
  · rw [cached]
    exact applies.below member
  · rw [peers]
    exact config.length_peers_lt inside
  · intro leader role
    rw [role] at agrees
    obtain ⟨_, _, _, names, known⟩ := agrees
    refine ⟨?_, fun peer => serves.getProgress_ne_none up role, ?_⟩
    · rw [peers, ← names, List.length_map]
    · intro peer progress found later
      have next := (known peer progress found).2.1
      rw [mirror.entryAt, (mirror.leads up role).2.1]
      intro missing
      rw [itemAt_eq_none] at missing
      omega
  · intro leader role index found positive
    obtain ⟨bounded, _⟩ := serves.last_of_leader up role
    rw [role] at agrees
    obtain ⟨_, _, _, names, known⟩ := agrees
    have within : index ≤ node.log.lastIndex := by
      rcases List.mem_append.mp found with other | own
      · obtain ⟨⟨peer, progress⟩, present, rfl⟩ := List.mem_map.mp other
        have nodup : (leader.progress.map Prod.fst).Nodup :=
          names ▸ config.nodup_peers member inside
        exact (known peer progress (Leader.getProgress_of_mem nodup present)).1.trans
          (bounded peer)
      · exact (List.mem_singleton.mp own).le
    rw [(mirror.caches up).lastIndex] at within
    rw [mirror.entryAt]
    intro missing
    rw [itemAt_eq_none] at missing
    omega
  · intro msg baseIndex baseTerm entries follower same received current role base
    subst same
    exact serves.exists_spliced up acting received current base

end Serves

/-- A cluster in which no assertion can fail. -/
structure Secure (config : Config) (cluster : Cluster σ) (s : Agreement) : Prop where
  serves : Serves config cluster s
  tidy : Tidy config cluster s

theorem Secure.initial (config : Config) :
    Secure config (Cluster.initial : Cluster σ) State.initial :=
  ⟨Serves.initial config, Tidy.initial config⟩

section Secure

variable {config : Config} {discipline : Discipline σ} {cluster : Cluster σ} {s : Agreement}
  (ordered : discipline.ordered) (whole : ¬ discipline.torn)
include ordered whole

theorem Secure.turns {last : Cluster σ} (secure : Secure config cluster s)
    (turns : Cluster.Turns config discipline cluster last) :
    ∃ next, Secure config last next := by
  induction turns with
  | refl => exact ⟨s, secure⟩
  | tail _ taken ih =>
    obtain ⟨mid, ⟨⟨replicates, confirms⟩, tidy⟩⟩ := ih
    obtain ⟨member, act, taken⟩ := taken
    obtain ⟨enabled, after⟩ := replicates.turn ordered whole taken
    exact ⟨_, ⟨after, confirms.turn replicates.mirror whole taken enabled⟩,
      tidy.turn replicates.mirror whole taken⟩

/-- Whatever a member does with an event returns, if it admits the message whenever it is
processing one. -/
theorem Secure.returns (secure : Secure config cluster s) (stable : discipline.Stable)
    (reliable : ∀ (state : σ) entry message,
      (State.apply state entry).2 ≠ .error (.internal message)) {event : Event}
    {program : Action σ Node} (inside : member ∈ config.nodes)
    (drawn : electionTimeouts draw = true)
    (runs : cluster.program config member draw event = some program)
    (delivers : ∀ source position msg, event = .deliver source position →
      (link cluster.history source member)[position]? = some msg →
        (discipline.ordered → cluster.cursor source member ≤ position) ∧
          discipline.guard (cluster.seek source member position) member msg)
    (admits : ∀ last node msg, Cluster.Turns config discipline cluster last →
      (last.processes member).node = some node →
      Cluster.Acting discipline last member (.step msg) → msg.source ≠ member →
        node.admits msg = true) :
    ∃ node, (program.run (cluster.processes member).disk).result = .ok node := by
  obtain ⟨start, node, body, before, up, disk, acting, same, moves, _⟩ :=
    Cluster.engage delivers inside drawn runs
  obtain ⟨last, trace, ends⟩ := moves
  rw [← disk, ← same]
  cases result : (body.run (start.processes member).disk).result with
  | ok value => exact ⟨value, rfl⟩
  | error =>
    rw [result] at ends
    obtain ⟨turns, still⟩ := Cluster.turns_of_trace stable inside up acting trace
    obtain ⟨next, ⟨serves, tidy⟩⟩ := secure.turns ordered whole (before.turns.trans turns)
    have here : ((start.record member (body.run (start.processes member).disk).journal
        (some last)).processes member).node = some last := by
      rw [Cluster.processes_record_self]
    have sane := serves.sane here tidy reliable still ?_
    · rw [Cluster.processes_record_self] at sane
      exact absurd sane ends
    · intro msg stepping other
      rw [stepping] at still
      exact admits _ last msg (before.turns.trans turns) here still other

end Secure

end Radb.Raft
