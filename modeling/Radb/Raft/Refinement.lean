import Radb.Foundation.Consensus.Matching
import Radb.Raft.Quorum

/-! # Clusters refine the agreement protocol

The logs of a cluster, its votes and the messages it sent agree with a state of the
abstract protocol, and every turn of the cluster is mirrored by steps of the protocol.
This does not depend on the order in which messages are delivered.
-/

namespace Radb.Raft

open Foundation Foundation.Program Foundation.Consensus Log

variable {σ : Type} [State σ]

variable {next : Agreement} {term : Nat}

/-- A state of the agreement protocol over log items, stamped with their term. -/
abbrev Agreement := Consensus.State NodeID Item

/-- The steps of the protocol. -/
abbrev Agreement.Step (config : Config) (strict : Prop) : Agreement → Agreement → Prop :=
  Consensus.Step config.nodes Prod.fst strict

/-- What an act of a member does to the agreement. -/
def Act.perform (s : Agreement) (member : NodeID) : Act → Agreement
  | .stay => s
  | .advance term => { s with term := Function.update s.term member term }
  | .stand => { s with
      term := Function.update s.term member (s.term member + 1)
      ballot := assign s.ballot (s.term member + 1) member (some member)
      stood := assign s.stood (s.term member + 1) member (some (s.log member)) }
  | .vote candidate => { s with ballot := assign s.ballot (s.term member) member (some candidate) }
  | .lead => { s with
      leader := Function.update s.leader (s.term member) (some member)
      base := Function.update s.base (s.term member) (s.log member)
      log := Function.update s.log member (s.log member ++ [(s.term member, none)])
      ledger := Function.update s.ledger (s.term member)
        (s.log member ++ [(s.term member, none)])
      held := assign s.held (s.term member) member ((s.log member).length + 1) }
  | .propose command => { s with
      log := Function.update s.log member (s.log member ++ [(s.term member, command)])
      ledger := Function.update s.ledger (s.term member)
        (s.ledger (s.term member) ++ [(s.term member, command)])
      held := assign s.held (s.term member) member ((s.ledger (s.term member)).length + 1) }
  | .adopt count => { s with
      log := Function.update s.log member ((s.ledger (s.term member)).take count)
      held := assign s.held (s.term member) member (max (s.held (s.term member) member) count) }
  | .decide count => { s with
      decided := Function.update s.decided (s.term member)
        (max (s.decided (s.term member)) count) }

section Perform

variable (s : Agreement) (member : NodeID)

theorem Act.leader_lead : (Act.lead.perform s member).leader (s.term member) = some member :=
  Function.update_self ..

theorem Act.log_lead : (Act.lead.perform s member).log member =
    s.log member ++ [(s.term member, none)] := Function.update_self ..

theorem Act.ledger_lead : (Act.lead.perform s member).ledger (s.term member) =
    s.log member ++ [(s.term member, none)] := Function.update_self ..

theorem Act.log_propose (command : Option Bytes) : ((Act.propose command).perform s member).log
    member = s.log member ++ [(s.term member, command)] := Function.update_self ..

theorem Act.ledger_propose (command : Option Bytes) :
    ((Act.propose command).perform s member).ledger (s.term member) =
      s.ledger (s.term member) ++ [(s.term member, command)] := Function.update_self ..

theorem Act.log_adopt (count : Nat) : ((Act.adopt count).perform s member).log member =
    (s.ledger (s.term member)).take count := Function.update_self ..

theorem Act.held_adopt (count : Nat) : ((Act.adopt count).perform s member).held (s.term member)
    member = max (s.held (s.term member) member) count := assign_same ..

theorem Act.decided_decide (count : Nat) : ((Act.decide count).perform s member).decided
    (s.term member) = max (s.decided (s.term member)) count := Function.update_self ..

end Perform

/-- When an act is a step of the protocol, or leaves the agreement as it is. -/
def Act.Enabled (config : Config) (strict : Prop) (s : Agreement) (member : NodeID) : Act → Prop
  | .stay | .stand => True
  | .advance term => s.term member < term
  | .vote candidate => (∀ other, s.ballot (s.term member) member = some other → other = candidate) ∧
      ∃ log, s.stood (s.term member) candidate = some log ∧ UpToDate Prod.fst (s.log member) log
  | .lead => s.leader (s.term member) = none ∧
      s.stood (s.term member) member = some (s.log member) ∧
      ∃ quorum, Majority config.nodes quorum ∧
        ∀ voter ∈ quorum, s.ballot (s.term member) voter = some member
  | .propose _ => s.leader (s.term member) = some member
  | .adopt count => (∃ leader, s.leader (s.term member) = some leader ∧ leader ≠ member) ∧
      (s.base (s.term member)).length < count ∧ count ≤ (s.ledger (s.term member)).length ∧
      (strict → s.held (s.term member) member ≤ count)
  | .decide count => s.leader (s.term member) = some member ∧
      (s.base (s.term member)).length < count ∧
      ∃ quorum, Majority config.nodes quorum ∧
        ∀ voter ∈ quorum, count ≤ s.held (s.term member) voter

section Acts

variable {config : Config} {strict : Prop} {s : Agreement} {member : NodeID} {act : Act}

/-- The steps of an enabled act. -/
theorem Act.steps (enabled : act.Enabled config strict s member) :
    Relation.ReflTransGen (Agreement.Step config strict) s (act.perform s member) := by
  cases act with
  | stay => exact .refl
  | advance term => exact .single (.advance member term enabled)
  | stand => exact .single (.stand member _ (Nat.lt_succ_self _))
  | vote candidate =>
    obtain ⟨free, log, standing, recent⟩ := enabled
    cases voted : s.ballot (s.term member) member with
    | none => exact .single (.vote member candidate log voted standing recent)
    | some other =>
      -- A vote that is granted again changes nothing.
      rw [free other voted] at voted
      have same : assign s.ballot (s.term member) member (some candidate) = s.ballot := by
        rw [assign, ← voted, Function.update_eq_self, Function.update_eq_self]
      rw [perform, same]
  | lead =>
    obtain ⟨vacant, standing, quorum, majority, votes⟩ := enabled
    refine .tail (.single (.elect member quorum vacant standing majority votes)) ?_
    have proposed : Agreement.Step config strict { s with
        leader := Function.update s.leader (s.term member) (some member)
        base := Function.update s.base (s.term member) (s.log member)
        ledger := Function.update s.ledger (s.term member) (s.log member) } _ :=
      .propose member (s.term member, none) (Function.update_self ..) rfl
    simp only [Function.update_self, Function.update_idem] at proposed
    exact proposed
  | propose command => exact .single (.propose member (s.term member, command) enabled rfl)
  | adopt count =>
    obtain ⟨⟨leader, leads, other⟩, beyond, within, keeps⟩ := enabled
    exact .single (.adopt member leader count leads other beyond within keeps)
  | decide count =>
    obtain ⟨leads, beyond, quorum, majority, acknowledged⟩ := enabled
    exact .single (.decide member count quorum leads beyond majority acknowledged)

/-- Steps keep what every step keeps. -/
theorem Agreement.sound_of_steps (sound : Sound config.nodes Prod.fst s)
    (steps : Relation.ReflTransGen (Agreement.Step config strict) s next) :
    Sound config.nodes Prod.fst next ∧ Grows s next := by
  induction steps with
  | refl => exact ⟨sound, Grows.refl s⟩
  | tail _ step ih => exact ⟨ih.1.step step, ih.2.trans (ih.1.grows step)⟩

theorem Agreement.follows_of_steps (sound : Sound config.nodes Prod.fst s) (follows : Follows s)
    (steps : Relation.ReflTransGen (Agreement.Step config strict) s next) : Follows next := by
  induction steps with
  | refl => exact follows
  | tail before step ih => exact ih.step (Agreement.sound_of_steps sound before).1 step

end Acts

/-- The cached last position is that of the items. -/
structure Log.Caches (log : Log) (items : List Item) : Prop where
  lastIndex : log.lastIndex = items.length
  lastTerm : log.lastTerm = termAt items items.length

/-- What the agreement says about a member's role in its term. -/
def Role.Agrees (config : Config) (s : Agreement) (member : NodeID) (term : Nat) : Role → Prop
  | .follower role => ∀ leader, role.leader = some leader → s.leader term = some leader
  | .candidate _ => s.stood term member = some (s.log member) ∧ s.leader term ≠ some member
  | .leader role => s.leader term = some member ∧
      (s.base term).length < (s.ledger term).length ∧
      s.held term member = (s.ledger term).length ∧
      role.progress.map Prod.fst = config.peers member ∧
      ∀ peer progress, role.getProgress peer = some progress →
        progress.last ≤ s.held term peer ∧ progress.next ≤ (s.ledger term).length + 1 ∧
          (progress.next = (s.ledger term).length + 1 → 0 < s.held term peer)

/-- What the agreement says about a message. -/
def Envelope.Agrees (s : Agreement) (envelope : Envelope) : Prop :=
  match envelope.message with
  | .heartbeat .. => s.leader envelope.term = some envelope.source
  | .heartbeatResponse .. => s.leader envelope.term = some envelope.target
  | .campaign lastIndex lastTerm => ∃ log, s.stood envelope.term envelope.source = some log ∧
      log.length = lastIndex ∧ termAt log log.length = lastTerm
  | .append baseIndex baseTerm entries => s.leader envelope.term = some envelope.source ∧
      ∃ new, entries = entriesFrom (baseIndex + 1) new ∧
        baseIndex ≤ (s.ledger envelope.term).length ∧
        baseTerm = termAt (s.ledger envelope.term) baseIndex ∧
        (s.ledger envelope.term).take baseIndex ++ new <+: s.ledger envelope.term ∧
        (new = [] → 0 < s.held envelope.term envelope.target) ∧
        (new ≠ [] → (s.base envelope.term).length < baseIndex + new.length)
  | .appendResponse false lastIndex lastTerm => s.leader envelope.term = some envelope.target ∧
      lastIndex ≤ s.held envelope.term envelope.source ∧ lastTerm ≤ envelope.term
  | .appendResponse true _ _ => s.leader envelope.term = some envelope.target
  | _ => True

/-- The cluster is in the state of the agreement. -/
structure Agrees (config : Config) (cluster : Cluster σ) (s : Agreement) : Prop where
  term : ∀ member, s.term member = (cluster.processes member).disk.termVote.1
  stores : ∀ member, Stores (cluster.processes member).disk.engine (s.log member)
  node : ∀ {member node}, (cluster.processes member).node = some node →
    node.log.Caches (s.log member) ∧ node.role.Agrees config s member node.term
  ballot : ∀ {term voter candidate}, s.ballot term voter = some candidate ↔
    Ballot cluster.history term voter candidate
  sent : ∀ {sender envelope}, (sender, Effect.send envelope) ∈ cluster.history →
    envelope.Agrees s

theorem termAt_of_longer {items more : List Item} (isPrefix : items <+: more) {index : Nat}
    (within : index ≤ items.length) : termAt more index = termAt items index := by
  obtain ⟨rest, rfl⟩ := isPrefix
  rw [termAt, termAt, itemAt_append_left _ within]

/-- What the agreement says about a message stays true. -/
theorem Envelope.Agrees.mono {envelope : Envelope} (agrees : envelope.Agrees s)
    (grows : Grows s next) : envelope.Agrees next := by
  unfold Envelope.Agrees at agrees ⊢
  split at agrees
  · exact grows.leader agrees
  · exact grows.leader agrees
  · obtain ⟨log, stood, last⟩ := agrees
    exact ⟨log, grows.stood stood, last⟩
  · obtain ⟨leads, new, shape, within, base, part, empty, beyond⟩ := agrees
    have longer := grows.ledger envelope.term
    refine ⟨grows.leader leads, new, shape, within.trans longer.length_le, ?_, ?_, ?_, ?_⟩
    · rw [termAt_of_longer longer within]
      exact base
    · obtain ⟨rest, split⟩ := longer
      rw [← split, List.take_append_of_le_length within]
      exact part.trans (List.prefix_append _ _)
    · intro none
      exact Nat.lt_of_lt_of_le (empty none) (grows.held _ _)
    · intro some
      rw [grows.base leads]
      exact beyond some
  · exact ⟨grows.leader agrees.1, agrees.2.1.trans (grows.held _ _), agrees.2.2⟩
  · exact grows.leader agrees
  · trivial

/-- What a step of a member leaves as it is. -/
structure Agreement.Frame (s next : Agreement) (member : NodeID) : Prop extends Grows s next where
  term_eq : ∀ {other}, other ≠ member → next.term other = s.term other
  log_eq : ∀ {other}, other ≠ member → next.log other = s.log other
  held_eq : ∀ {term other}, other ≠ member → next.held term other = s.held term other
  leader_of : ∀ {term other}, other ≠ member → next.leader term = some other →
    s.leader term = some other
  ledger_eq : ∀ {term other}, other ≠ member → s.leader term = some other →
    next.ledger term = s.ledger term

theorem Agreement.Frame.refl (s : Agreement) (member : NodeID) : Agreement.Frame s s member :=
  { Grows.refl s with
    term_eq := fun _ => rfl
    log_eq := fun _ => rfl
    held_eq := fun _ => rfl
    leader_of := fun _ found => found
    ledger_eq := fun _ _ => rfl }

theorem Role.Agrees.frame {other : NodeID} {role : Role}
    (agrees : role.Agrees config s other term) (frame : Agreement.Frame s next member)
    (different : other ≠ member) :
    role.Agrees config next other term := by
  cases role with
  | follower role => exact fun leader follows => frame.leader (agrees leader follows)
  | candidate role =>
    refine ⟨?_, fun leads => agrees.2 (frame.leader_of different leads)⟩
    rw [frame.log_eq different]
    exact frame.stood agrees.1
  | leader role =>
    obtain ⟨leads, beyond, held, peers, known⟩ := agrees
    have ledger := frame.ledger_eq different leads
    refine ⟨frame.leader leads, ?_, ?_, peers, ?_⟩
    · rw [frame.base leads, ledger]
      exact beyond
    · rw [frame.held_eq different, ledger]
      exact held
    · intro peer progress found
      obtain ⟨last, within, full⟩ := known peer progress found
      rw [ledger]
      exact ⟨last.trans (frame.held _ _), within, fun same =>
        Nat.lt_of_lt_of_le (full same) (frame.held _ _)⟩

theorem Idle.agrees {role next : Role} (idles : Idle role next)
    (agrees : role.Agrees config s member term) :
    next.Agrees config s member term := by
  cases idles <;> exact agrees

/-- An enabled act of a member leaves the others as they are. -/
theorem Act.frame {strict : Prop} {act : Act} (sound : Sound config.nodes Prod.fst s)
    (enabled : act.Enabled config strict s member) :
    Agreement.Frame s (act.perform s member) member := by
  have grows := (Agreement.sound_of_steps sound (Act.steps enabled)).2
  have refl := Agreement.Frame.refl s member
  cases act with
  | stay => exact refl
  | advance | stand => exact { grows, refl with
      term_eq := fun different => Function.update_of_ne different .. }
  | vote | decide => exact { grows, refl with }
  | lead =>
    have vacant := enabled.1
    refine { grows, refl with
      log_eq := fun different => Function.update_of_ne different ..
      held_eq := fun different => assign_of_ne _ _ fun same => different same.2
      leader_of := ?_
      ledger_eq := ?_ }
    · intro term other different leads
      dsimp only [perform] at leads
      by_cases same : term = s.term member
      · rw [same, Function.update_self] at leads
        exact absurd (Option.some.inj leads).symm different
      · rwa [Function.update_of_ne same] at leads
    · intro term other different leads
      refine Function.update_of_ne ?_ ..
      intro same
      rw [same, vacant] at leads
      cases leads
  | propose command =>
    refine { grows, refl with
      log_eq := fun different => Function.update_of_ne different ..
      held_eq := fun different => assign_of_ne _ _ fun same => different same.2
      ledger_eq := ?_ }
    intro term other different leads
    refine Function.update_of_ne ?_ ..
    intro same
    rw [same] at leads
    exact different (Option.some.inj (leads.symm.trans enabled))
  | adopt count => exact { grows, refl with
      log_eq := fun different => Function.update_of_ne different ..
      held_eq := fun different => assign_of_ne _ _ fun same => different same.2 }

/-- Effects that write nothing but the commit index. -/
def Unwritten (effects : List Effect) : Prop :=
  ∀ write, Effect.write write ∈ effects → write.key = .commitIndex

namespace Agrees

variable {config : Config} {cluster : Cluster σ} {s : Agreement} (agrees : Agrees config cluster s)
  {member : NodeID} {effects : List Effect} {result : Option Node}
include agrees

/-- The effects of a member agree with the next state. -/
theorem record (frame : Agreement.Frame s next member) (term : next.term member =
      (replayAll Disk.replay (cluster.processes member).disk effects).termVote.1)
    (stores : Stores (replayAll Disk.replay (cluster.processes member).disk effects).engine
      (next.log member))
    (ballots : ∀ {term voter candidate}, next.ballot term voter = some candidate ↔
      Ballot (cluster.history ++ effects.map fun effect => (member, effect)) term voter candidate)
    (nodes : ∀ node, result = some node →
      node.log.Caches (next.log member) ∧ node.role.Agrees config next member node.term)
    (sends : ∀ envelope, Effect.send envelope ∈ effects → envelope.Agrees next) :
    Agrees config (cluster.record member effects result) next := by
  refine ⟨?_, ?_, ?_, ballots, ?_⟩
  · intro other
    by_cases same : other = member
    · rw [same, Cluster.processes_record_self]
      exact term
    · rw [Cluster.processes_record_of_ne same, frame.term_eq same]
      exact agrees.term other
  · intro other
    by_cases same : other = member
    · rw [same, Cluster.processes_record_self]
      exact stores
    · rw [Cluster.processes_record_of_ne same, frame.log_eq same]
      exact agrees.stores other
  · intro other node up
    by_cases same : other = member
    · subst same
      rw [Cluster.processes_record_self] at up
      exact nodes node up
    · rw [Cluster.processes_record_of_ne same] at up
      obtain ⟨caches, role⟩ := agrees.node up
      rw [frame.log_eq same]
      exact ⟨caches, role.frame frame same⟩
  · intro sender envelope found
    rcases List.mem_append.mp found with old | new
    · exact (agrees.sent old).mono frame.toGrows
    · obtain ⟨effect, performed, shape⟩ := List.mem_map.mp new
      cases shape
      exact sends envelope performed

/-- Effects without a vote leave the ballots as they are. -/
theorem ballot_quiet
    (quiet : ∀ term candidate, Effect.write (.set .termVote (term, some candidate)) ∉ effects)
    {voter candidate : NodeID} : s.ballot term voter = some candidate ↔
      Ballot (cluster.history ++ effects.map fun effect => (member, effect)) term voter
        candidate := by
  rw [agrees.ballot]
  refine ⟨fun found => found.mono _, ?_⟩
  intro found
  rcases List.mem_append.mp found with old | new
  · exact old
  · obtain ⟨effect, performed, shape⟩ := List.mem_map.mp new
    cases shape
    exact absurd performed (quiet term candidate)

/-- A vote that contradicts no earlier one is added to the ballots. -/
theorem ballot_cast {newTerm : Nat} {chosen : NodeID}
    (fresh : ∀ candidate, Ballot cluster.history newTerm member candidate → candidate = chosen)
    (cast : ∀ term candidate, Effect.write (.set .termVote (term, some candidate)) ∈ effects ↔
      term = newTerm ∧ candidate = chosen) {voter candidate : NodeID} :
    assign s.ballot newTerm member (some chosen) term voter = some candidate ↔
      Ballot (cluster.history ++ effects.map fun effect => (member, effect)) term voter
        candidate := by
  have split : Ballot (cluster.history ++ effects.map fun effect => (member, effect)) term voter
      candidate ↔ Ballot cluster.history term voter candidate ∨
        voter = member ∧ term = newTerm ∧ candidate = chosen := by
    rw [Ballot, List.mem_append, List.mem_map, ← cast]
    refine or_congr Iff.rfl ?_
    constructor
    · intro found
      obtain ⟨effect, performed, shape⟩ := found
      cases shape
      exact ⟨rfl, performed⟩
    · intro found
      obtain ⟨rfl, performed⟩ := found
      exact ⟨_, performed, rfl⟩
  rw [split]
  by_cases same : term = newTerm ∧ voter = member
  · obtain ⟨rfl, rfl⟩ := same
    rw [assign_same, Option.some.injEq]
    constructor
    · intro chose
      exact .inr ⟨rfl, rfl, chose.symm⟩
    · intro found
      rcases found with old | ⟨_, _, chose⟩
      · exact (fresh candidate old).symm
      · exact chose.symm
  · rw [assign_of_ne _ _ same, agrees.ballot]
    refine ⟨.inl, ?_⟩
    intro found
    rcases found with old | ⟨voter, term, _⟩
    · exact old
    · exact absurd ⟨term, voter⟩ same

/-- Effects that change nothing the agreement is about. -/
theorem record_quiet (unwritten : Unwritten effects)
    (nodes : ∀ node, result = some node →
      node.log.Caches (s.log member) ∧ node.role.Agrees config s member node.term)
    (sends : ∀ envelope, Effect.send envelope ∈ effects → envelope.Agrees s) :
    Agrees config (cluster.record member effects result) s := by
  refine agrees.record (Agreement.Frame.refl s member) ?_ ?_ ?_ nodes sends
  · rw [Disk.termVote_replayAll fun write found => by rw [unwritten write found]; simp]
    exact agrees.term member
  · intro index
    rw [Disk.get_replayAll fun write found => by rw [unwritten write found]; simp]
    exact agrees.stores member index
  · exact agrees.ballot_quiet fun term candidate found => by cases unwritten _ found

end Agrees

end Radb.Raft
