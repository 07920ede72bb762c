import Radb.Foundation.Consensus.Settled
import Radb.Raft.Mirror

/-! # Committed entries

What members consider as committed is settled in the agreement: some leader found a
majority to hold it. This needs that nodes keep what they hold when they adopt entries.
-/

namespace Radb.Raft

open Foundation Foundation.Program Foundation.Consensus Log

variable {σ : Type} [State σ]

variable {config : Config} {discipline : Discipline σ}

variable {disk : Disk σ} {effects : List Effect} {s : Agreement} {leader : Leader}
  {command : Option Bytes} {input : Input} {act : Act}

/-- The persisted commit index and its term. -/
def Disk.commit (disk : Disk σ) : Nat × Nat := (disk.engine.get .commitIndex).getD (0, 0)

omit [State σ] in
@[simp] theorem Disk.commit_set (disk : Disk σ) (index term : Nat) :
    Disk.commit ⟨disk.engine.replay (.set .commitIndex (index, term)), disk.state⟩ =
      (index, term) := by
  simp only [commit, Store.get_set_self, Option.getD_some]

theorem Disk.commit_replayAll
    (quiet : ∀ write, Effect.write write ∈ effects → write.key ≠ .commitIndex) :
    (replayAll Disk.replay disk effects).commit = disk.commit := by
  rw [commit, get_replayAll fun write found => (quiet write found).symm]
  rfl

/-- A commit position is that of a settled item. -/
structure Position (s : Agreement) (term : Nat) (items : List Item) (commit : Nat × Nat) : Prop where
  settled : Settled s term items commit.1
  term_eq : commit.2 = termAt items commit.1

/-- The commit positions of the members and of the leaders' heartbeats. -/
structure Commits (config : Config) (cluster : Cluster σ) (s : Agreement) : Prop where
  safe : Safe config.nodes Prod.fst s
  stamped : Stamped Prod.fst s
  position : ∀ member, Position s (s.term member) (s.log member)
    (cluster.processes member).disk.commit
  cached : ∀ {member node}, (cluster.processes member).node = some node →
    (node.log.commitIndex, node.log.commitTerm) = (cluster.processes member).disk.commit
  beats : ∀ {sender envelope commitIndex commitTerm readSeq},
    (sender, Effect.send envelope) ∈ cluster.history →
    envelope.message = .heartbeat commitIndex commitTerm readSeq →
      Position s envelope.term (s.ledger envelope.term) (commitIndex, commitTerm)

/-- Strict steps keep what every strict step keeps. -/
theorem Agreement.safe_of_steps {next : Agreement} (safe : Safe config.nodes Prod.fst s)
    (steps : Relation.ReflTransGen (Agreement.Step config True) s next) :
    Safe config.nodes Prod.fst next := by
  induction steps with
  | refl => exact safe
  | tail _ step ih => exact ih.step step

theorem Agreement.stamped_of_steps {next : Agreement} {strict : Prop}
    (sound : Sound config.nodes Prod.fst s) (stamped : Stamped Prod.fst s)
    (steps : Relation.ReflTransGen (Agreement.Step config strict) s next) :
    Stamped Prod.fst next := by
  induction steps with
  | refl => exact stamped
  | tail before step ih => exact Stamped.step ih (Agreement.sound_of_steps sound before).1 step

namespace Position

variable {s : Agreement} {term : Nat} {items : List Item} {commit : Nat × Nat}
  (position : Position s term items commit)
include position

theorem mono {next : Agreement} {later : Nat} (safe : Safe config.nodes Prod.fst s)
    (grows : Grows s next) (after : term ≤ later) :
    Position next later items commit :=
  ⟨position.settled.mono safe grows after, position.term_eq⟩

/-- Only the items up to the position matter. -/
theorem of_take_eq {other : List Item} (within : commit.1 ≤ other.length)
    (same : other.take commit.1 = items.take commit.1) : Position s term other commit := by
  refine ⟨position.settled.of_take_eq within same, ?_⟩
  have read := congrArg (fun items => itemAt items commit.1) same
  simp only [itemAt_take, Nat.le_refl, ↓reduceIte] at read
  rw [position.term_eq, termAt, termAt, read]

theorem append (more : List Item) : Position s term (items ++ more) commit := by
  refine position.of_take_eq ?_ (List.take_append_of_le_length position.settled.1)
  rw [List.length_append]
  exact Nat.le_add_right_of_le position.settled.1

theorem of_shorter {longer : List Item} (isPrefix : items <+: longer) :
    Position s term longer commit := by
  obtain ⟨rest, rfl⟩ := isPrefix
  exact position.append rest

end Position

namespace Commits

variable {config : Config} {cluster : Cluster σ} {s : Agreement}
  (commits : Commits config cluster s) {member : NodeID} {effects : List Effect}
  {result : Option Node}
include commits

/-- Effects of a member whose commit position is settled in the next state. -/
theorem record {next : Agreement} {commit : Nat × Nat} (safe : Safe config.nodes Prod.fst next)
    (stamped : Stamped Prod.fst next) (frame : Agreement.Frame s next member)
    (persisted : (replayAll Disk.replay (cluster.processes member).disk effects).commit = commit)
    (position : Position next (next.term member) (next.log member) commit)
    (nodes : ∀ node, result = some node →
      (node.log.commitIndex, node.log.commitTerm) = commit)
    (beats : ∀ envelope, Effect.send envelope ∈ effects → ∀ commitIndex commitTerm readSeq,
      envelope.message = .heartbeat commitIndex commitTerm readSeq →
        Position next envelope.term (next.ledger envelope.term) (commitIndex, commitTerm)) :
    Commits config (cluster.record member effects result) next := by
  refine ⟨safe, stamped, ?_, ?_, ?_⟩
  · intro other
    by_cases same : other = member
    · rw [same, Cluster.processes_record_self, persisted]
      exact position
    · rw [Cluster.processes_record_of_ne same, frame.term_eq same, frame.log_eq same]
      exact (commits.position other).mono commits.safe frame.toGrows (Nat.le_refl _)
  · intro other node up
    by_cases same : other = member
    · subst same
      rw [Cluster.processes_record_self] at up ⊢
      rw [persisted]
      exact nodes node up
    · rw [Cluster.processes_record_of_ne same] at up ⊢
      exact commits.cached up
  · intro sender envelope commitIndex commitTerm readSeq found beat
    rcases List.mem_append.mp found with old | new
    · exact ((commits.beats old beat).mono commits.safe frame.toGrows (Nat.le_refl _)).of_shorter
        (frame.ledger _)
    · obtain ⟨effect, performed, shape⟩ := List.mem_map.mp new
      cases shape
      exact beats envelope performed commitIndex commitTerm readSeq beat

variable (mirror : Mirrors config cluster s) {node next : Node}
  (up : (cluster.processes member).node = some node)
include mirror up

/-- The position of a leader is that of its heartbeats. -/
theorem position_ledger (role : node.role = .leader leader) :
    Position s node.term (s.ledger node.term) (node.log.commitIndex, node.log.commitTerm) := by
  obtain ⟨_, log, _⟩ := mirror.leads up role
  rw [commits.cached up, ← log, ← mirror.term_eq up]
  exact commits.position member

/-- What the leader committed is committed if it is stored. -/
theorem position_beat {msg : Envelope} {commitIndex commitTerm readSeq : Nat}
    (acting : Cluster.Acting discipline cluster member (.step msg))
    (received : msg.message = .heartbeat commitIndex commitTerm readSeq)
    (current : msg.term = node.term)
    (stored : (cluster.processes member).disk.entryAt commitIndex = some (commitTerm, command)) :
    Position s (s.term member) (s.log member) (commitIndex, commitTerm) := by
  obtain ⟨sender, sent⟩ := acting.mem_history (by simp [received])
  have position := commits.beats sent received
  rw [current, ← mirror.term_eq up] at position
  rw [mirror.entryAt] at stored
  have inside := ((itemAt_isSome _ _).mp (Option.isSome_of_eq_some stored)).2
  refine position.of_take_eq inside (take_eq_of_termAt (mirror.sound.matching_log member)
    (mirror.sound.matching_ledger _) inside position.settled.1 ?_)
  rw [termAt_eq_of_itemAt stored, ← position.term_eq]

omit [State σ] up in
/-- Adopting entries keeps what is committed. -/
theorem position_adopt {count : Nat} (enabled : (Act.adopt count).Enabled config True s member) :
    Position ((Act.adopt count).perform s member) (s.term member)
      (((Act.adopt count).perform s member).log member)
      (cluster.processes member).disk.commit := by
  have frame := Act.frame mirror.sound enabled
  obtain ⟨⟨leader, leads, _⟩, beyond, within, keeps⟩ := enabled
  have led : s.leader (s.term member) ≠ none := by simp [leads]
  have position := commits.position member
  obtain ⟨_, same⟩ := position.settled.take_ledger commits.safe led
  have covers := position.settled.le_of_adopt commits.safe commits.stamped rfl rfl led beyond
    (keeps trivial)
  refine (position.mono commits.safe frame.toGrows (Nat.le_refl _)).of_take_eq ?_ ?_
  · rw [Act.log_adopt, List.length_take, Nat.min_eq_left within]
    exact covers
  · rw [Act.log_adopt, List.take_take, Nat.min_eq_left covers, same]

/-- The position of a decision. -/
theorem position_decide {index : Nat} (enabled : (Act.decide index).Enabled config True s member)
    (role : node.role = .leader leader)
    (stored : (cluster.processes member).disk.entryAt index = some (node.term, command)) :
    Position ((Act.decide index).perform s member) (s.term member) (s.log member)
      (index, node.term) := by
  obtain ⟨_, log, _⟩ := mirror.leads up role
  have term := mirror.term_eq up
  rw [mirror.entryAt] at stored
  have inside := ((itemAt_isSome _ _).mp (Option.isSome_of_eq_some stored)).2
  refine ⟨⟨inside, s.term member, Nat.le_refl _, ?_, ?_⟩, (termAt_eq_of_itemAt stored).symm⟩
  · rw [Act.decided_decide]
    exact Nat.le_max_right _ _
  · rw [log, term]
    rfl

/-- Every move keeps that commit positions are settled. -/
theorem move (acting : Cluster.Acting discipline cluster member input)
    (moved : Move input node (cluster.processes member).disk act effects next)
    (enabled : act.Enabled config True s member) :
    Commits config (cluster.record member effects (some next)) (act.perform s member) := by
  have safe := Agreement.safe_of_steps commits.safe (Act.steps enabled)
  have stamped : Stamped Prod.fst (act.perform s member) :=
    Agreement.stamped_of_steps mirror.sound commits.stamped (Act.steps enabled)
  have frame := Act.frame mirror.sound enabled
  have cached := commits.cached up
  have term := mirror.term_eq up
  -- Moves that do not change the commit position.
  have keeps {effects : List Effect} {next : Node}
      (quiet : ∀ write, Effect.write write ∈ effects → write.key ≠ .commitIndex)
      (same : next.log.commitIndex = node.log.commitIndex ∧
        next.log.commitTerm = node.log.commitTerm)
      (position : Position (act.perform s member) ((act.perform s member).term member)
        ((act.perform s member).log member) (cluster.processes member).disk.commit)
      (beats : ∀ envelope, Effect.send envelope ∈ effects → ∀ commitIndex commitTerm readSeq,
        envelope.message = .heartbeat commitIndex commitTerm readSeq →
          Position (act.perform s member) envelope.term
            ((act.perform s member).ledger envelope.term) (commitIndex, commitTerm)) :
      Commits config (cluster.record member effects (some next)) (act.perform s member) := by
    refine commits.record safe stamped frame (Disk.commit_replayAll quiet) position ?_ beats
    intro other found
    cases found
    rw [same.1, same.2]
    exact cached
  have position := (commits.position member).mono commits.safe frame.toGrows (frame.term member)
  cases moved with
  | lead role won =>
    have extended := position.append [(s.term member, none)]
    refine keeps (by simp) ⟨rfl, rfl⟩ (Act.log_lead s member ▸ extended) ?_
    intro envelope found commitIndex commitTerm readSeq beat
    simp only [List.mem_append, List.mem_map, Effect.send.injEq, List.mem_singleton,
      reduceCtorEq, or_false] at found
    obtain ⟨peer, _, rfl⟩ := found
    cases beat
    dsimp only
    rw [← term, Act.ledger_lead, cached]
    exact extended
  | beat role inside =>
    refine keeps (by simp) ⟨rfl, rfl⟩ position ?_
    intro envelope found commitIndex commitTerm readSeq beat
    obtain rfl : envelope = _ := by simpa using found
    cases beat
    exact commits.position_ledger mirror up role
  | propose role =>
    refine keeps (by simp) ⟨rfl, rfl⟩ ?_ (by simp)
    rw [Act.log_propose]
    exact position.append _
  | decide role quorum advances stored =>
    refine commits.record safe stamped frame (Disk.commit_set _ _ _)
      (commits.position_decide mirror up enabled role stored) ?_ (by simp)
    intro other found
    cases found
    rfl
  | commit same received current role follows stored advances =>
    subst same
    refine commits.record safe stamped frame (Disk.commit_set _ _ _)
      (commits.position_beat mirror up acting received current stored) ?_ (by simp)
    intro other found
    cases found
    rfl
  | accept same received current role follows base some spliced =>
    subst same
    obtain ⟨new, rfl, within, _⟩ := mirror.appended up acting received current base
    have filled := ne_nil_of_entriesFrom some
    obtain ⟨rfl, rfl, _⟩ := mirror.spliced_run up within filled spliced
    refine keeps ?_ ⟨rfl, rfl⟩ (commits.position_adopt mirror enabled) ?_
    · intro write found
      obtain ⟨index, entry⟩ := key_spliceWrites (by simpa using found)
      simp [entry]
    · intro envelope found commitIndex commitTerm readSeq beat
      obtain rfl : envelope = _ := by simpa using found
      cases beat
  | _ => exact keeps (by simp) ⟨rfl, rfl⟩ position (by simp)

omit mirror up in
/-- A member that starts or stops. -/
theorem record_none (nodes : ∀ node, result = some node →
      (node.log.commitIndex, node.log.commitTerm) = (cluster.processes member).disk.commit) :
    Commits config (cluster.record member [] result) s :=
  commits.record commits.safe commits.stamped (Agreement.Frame.refl s member) rfl
    (commits.position member) nodes (by simp)

omit up in
/-- Every turn keeps that commit positions are settled. -/
theorem turn {after : Cluster σ} (whole : ¬ discipline.torn)
    (taken : Cluster.Turn config discipline cluster member act after)
    (enabled : act.Enabled config True s member) :
    Commits config after (act.perform s member) := by
  cases taken with
  | boot inside down opened drawn =>
    refine commits.record_none ?_
    intro node found
    cases found
    have ran := Log.new_run (mirror.agrees.stores member)
    cases ran.symm.trans opened
    rfl
  | move inside up acting moved => exact commits.move mirror up acting moved enabled
  | crash inside stops => exact commits.record_none (by simp)
  | tear inside up acting torn moved left unsent => exact absurd torn whole
  | seek forward =>
    exact ⟨commits.safe, commits.stamped, commits.position, commits.cached, commits.beats⟩

omit commits mirror up in
theorem initial (config : Config) :
    Commits config (Cluster.initial : Cluster σ) State.initial where
  safe := Safe.initial
  stamped := Stamped.initial
  position _ := ⟨Settled.zero _ _ _, rfl⟩
  cached := by simp [Cluster.initial]
  beats := by simp [Cluster.initial]

end Commits

/-- The commit index never decreases. -/
theorem Move.commit_le {node next : Node} (moved : Move input node disk act effects next)
    (cached : (node.log.commitIndex, node.log.commitTerm) = disk.commit) :
    disk.commit.1 ≤ (replayAll Disk.replay disk effects).commit.1 := by
  have before : node.log.commitIndex = disk.commit.1 := congrArg Prod.fst cached
  have same {effects : List Effect}
      (quiet : ∀ write, Effect.write write ∈ effects → write.key ≠ .commitIndex) :
      disk.commit.1 ≤ (replayAll Disk.replay disk effects).commit.1 := by
    rw [Disk.commit_replayAll quiet]
  cases moved with
  | decide role quorum advances | commit acting received current role follows stored advances =>
    rw [← before]
    exact advances.le.trans_eq (congrArg Prod.fst (Disk.commit_set disk _ _)).symm
  | @accept msg follower baseIndex baseTerm last entries writes log acting received current role
      follows base some spliced =>
      refine same ?_
      intro write found
      rcases Log.splice_spec disk.engine node.log entries with ⟨fault, failed⟩ | ⟨_, _, ran, entry, _⟩
      · cases failed.symm.trans spliced
      · cases ran.symm.trans spliced
        obtain ⟨index, key⟩ := entry write (by simpa using found)
        simp [key]
  | _ => exact same (by simp)

end Radb.Raft
