import Radb.Raft.Mirror

/-! # Confirmed reads

A leader numbers its reads, and its peers send the numbers of its heartbeats back. No
number in the term is ahead of the leader, and what the leader knows of its peers they have
sent.
-/

namespace Radb.Raft

open Foundation Foundation.Program Foundation.Consensus

variable {σ : Type} [State σ]
  {strict : Prop} {discipline : Discipline σ} {act : Act}

/-- The read sequence number of a heartbeat or its response. -/
def Message.readSeq : Message → Option Nat
  | .heartbeat _ _ readSeq => some readSeq
  | .heartbeatResponse _ _ readSeq => some readSeq
  | _ => none

/-- What leaders know about the read sequence numbers of their term. -/
structure Confirms (cluster : Cluster σ) : Prop where
  seqs : ∀ {member node leader}, (cluster.processes member).node = some node →
    node.role = .leader leader → ∀ {sender} {envelope : Envelope} {readSeq : Nat},
      (sender, Effect.send envelope) ∈ cluster.history → envelope.term = node.term →
      envelope.message.readSeq = some readSeq → readSeq ≤ leader.readSeq
  progress : ∀ {member node leader}, (cluster.processes member).node = some node →
    node.role = .leader leader → ∀ {peer progress}, leader.getProgress peer = some progress →
      progress.readSeq = 0 ∨ ∃ lastIndex lastTerm, (peer, Effect.send ⟨peer, member, node.term,
        .heartbeatResponse lastIndex lastTerm progress.readSeq⟩) ∈ cluster.history

/-- Whatever carries a read sequence number names the leader of its term. -/
theorem Envelope.Agrees.ne_none {s : Agreement} {envelope : Envelope} (agrees : envelope.Agrees s)
    {readSeq : Nat} (carries : envelope.message.readSeq = some readSeq) :
    s.leader envelope.term ≠ none := by
  obtain ⟨source, target, term, message⟩ := envelope
  cases message with
  | heartbeat | heartbeatResponse =>
    intro vacant
    cases vacant.symm.trans agrees
  | _ => cases carries

namespace Confirms

variable {config : Config} {cluster : Cluster σ} {s : Agreement} (confirms : Confirms cluster)
  (mirror : Mirrors config cluster s) {member : NodeID} {effects : List Effect}
  {result : Option Node}
include confirms mirror

/-- Effects of a member that sends numbers of its own term as its leader, or numbers that it
received. -/
theorem record
    (sends : ∀ envelope, Effect.send envelope ∈ effects → ∀ readSeq,
      envelope.message.readSeq = some readSeq →
        (∀ other, s.leader envelope.term = some other → other = member) ∨
        ∃ sender msg, (sender, Effect.send msg) ∈ cluster.history ∧ msg.term = envelope.term ∧
          msg.message.readSeq = some readSeq)
    (nodes : ∀ node leader, result = some node → node.role = .leader leader →
      (∀ {sender} {envelope : Envelope} {readSeq : Nat},
        (sender, Effect.send envelope) ∈ (cluster.record member effects result).history →
        envelope.term = node.term → envelope.message.readSeq = some readSeq →
          readSeq ≤ leader.readSeq) ∧
      ∀ {peer progress}, leader.getProgress peer = some progress → progress.readSeq = 0 ∨
        ∃ lastIndex lastTerm, (peer, Effect.send ⟨peer, member, node.term,
          .heartbeatResponse lastIndex lastTerm progress.readSeq⟩) ∈ cluster.history) :
    Confirms (cluster.record member effects result) := by
  refine ⟨?_, ?_⟩
  · intro other node leader up role sender envelope readSeq found current carries
    by_cases same : other = member
    · subst same
      rw [Cluster.processes_record_self] at up
      exact (nodes node leader up role).1 found current carries
    · rw [Cluster.processes_record_of_ne same] at up
      rcases List.mem_append.mp found with old | new
      · exact confirms.seqs up role old current carries
      · obtain ⟨effect, performed, shape⟩ := List.mem_map.mp new
        cases shape
        rcases sends envelope performed readSeq carries with own | ⟨source, msg, sent, term, seq⟩
        · have leads := (mirror.leads up role).1
          rw [← current] at leads
          exact absurd (own other leads) same
        · exact confirms.seqs up role sent (term.trans current) seq
  · intro other node leader up role peer progress known
    have grows {lastIndex lastTerm : Nat} (sent : (peer, Effect.send ⟨peer, other, node.term,
        .heartbeatResponse lastIndex lastTerm progress.readSeq⟩) ∈ cluster.history) :
        (peer, Effect.send ⟨peer, other, node.term,
          .heartbeatResponse lastIndex lastTerm progress.readSeq⟩) ∈
            (cluster.record member effects result).history := List.mem_append_left _ sent
    by_cases same : other = member
    · subst same
      rw [Cluster.processes_record_self] at up
      rcases (nodes node leader up role).2 known with zero | ⟨lastIndex, lastTerm, sent⟩
      · exact .inl zero
      · exact .inr ⟨lastIndex, lastTerm, grows sent⟩
    · rw [Cluster.processes_record_of_ne same] at up
      rcases confirms.progress up role known with zero | ⟨lastIndex, lastTerm, sent⟩
      · exact .inl zero
      · exact .inr ⟨lastIndex, lastTerm, grows sent⟩

/-- What the peers of a member confirmed as its leader. -/
def Known (cluster : Cluster σ) (member : NodeID) (term : Nat) (leader : Leader) : Prop :=
  ∀ {peer progress}, leader.getProgress peer = some progress → progress.readSeq = 0 ∨
    ∃ lastIndex lastTerm, (peer, Effect.send ⟨peer, member, term,
      .heartbeatResponse lastIndex lastTerm progress.readSeq⟩) ∈ cluster.history

variable {node next : Node} (up : (cluster.processes member).node = some node)
include up

/-- A move after which the leader's numbers do not go back. -/
theorem record_forward (term : next.term = node.term)
    (sends : ∀ envelope, Effect.send envelope ∈ effects → ∀ readSeq,
      envelope.message.readSeq = some readSeq →
        ((∀ other, s.leader envelope.term = some other → other = member) ∨
          ∃ sender msg, (sender, Effect.send msg) ∈ cluster.history ∧ msg.term = envelope.term ∧
            msg.message.readSeq = some readSeq) ∧
        ∀ after, next.role = .leader after → readSeq ≤ after.readSeq)
    (leads : ∀ after, next.role = .leader after → ∃ before, node.role = .leader before ∧
      before.readSeq ≤ after.readSeq ∧ Known cluster member node.term after) :
    Confirms (cluster.record member effects (some next)) := by
  refine confirms.record mirror (fun envelope sent readSeq carries =>
    (sends envelope sent readSeq carries).1) ?_
  intro other after found role
  cases found
  obtain ⟨before, was, forward, known⟩ := leads after role
  rw [term]
  refine ⟨?_, known⟩
  intro sender envelope readSeq found current carries
  rcases List.mem_append.mp found with old | new
  · exact (confirms.seqs up was old current carries).trans forward
  · obtain ⟨effect, performed, shape⟩ := List.mem_map.mp new
    cases shape
    exact (sends envelope performed readSeq carries).2 after role

/-- A new leader starts with number 0, and there is no other number in its term. -/
theorem record_lead {log : Log} {lastIndex : Nat} {peers : List NodeID}
    (enabled : Act.lead.Enabled config strict s member)
    (sends : ∀ envelope, Effect.send envelope ∈ effects → envelope.term = node.term ∧
      ∀ readSeq, envelope.message.readSeq = some readSeq → readSeq = 0) :
    Confirms (cluster.record member effects
      (some { node with log, role := .leader (Leader.new peers lastIndex) })) := by
  have vacant := enabled.1
  rw [mirror.term_eq up] at vacant
  refine confirms.record mirror ?_ ?_
  · intro envelope sent readSeq carries
    left
    intro other leads
    rw [(sends envelope sent).1, vacant] at leads
    cases leads
  · intro other leader found role
    cases found
    cases role
    refine ⟨?_, ?_⟩
    · intro sender envelope readSeq found current carries
      rcases List.mem_append.mp found with old | new
      · have leads := (mirror.agrees.sent old).ne_none carries
        rw [current] at leads
        exact absurd vacant leads
      · obtain ⟨effect, performed, shape⟩ := List.mem_map.mp new
        cases shape
        exact ((sends envelope performed).2 readSeq carries).le
    · intro peer progress known
      rw [Leader.getProgress_new known]
      exact .inl rfl

theorem move {input : Input} (acting : Cluster.Acting discipline cluster member input)
    (moved : Move input node (cluster.processes member).disk act effects next)
    (enabled : act.Enabled config strict s member) :
    Confirms (cluster.record member effects (some next)) := by
  have plain {role : Leader} (was : node.role = .leader role) :
      Known cluster member node.term role := fun known => confirms.progress up was known
  -- The role is the same, or differs in nothing that matters here.
  have same {role : Role} (unchanged : role = node.role) (after : Leader)
      (leads : role = .leader after) : ∃ before, node.role = .leader before ∧
        before.readSeq ≤ after.readSeq ∧ Known cluster member node.term after := by
    rw [unchanged] at leads
    exact ⟨after, leads, Nat.le_refl _, plain leads⟩
  have alike {before other : Leader} (was : node.role = .leader before)
      (readSeq : before.readSeq ≤ other.readSeq) (progress : other.progress = before.progress)
      (after : Leader) (leads : Role.leader other = .leader after) :
      ∃ before, node.role = .leader before ∧ before.readSeq ≤ after.readSeq ∧
        Known cluster member node.term after := by
    cases leads
    refine ⟨before, was, readSeq, ?_⟩
    intro peer known found
    exact plain was (by rwa [Leader.getProgress, ← progress])
  have changed {before : Leader} {peer : NodeID} {change : Progress → Progress}
      (was : node.role = .leader before)
      (keeps : ∀ progress, before.getProgress peer = some progress →
        (change progress).readSeq = progress.readSeq ∨ ∃ lastIndex lastTerm,
          (peer, Effect.send ⟨peer, member, node.term,
            .heartbeatResponse lastIndex lastTerm (change progress).readSeq⟩) ∈ cluster.history)
      (after : Leader)
      (leads : Role.leader (before.modifyProgress peer change) = .leader after) :
      ∃ before, node.role = .leader before ∧ before.readSeq ≤ after.readSeq ∧
        Known cluster member node.term after := by
    cases leads
    refine ⟨before, was, Nat.le_refl _, ?_⟩
    intro other progress found
    rw [Leader.getProgress_modifyProgress] at found
    split at found
    · next same =>
        subst same
        obtain ⟨old, foundOld, rfl⟩ := Option.map_eq_some_iff.mp found
        rcases keeps old foundOld with unchanged | sent
        · rw [unchanged]
          exact plain was foundOld
        · exact .inr sent
    · exact plain was found
  cases moved with
  | idle idles =>
    refine confirms.record_forward mirror up rfl (by simp) ?_
    intro after leads
    obtain ⟨before, was, same⟩ := idles.leader leads
    exact alike was (by rw [same]) (by rw [same]) after rfl
  | lead role won =>
    refine confirms.record_lead mirror up enabled ?_
    intro envelope found
    simp only [List.mem_append, List.mem_map, Effect.send.injEq, List.mem_singleton,
      reduceCtorEq, or_false] at found
    obtain ⟨peer, _, rfl⟩ := found
    exact ⟨rfl, fun readSeq carries => (Option.some.inj carries).symm⟩
  | beat role inside =>
    refine confirms.record_forward mirror up rfl ?_ (same rfl)
    intro envelope found readSeq carries
    obtain rfl : envelope = _ := by simpa using found
    obtain rfl := Option.some.inj carries
    refine ⟨.inl ?_, ?_⟩
    · intro other leads
      exact Option.some.inj (leads.symm.trans (mirror.leads up role).1)
    · intro after leads
      cases role.symm.trans leads
      exact Nat.le_refl _
  | propose acting asked current role =>
    exact confirms.record_forward mirror up rfl (by simp) (alike role (Nat.le_refl _) rfl)
  | @confirm msg _ lastIndex lastTerm readSeq same confirmed current role within =>
    subst same
    refine confirms.record_forward mirror up rfl (by simp) (changed role fun _ _ => .inr ?_)
    obtain ⟨sender, sent⟩ := acting.mem_history (by simp [confirmed])
    obtain ⟨source, target, sentTerm, message⟩ := msg
    obtain rfl : source = sender := (mirror.elects.sender sent).1
    obtain rfl : target = member := acting.1
    dsimp only at confirmed current
    subst confirmed current
    exact ⟨lastIndex, lastTerm, sent⟩
  | acknowledge acting accepted current role within positive =>
    exact confirms.record_forward mirror up rfl (by simp) (changed role fun _ _ => .inl rfl)
  | probe acting rejected current role =>
    refine confirms.record_forward mirror up rfl (by simp) (changed role fun progress _ => .inl ?_)
    split <;> rfl
  | fulfill role | forsake role | forsakeRead role | read role =>
    exact confirms.record_forward mirror up rfl (by simp [Message.readSeq])
      (alike role (Nat.le_refl _) rfl)
  | relay | discard | grant | forward =>
    exact confirms.record_forward mirror up rfl (by simp [Message.readSeq]) (by simp)
  | enqueue acting asked current role =>
    exact confirms.record_forward mirror up rfl (by simp) (alike role (Nat.le_succ _) rfl)
  | respond same received current role follows =>
    subst same
    obtain ⟨sender, sent⟩ := acting.mem_history (by simp [received])
    refine confirms.record_forward mirror up rfl ?_ (same rfl)
    intro envelope found readSeq carries
    obtain rfl : envelope = _ := by simpa using found
    refine ⟨.inr ⟨sender, _, sent, current, ?_⟩, ?_⟩
    · rw [received]
      exact carries
    · intro after leads
      cases role.symm.trans leads
  | advance | stand =>
    refine confirms.record mirror (by simp) ?_
    intro other leader found role
    cases found
    cases role
  | follow | concede | poll => exact confirms.record_forward mirror up rfl (by simp) (by simp)
  | _ => exact confirms.record_forward mirror up rfl (by simp [Message.readSeq]) (same rfl)

omit up in
theorem turn {after : Cluster σ} (whole : ¬ discipline.torn)
    (taken : Cluster.Turn config discipline cluster member act after)
    (enabled : act.Enabled config strict s member) : Confirms after := by
  cases taken with
  | boot inside down opened drawn =>
    refine confirms.record mirror (by simp) ?_
    intro other leader found role
    cases found
    cases role
  | move inside up acting moved => exact confirms.move mirror up acting moved enabled
  | crash inside stops => exact confirms.record mirror (by simp) (by simp)
  | tear inside up acting torn moved left unsent => exact absurd torn whole
  | seek forward => exact ⟨confirms.seqs, confirms.progress⟩

omit confirms mirror up in
theorem initial : Confirms (Cluster.initial : Cluster σ) where
  seqs := by simp [Cluster.initial]
  progress := by simp [Cluster.initial]

end Confirms

end Radb.Raft
