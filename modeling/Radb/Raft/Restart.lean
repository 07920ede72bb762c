import Radb.Raft.Assertions

/-! # Restarted nodes

A node that restarts is a leaderless follower of the term in which it crashed. What it sent
in that term as a leader or as a follower is still answered, and the answers are messages
that a leaderless follower does not expect. If nobody receives such a message, no node
ever panics.
-/

namespace Radb.Raft

open Foundation Foundation.Program Foundation.Consensus

variable {σ : Type} [State σ]

/-- Messages are delivered to nodes that admit them. -/
def Label.admitted (cluster : Cluster σ) : Label → Bool
  | .act member (.deliver source position) _ _ =>
    (cluster.processes member).node.all fun node =>
      (link cluster.history source member)[position]?.all fun msg => node.admits msg
  | _ => true

/-- Links deliver in sending order to nodes that admit the message, and nodes crash between
steps. -/
def Discipline.admitting : Discipline σ where
  ordered := True
  stops := True
  torn := False
  guard cluster member msg := ∀ node, (cluster.processes member).node = some node →
    node.admits msg = true

theorem Discipline.stable_admitting : (Discipline.admitting : Discipline σ).Stable := by
  intro cluster member node next msg act effects guarded up moved other found
  rw [Cluster.processes_record_self] at found
  cases found
  exact moved.admits (guarded node up)

theorem Discipline.delivers_admitting {cluster : Cluster σ} {member : NodeID} {event : Event}
    {draw : Nat} {cut : Option Nat}
    (inOrder : Label.inOrder cluster (.act member event draw cut) = true)
    (admitted : Label.admitted cluster (.act member event draw cut) = true) :
    ∀ source position msg, event = .deliver source position →
      (link cluster.history source member)[position]? = some msg →
        (Discipline.admitting.ordered (σ := σ) → cluster.cursor source member ≤ position) ∧
          Discipline.admitting.guard (cluster.seek source member position) member msg := by
  intro source position msg same found
  subst same
  refine ⟨fun _ => of_decide_eq_true inOrder, ?_⟩
  intro node up
  have here : (cluster.processes member).node = some node := up
  simpa [Label.admitted, here, found] using admitted

theorem Discipline.permits_admitting {config : Config} {cluster : Cluster σ} {label : Label}
    (allowed : (label.whole = true ∧ label.inOrder cluster = true) ∧
      label.admitted cluster = true) :
    Discipline.admitting.Permits config cluster label := by
  obtain ⟨⟨whole, inOrder⟩, admitted⟩ := allowed
  cases label with
  | crash member => trivial
  | act member event draw cut =>
    refine ⟨Discipline.delivers_admitting inOrder admitted, fun _ _ => .inl trivial, ?_⟩
    intro count same
    subst same
    cases whole

/-- In every run over links that lose messages but deliver in sending order and without
duplication, with restarts between steps, in which responses to a leader and forwarded
requests are delivered in their term only to the leader, and responses to forwarded requests
only to followers of the sender, whatever a node does with an event of this kind returns
without a panic or an error (unless its state machine fails). -/
theorem restarted_node_survives (config : Config)
    (reliable : ∀ (state : σ) entry message,
      (State.apply state entry).2 ≠ .error (.internal message)) {cluster : Cluster σ}
    (reached : Reaches (Cluster.step config)
      (fun cluster label => (label.whole = true ∧ label.inOrder cluster = true) ∧
        label.admitted cluster = true) .initial cluster)
    {member : NodeID} {event : Event} {draw : Nat} {program : Action σ Node}
    (inside : member ∈ config.nodes) (drawn : electionTimeouts draw = true)
    (runs : cluster.program config member draw event = some program)
    (inOrder : Label.inOrder cluster (.act member event draw none) = true)
    (admitted : Label.admitted cluster (.act member event draw none) = true) :
    ∃ node, (program.run (cluster.processes member).disk).result = .ok node := by
  have turns := Cluster.turns_of_reaches Discipline.stable_admitting
    (fun _ _ => Discipline.permits_admitting) reached
  obtain ⟨s, secure⟩ := (Secure.initial config).turns trivial id turns
  refine secure.returns trivial id Discipline.stable_admitting reliable inside drawn runs
    (Discipline.delivers_admitting inOrder admitted) ?_
  intro last node msg _ up acting other
  obtain ⟨_, ⟨own, _⟩ | ⟨_, guarded, _⟩⟩ := acting
  · exact absurd own other
  · exact guarded node up

/-- A leader is elected, crashes and restarts, and another member campaigns. -/
def leaderRestart : List Label :=
  [.boot 1, .boot 2, .boot 3] ++ Label.ticks 1 10 ++ [.deliver 1 2 0, .deliver 2 1 0,
    .deliver 1 2 1, .crash 1, .boot 1] ++ Label.ticks 2 10

theorem restarted_node_survives_campaign : ∃ (cluster : Cluster TestState) (program : _),
    Reaches (Cluster.step .three)
        (fun cluster label => (label.whole = true ∧ label.inOrder cluster = true) ∧
          label.admitted cluster = true) .initial cluster ∧
      (link cluster.history 2 1)[2]? = some ⟨2, 1, 2, .campaign 0 0⟩ ∧
      cluster.program .three 1 10 (.deliver 2 2) = some program ∧
      ∃ node, (program.run (cluster.processes 1).disk).result = .ok node := by
  have passed : (execute (Cluster.step .three)
      (fun cluster label => decide ((label.whole = true ∧ label.inOrder cluster = true) ∧
        label.admitted cluster = true)) (.initial : Cluster TestState) leaderRestart).map
        (fun cluster => decide ((link cluster.history 2 1)[2]? = some ⟨2, 1, 2, .campaign 0 0⟩ ∧
          (cluster.program .three 1 10 (.deliver 2 2)).isSome = true ∧
          Label.inOrder cluster (.act 1 (.deliver 2 2) 10 none) = true ∧
          Label.admitted cluster (.act 1 (.deliver 2 2) 10 none) = true)) = some true := by
    decide +kernel
  obtain ⟨cluster, run, test⟩ := exists_reaches_of_execute _ passed
  obtain ⟨sent, starts, inOrder, admitted⟩ := of_decide_eq_true test
  obtain ⟨program, runs⟩ := Option.isSome_iff_exists.mp starts
  have reached := run.mono fun _ _ allowed => of_decide_eq_true allowed
  exact ⟨cluster, program, reached, sent, runs, restarted_node_survives .three
    (fun _ _ _ failed => by cases failed) reached (by decide) (by decide) runs inOrder admitted⟩

/-- How the processing of an event fails. -/
def Cluster.fault (config : Config) (cluster : Cluster σ) (member : NodeID) (event : Event) :
    Option Fault :=
  (cluster.program config member 10 event).bind fun program =>
    match (program.run (cluster.processes member).disk).result with
    | .error fault => some fault
    | .ok _ => none

/-- A leader answers a follower's request, the follower accepts an entry and forwards another
request, and then both crash and restart. -/
def formerLives : List Label :=
  [.boot 1, .boot 2, .boot 3] ++ Label.ticks 1 10 ++ [.deliver 1 2 0, .deliver 2 1 0,
    .deliver 1 2 1, .submit 2 .status, .deliver 2 1 1, .deliver 2 1 2, .deliver 1 2 3,
    .submit 2 (.read [9]), .crash 1, .boot 1, .crash 2, .boot 2]

/-- The former leader panics on the acceptance of its entry and on the forwarded request, and
the former follower on the answer to its first request. -/
theorem former_life_panics : ∃ cluster : Cluster TestState,
    Reaches (Cluster.step .three)
        (fun cluster label => label.whole = true ∧ label.inOrder cluster = true) .initial cluster ∧
      (link cluster.history 2 1)[3]? = some ⟨2, 1, 1, .appendResponse false 1 1⟩ ∧
      cluster.fault .three 1 (.deliver 2 3) = some (.panic "Received unexpected message") ∧
      (link cluster.history 2 1)[4]? = some ⟨2, 1, 1, .clientRequest [] (.read [9])⟩ ∧
      cluster.fault .three 1 (.deliver 2 4) = some (.panic "Client request from other node") ∧
      (link cluster.history 1 2)[4]? = some ⟨1, 2, 1, .clientResponse []
        (.ok (.status ⟨1, 1, [(2, 0), (3, 0), (1, 1)], 0, 0⟩))⟩ ∧
      cluster.fault .three 2 (.deliver 1 4) = some (.panic "Client response from non-leader") ∧
      Label.inOrder cluster (.act 1 (.deliver 2 3) 10 none) = true ∧
      Label.inOrder cluster (.act 1 (.deliver 2 4) 10 none) = true ∧
      Label.inOrder cluster (.act 2 (.deliver 1 4) 10 none) = true := by
  have passed : (execute (Cluster.step .three)
      (fun cluster label => decide (label.whole = true ∧ label.inOrder cluster = true))
      (.initial : Cluster TestState) formerLives).map (fun cluster => decide (
        (link cluster.history 2 1)[3]? = some ⟨2, 1, 1, .appendResponse false 1 1⟩ ∧
        cluster.fault .three 1 (.deliver 2 3) = some (.panic "Received unexpected message") ∧
        (link cluster.history 2 1)[4]? = some ⟨2, 1, 1, .clientRequest [] (.read [9])⟩ ∧
        cluster.fault .three 1 (.deliver 2 4) = some (.panic "Client request from other node") ∧
        (link cluster.history 1 2)[4]? = some ⟨1, 2, 1, .clientResponse []
          (.ok (.status ⟨1, 1, [(2, 0), (3, 0), (1, 1)], 0, 0⟩))⟩ ∧
        cluster.fault .three 2 (.deliver 1 4) = some (.panic "Client response from non-leader") ∧
        Label.inOrder cluster (.act 1 (.deliver 2 3) 10 none) = true ∧
        Label.inOrder cluster (.act 1 (.deliver 2 4) 10 none) = true ∧
        Label.inOrder cluster (.act 2 (.deliver 1 4) 10 none) = true)) = some true := by
    decide +kernel
  obtain ⟨cluster, run, test⟩ := exists_reaches_of_execute _ passed
  exact ⟨cluster, run.mono fun _ _ allowed => of_decide_eq_true allowed, of_decide_eq_true test⟩

end Radb.Raft
