import Radb.Raft.Election

/-! # Election safety

A term has at most one leader, however messages are lost, duplicated, delayed and
reordered and whenever nodes restart between steps. If nodes may also crash within a
step, a node that crashes right after it sent a vote forgets it and may vote again.
-/

namespace Radb.Raft

open Foundation Foundation.Program

variable {σ : Type} [State σ]

/-- Nothing but the tearing of votes is excluded. -/
def Discipline.free : Discipline σ :=
  { ordered := False, stops := True, torn := True, guard := fun _ _ _ => True }

theorem Discipline.stable_free : (Discipline.free : Discipline σ).Stable := fun _ _ _ => trivial

/-- A label does not crash a node right after it sent a vote. -/
def Label.keepsVotes (config : Config) (cluster : Cluster σ) : Label → Bool
  | .act member event draw (some count) =>
    match cluster.program config member draw event with
    | some program =>
      !((program.run (cluster.processes member).disk).journal.take count).getLast?.any
        Effect.isVote
    | none => true
  | _ => true

theorem Discipline.permits_of_keepsVotes {config : Config} {cluster : Cluster σ} {label : Label}
    (kept : label.keepsVotes config cluster = true) :
    Discipline.free.Permits config cluster label := by
  cases label with
  | crash member => trivial
  | act member event draw cut =>
    refine ⟨fun _ _ _ _ _ => ⟨False.elim, trivial⟩, fun _ _ => .inl trivial, ?_⟩
    intro count same
    subst same
    refine ⟨trivial, trivial, ?_⟩
    intro program runs effect last
    simpa [Label.keepsVotes, runs, last] using kept

theorem Label.keepsVotes_of_whole (config : Config) (cluster : Cluster σ) {label : Label}
    (whole : label.whole = true) : label.keepsVotes config cluster = true := by
  cases label with
  | crash member => rfl
  | act member event draw cut =>
    cases cut with
    | none => rfl
    | some count => simp [Label.whole] at whole

/-- In every run with an arbitrary network and restarts between steps, at most one node is
ever the leader of a term. -/
theorem election_safety (config : Config) {early late : Cluster σ}
    (before : Reaches (Cluster.step config) (fun _ label => label.whole = true) .initial early)
    (after : Reaches (Cluster.step config) (fun _ label => label.whole = true) early late)
    {first second : NodeID} {term : Nat} (leads : early.leaderTerm first = some term)
    (leadsLate : late.leaderTerm second = some term) : first = second := by
  have permitted (cluster : Cluster σ) (label : Label) (whole : label.whole = true) :
      Discipline.free.Permits config cluster label :=
    Discipline.permits_of_keepsVotes (Label.keepsVotes_of_whole config cluster whole)
  exact Cluster.leader_unique_of_turns
    (Cluster.turns_of_reaches Discipline.stable_free permitted before)
    (Cluster.turns_of_reaches Discipline.stable_free permitted after) leads leadsLate

/-- A candidate and one vote for it. -/
def election : List Label :=
  [.boot 1, .boot 2, .boot 3] ++ Label.ticks 1 10 ++ [.deliver 1 2 0, .deliver 2 1 0]

theorem election_safety_elected : ∃ cluster : Cluster TestState,
    Reaches (Cluster.step .three) (fun _ label => label.whole = true) .initial cluster ∧
      cluster.leaderTerm 1 = some 1 ∧ ∀ other, cluster.leaderTerm other = some 1 → other = 1 := by
  have passed : (execute (Cluster.step .three) (fun _ label => label.whole)
      (.initial : Cluster TestState) election).map
        (fun cluster => cluster.leaderTerm 1 == some 1) = some true := by decide +kernel
  obtain ⟨cluster, reached, leads⟩ := exists_reaches_of_execute _ passed
  have leader : cluster.leaderTerm 1 = some 1 := by simpa using leads
  exact ⟨cluster, reached, leader, fun other leadsOther =>
    election_safety .three reached .refl leadsOther leader⟩

/-- A member grants its vote to a candidate: it sends the vote, or stands itself. -/
def Grants (history : List (NodeID × Effect)) (term : Nat) (voter candidate : NodeID) : Prop :=
  ⟨voter, candidate, term, .campaignResponse true⟩ ∈ link history voter candidate ∨
    voter = candidate ∧ Ballot history term voter candidate

/-- In every run in which nodes may crash between any two effects, but not right after the
sending of a vote, no node grants its vote to two candidates in a term, and at most one
node is ever the leader of a term. -/
theorem crash_safe_votes (config : Config) {early late : Cluster σ}
    (before : Reaches (Cluster.step config)
      (fun cluster label => label.keepsVotes config cluster = true) .initial early)
    (after : Reaches (Cluster.step config)
      (fun cluster label => label.keepsVotes config cluster = true) early late) :
    (∀ term voter first second, Grants late.history term voter first →
      Grants late.history term voter second → first = second) ∧
    ∀ term first second, early.leaderTerm first = some term →
      late.leaderTerm second = some term → first = second := by
  have turnsBefore := Cluster.turns_of_reaches Discipline.stable_free
    (fun _ _ => Discipline.permits_of_keepsVotes) before
  have turnsAfter := Cluster.turns_of_reaches Discipline.stable_free
    (fun _ _ => Discipline.permits_of_keepsVotes) after
  have elects := Cluster.elects_of_turns (turnsBefore.trans turnsAfter)
  have persisted {term : Nat} {voter candidate : NodeID}
      (grants : Grants late.history term voter candidate) :
      Ballot late.history term voter candidate := by
    rcases grants with sent | ⟨_, stands⟩
    · obtain ⟨⟨sender, found⟩, _, _⟩ := mem_link.mp sent
      obtain rfl : voter = sender := (elects.sender found).1
      exact elects.granted found
    · exact stands
  refine ⟨?_, ?_⟩
  · intro term voter first second grants other
    exact elects.unique (persisted grants) (persisted other)
  · intro term first second leads leadsLate
    exact Cluster.leader_unique_of_turns turnsBefore turnsAfter leads leadsLate

theorem crash_safe_votes_elected : ∃ cluster : Cluster TestState,
    Reaches (Cluster.step .three) (fun cluster label => label.keepsVotes .three cluster = true)
        .initial cluster ∧
      Grants cluster.history 1 2 1 ∧ cluster.leaderTerm 1 = some 1 ∧
      (∀ other, Grants cluster.history 1 2 other → other = 1) ∧
      ∀ other, cluster.leaderTerm other = some 1 → other = 1 := by
  have passed : (execute (Cluster.step .three) (fun cluster label => label.keepsVotes .three cluster)
      (.initial : Cluster TestState) election).map
        (fun cluster => decide (cluster.leaderTerm 1 = some 1 ∧
          ⟨2, 1, 1, .campaignResponse true⟩ ∈ link cluster.history 2 1)) = some true := by
    decide +kernel
  obtain ⟨cluster, reached, test⟩ := exists_reaches_of_execute _ passed
  obtain ⟨leads, sent⟩ := of_decide_eq_true test
  have safe := crash_safe_votes .three reached .refl
  exact ⟨cluster, reached, .inl sent, leads, fun other grants => safe.1 1 2 other 1 grants (.inl sent),
    fun other leadsOther => safe.2 1 other 1 leadsOther leads⟩

/-- Two candidates in a term, and a voter that crashes right after it sent its vote to
the first and then votes for the second. -/
def forgottenVote : List Label :=
  [.boot 1, .boot 2, .boot 3] ++ Label.ticks 1 10 ++ Label.ticks 2 10 ++
    [.act 3 (.deliver 1 0) 10 (some 2), .boot 3, .deliver 2 3 0, .deliver 3 1 0, .deliver 3 2 0]

/-- The voter grants its vote twice, and the term has two leaders. -/
theorem vote_forgotten : ∃ cluster : Cluster TestState,
    Reaches (Cluster.step .three) (fun _ _ => True) .initial cluster ∧
      Grants cluster.history 1 3 1 ∧ Grants cluster.history 1 3 2 ∧
      cluster.leaderTerm 1 = some 1 ∧ cluster.leaderTerm 2 = some 1 := by
  have passed : (execute (Cluster.step .three) (fun _ _ => true)
      (.initial : Cluster TestState) forgottenVote).map
        (fun cluster => decide ((cluster.leaderTerm 1 = some 1 ∧ cluster.leaderTerm 2 = some 1) ∧
          ⟨3, 1, 1, .campaignResponse true⟩ ∈ link cluster.history 3 1 ∧
          ⟨3, 2, 1, .campaignResponse true⟩ ∈ link cluster.history 3 2)) = some true := by
    decide +kernel
  obtain ⟨cluster, reached, test⟩ := exists_reaches_of_execute _ passed
  obtain ⟨⟨leads, leadsOther⟩, sent, sentOther⟩ := of_decide_eq_true test
  exact ⟨cluster, reached.mono fun _ _ _ => trivial, .inl sent, .inl sentOther, leads, leadsOther⟩

end Radb.Raft
