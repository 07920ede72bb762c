import Radb.Raft.Commitment
import Radb.Raft.Order

/-! # Acknowledged entries

A follower tells the leader the last index of its log when it accepts entries, and the
leader counts on it. If an append is overtaken by a longer one, the follower truncates its
log below what it acknowledged. It keeps what it acknowledged if no append arrives that
ends before an index acknowledged in its term.
-/

namespace Radb.Raft

open Foundation Foundation.Program Foundation.Consensus Log

variable {σ : Type} [State σ]
  {member : NodeID} {act : Act} {config : Config} {cluster after : Cluster σ}
  {history : List (NodeID × Effect)}
  {term lastIndex : Nat} {msg : Envelope} {s : Agreement}

/-- The last index of an acknowledgement in a term. -/
def Effect.acked (term : Nat) : Effect → Option Nat
  | .send ⟨_, _, sent, .appendResponse false lastIndex _⟩ =>
    if sent = term then some lastIndex else none
  | _ => none

/-- The last indexes that a member acknowledged in a term. -/
def acked (history : List (NodeID × Effect)) (member : NodeID) (term : Nat) : List Nat :=
  history.filterMap fun record => if record.1 = member then record.2.acked term else none

/-- An append ends at or after everything the member acknowledged in its term. -/
def Envelope.coversAcked (history : List (NodeID × Effect)) (member : NodeID) (msg : Envelope) :
    Bool :=
  (acked history member msg.term).all fun lastIndex =>
    msg.message.extent.all fun extent => lastIndex ≤ extent

/-- Only such appends are delivered. -/
def Label.coversAcked (cluster : Cluster σ) : Label → Bool
  | .act member (.deliver source position) _ _ =>
    (link cluster.history source member)[position]?.all fun msg =>
      msg.coversAcked cluster.history member
  | _ => true

theorem mem_acked :
    lastIndex ∈ acked history member term ↔ ∃ source target lastTerm,
      (member, Effect.send ⟨source, target, term, .appendResponse false lastIndex lastTerm⟩) ∈
        history := by
  simp only [acked, List.mem_filterMap, Prod.exists, Option.ite_none_right_eq_some]
  constructor
  · intro found
    obtain ⟨sender, effect, performed, rfl, shape⟩ := found
    unfold Effect.acked at shape
    split at shape
    · simp only [Option.ite_none_right_eq_some, Option.some.injEq] at shape
      obtain ⟨rfl, rfl⟩ := shape
      exact ⟨_, _, _, performed⟩
    · cases shape
  · intro found
    obtain ⟨source, target, lastTerm, performed⟩ := found
    exact ⟨member, _, performed, rfl, by simp [Effect.acked]⟩

theorem coversAcked_iff :
    msg.coversAcked history member = true ↔ ∀ lastIndex ∈ acked history member msg.term,
      ∀ extent, msg.message.extent = some extent → lastIndex ≤ extent := by
  rw [Envelope.coversAcked, List.all_eq_true]
  cases msg.message.extent <;> simp

/-- Appends never end before what was acknowledged, in whatever order they arrive. -/
def Discipline.acknowledging : Discipline σ where
  ordered := False
  stops := True
  torn := False
  guard cluster member msg := msg.coversAcked cluster.history member = true

/-- Whatever a member acknowledges while it processes a message, the message ends at or
after it. -/
theorem Move.acked_le {node next : Node} {disk : Disk σ} {effects : List Effect}
    (moved : Move (.step msg) node disk act effects next) {source target : NodeID}
    {lastTerm extent : Nat}
    (sent : Effect.send ⟨source, target, term, .appendResponse false lastIndex lastTerm⟩ ∈ effects)
    (reaches : msg.message.extent = some extent) : lastIndex ≤ extent := by
  cases moved with
  | @accept _ _ _ _ _ entries _ log same received current role follows base some spliced =>
    cases same
    rcases Log.splice_spec disk.engine node.log entries with ⟨_, failed⟩ | ⟨_, _, ran, _, ends⟩
    · cases failed.symm.trans spliced
    · cases ran.symm.trans spliced
      rw [received, Message.extent] at reaches
      obtain ⟨last, final, rfl⟩ := Option.map_eq_some_iff.mp reaches
      have shape : lastIndex = log.lastIndex := by
        simp only [List.mem_append, List.mem_map, reduceCtorEq, and_false, exists_false,
          List.mem_singleton, Effect.send.injEq, Envelope.mk.injEq, Message.appendResponse.injEq,
          false_or, true_and] at sent
        exact sent.2.2.2.1
      rw [shape]
      exact (ends last final).le
  | agree same received current role follows base =>
    cases same
    rw [received] at reaches
    cases reaches
  | _ => simp at sent

theorem Discipline.stable_acknowledging : (Discipline.acknowledging : Discipline σ).Stable := by
  intro cluster member node next msg act effects guarded up moved
  refine coversAcked_iff.mpr ?_
  intro lastIndex found extent reaches
  obtain ⟨source, target, lastTerm, sent⟩ := mem_acked.mp found
  rcases List.mem_append.mp sent with old | new
  · exact coversAcked_iff.mp guarded lastIndex (mem_acked.mpr ⟨_, _, _, old⟩) extent reaches
  · obtain ⟨effect, performed, shape⟩ := List.mem_map.mp new
    cases shape
    exact moved.acked_le performed reaches

theorem Discipline.permits_acknowledging {label : Label}
    (allowed : label.whole = true ∧ label.coversAcked cluster = true) :
    Discipline.acknowledging.Permits config cluster label := by
  obtain ⟨whole, covers⟩ := allowed
  cases label with
  | crash member => trivial
  | act member event draw cut =>
    refine ⟨?_, fun _ _ => .inl trivial, ?_⟩
    · intro source position msg same found
      subst same
      refine ⟨False.elim, ?_⟩
      simp only [Label.coversAcked, found, Option.all_some] at covers
      exact covers
    · intro count same
      subst same
      cases whole

/-- Members other than the leader acknowledged what they hold of its log. -/
def Acknowledged (cluster : Cluster σ) (s : Agreement) : Prop :=
  ∀ term member, 0 < s.held term member → s.leader term = some member ∨
    s.held term member ∈ acked cluster.history member term

namespace Acknowledged

variable {config : Config} {cluster : Cluster σ} {s : Agreement}
  (acknowledged : Acknowledged cluster s) (mirror : Mirrors config cluster s)
  {discipline : Discipline σ} {member : NodeID}
include acknowledged

omit [State σ] in
theorem mono {next : Agreement} (grows : Grows s next)
    (history : cluster.history <+: after.history) (held : next.held = s.held) :
    Acknowledged after next := by
  intro term member positive
  rw [held] at positive ⊢
  rcases acknowledged term member positive with leads | sent
  · exact .inl (grows.leader leads)
  · obtain ⟨source, target, lastTerm, found⟩ := mem_acked.mp sent
    exact .inr (mem_acked.mpr ⟨source, target, lastTerm, history.subset found⟩)

include mirror

/-- A member keeps what it holds if appends end at or after what it acknowledged. -/
theorem keeps (guard : ∀ cluster member msg, discipline.guard cluster member msg →
      msg.coversAcked cluster.history member = true)
    (taken : Cluster.Turn config discipline cluster member act after) {count : Nat}
    (adopts : act = .adopt count) : s.held (s.term member) member ≤ count := by
  cases taken with
  | move inside up acting moved =>
    cases moved with
    | @accept msg _ _ _ _ _ _ _ same received current role follows base some spliced =>
      subst same
      cases adopts
      obtain ⟨new, rfl, _⟩ := mirror.appended up acting received current base
      have filled := ne_nil_of_entriesFrom some
      have term : s.term member = msg.term := (mirror.term_eq up).trans current.symm
      obtain ⟨_, different, guarded, _⟩ := acting.sent (by simp [received])
      rw [length_entriesFrom]
      rcases Nat.eq_zero_or_pos (s.held (s.term member) member) with none | positive
      · rw [none]
        exact Nat.zero_le _
      · rcases acknowledged _ _ positive with leads | sent
        · rw [mirror.term_eq up, mirror.follows_leader up role follows] at leads
          exact absurd (Option.some.inj leads) different
        · rw [term] at sent ⊢
          refine coversAcked_iff.mp (guard _ _ _ guarded) _ sent _ ?_
          rw [received, extent_entriesFrom filled]
    | _ => cases adopts
  | _ => cases adopts

theorem turn (whole : ¬ discipline.torn)
    (taken : Cluster.Turn config discipline cluster member act after)
    (enabled : act.Enabled config True s member) :
    Acknowledged after (act.perform s member) := by
  have frame := Act.frame mirror.sound enabled
  have history := Cluster.history_prefix_of_turns (.single ⟨_, _, taken⟩)
  -- Acts after which the member holds more.
  have gains (own : (act.perform s member).leader (s.term member) = some member ∨
        (act.perform s member).held (s.term member) member ∈
          acked after.history member (s.term member))
      (held : ∀ {term other}, ¬ (term = s.term member ∧ other = member) →
        (act.perform s member).held term other = s.held term other) :
      Acknowledged after (act.perform s member) := by
    intro term other positive
    by_cases here : term = s.term member ∧ other = member
    · obtain ⟨rfl, rfl⟩ := here
      exact own
    · rw [held here] at positive ⊢
      rcases acknowledged _ _ positive with leads | sent
      · exact .inl (frame.leader leads)
      · obtain ⟨source, target, lastTerm, found⟩ := mem_acked.mp sent
        exact .inr (mem_acked.mpr ⟨source, target, lastTerm, history.subset found⟩)
  cases act with
  | lead =>
    exact gains (.inl (Act.leader_lead s member)) fun different => assign_of_ne _ _ different
  | propose command =>
    exact gains (.inl enabled) fun different => assign_of_ne _ _ different
  | adopt count =>
    refine gains (.inr ?_) fun different => assign_of_ne _ _ different
    rw [Act.held_adopt, Nat.max_eq_right (enabled.2.2.2 trivial)]
    cases taken with
    | @move _ node _ _ _ _ inside up acting moved =>
      cases moved with
      | @accept msg _ _ _ _ _ _ _ same received current role follows base some spliced =>
        subst same
        obtain ⟨new, rfl, within, _⟩ := mirror.appended up acting received current base
        have filled := ne_nil_of_entriesFrom some
        obtain ⟨rfl, rfl, _⟩ := mirror.spliced_run up within filled spliced
        rw [mirror.term_eq up, length_entriesFrom]
        exact mem_acked.mpr ⟨node.id, msg.source, termAt new new.length,
          List.mem_append_right _ (List.mem_map_of_mem
            (List.mem_append_right _ List.mem_cons_self))⟩
  | _ => exact acknowledged.mono frame.toGrows history rfl

end Acknowledged

/-- The cluster mirrors a state of the agreement in which everything held is
acknowledged. -/
structure Acknowledges (config : Config) (cluster : Cluster σ) (s : Agreement) : Prop where
  mirror : Mirrors config cluster s
  safe : Safe config.nodes Prod.fst s
  acknowledged : Acknowledged cluster s

theorem Acknowledges.initial (config : Config) :
    Acknowledges config (Cluster.initial : Cluster σ) State.initial :=
  ⟨Mirrors.initial config, Safe.initial, fun _ _ positive => absurd positive (Nat.lt_irrefl 0)⟩

theorem Acknowledges.turns {last : Cluster σ} (acknowledges : Acknowledges config cluster s)
    (turns : Cluster.Turns config Discipline.acknowledging cluster last) :
    ∃ next, Acknowledges config last next ∧ Grows s next := by
  induction turns with
  | refl => exact ⟨s, acknowledges, Grows.refl s⟩
  | tail _ taken ih =>
    obtain ⟨mid, ⟨mirror, safe, acknowledged⟩, grows⟩ := ih
    obtain ⟨member, act, taken⟩ := taken
    obtain ⟨enabled, after⟩ := mirror.turn id taken fun (_ : True) count adopts =>
      acknowledged.keeps mirror (fun _ _ _ guarded => guarded) taken adopts
    exact ⟨_, ⟨after, Agreement.safe_of_steps safe (Act.steps enabled),
      acknowledged.turn mirror id taken enabled⟩,
      grows.trans (Act.frame mirror.sound enabled).toGrows⟩

/-- The log of a member has what the member holds of the current leader's ledger. -/
theorem Acknowledges.itemAt_log (acknowledges : Acknowledges config cluster s) {index : Nat}
    (held : index ≤ s.held (s.term member) member) :
    itemAt (s.log member) index = itemAt (s.ledger (s.term member)) index := by
  rcases Nat.eq_zero_or_pos index with rfl | positive
  · rfl
  · by_cases leads : s.leader (s.term member) = some member
    · rw [acknowledges.safe.leader_log leads rfl]
    · rw [acknowledges.safe.follower_log (positive.trans_le held) rfl leads, itemAt_take,
        if_pos held]

/-- In every run in which messages are lost, duplicated and reordered, but no append arrives
that ends before an index its receiver acknowledged in the term, a member that acknowledged
an index keeps all entries up to it for as long as it stays in the term. -/
theorem acknowledged_entries_stay (config : Config) {early late : Cluster σ}
    (before : Reaches (Cluster.step config)
      (fun cluster label => label.whole = true ∧ label.coversAcked cluster = true) .initial early)
    (after : Reaches (Cluster.step config)
      (fun cluster label => label.whole = true ∧ label.coversAcked cluster = true) early late)
    {member : NodeID} {term lastIndex : Nat} (sent : lastIndex ∈ acked early.history member term)
    (current : (early.processes member).disk.termVote.1 = term)
    (still : (late.processes member).disk.termVote.1 = term) :
    ∀ index, 1 ≤ index → index ≤ lastIndex → ∃ item,
      (early.processes member).disk.entryAt index = some item ∧
        (late.processes member).disk.entryAt index = some item := by
  have permitted (cluster : Cluster σ) (label : Label)
      (allowed : label.whole = true ∧ label.coversAcked cluster = true) :
      Discipline.acknowledging.Permits config cluster label :=
    Discipline.permits_acknowledging allowed
  obtain ⟨s, first, _⟩ := (Acknowledges.initial config).turns
    (Cluster.turns_of_reaches Discipline.stable_acknowledging permitted before)
  obtain ⟨next, second, grows⟩ := first.turns
    (Cluster.turns_of_reaches Discipline.stable_acknowledging permitted after)
  have termEarly : s.term member = term := (first.mirror.agrees.term member).trans current
  have termLate : next.term member = term := (second.mirror.agrees.term member).trans still
  -- The member held the ledger up to the acknowledged index.
  have held : lastIndex ≤ s.held term member := by
    obtain ⟨source, target, lastTerm, found⟩ := mem_acked.mp sent
    have agrees := first.mirror.agrees.sent found
    obtain rfl : source = member := (first.mirror.elects.sender found).1
    exact agrees.2.1
  intro index positive below
  have inEarly := first.itemAt_log (termEarly ▸ below.trans held)
  have inLate := second.itemAt_log (termLate ▸ (below.trans held).trans (grows.held _ _))
  rw [termEarly] at inEarly
  rw [termLate] at inLate
  have within := (below.trans held).trans (first.mirror.sound.held_le term member)
  obtain ⟨item, found⟩ := Option.isSome_iff_exists.mp ((itemAt_isSome _ _).mpr ⟨positive, within⟩)
  refine ⟨item, ?_, ?_⟩
  · rw [first.mirror.entryAt, inEarly, found]
  · obtain ⟨rest, split⟩ := grows.ledger term
    rw [second.mirror.entryAt, inLate, ← split, itemAt_append_left _ within, found]

/-- Two appends are delivered in order. -/
def inOrderAppends : List Label :=
  [.boot 1, .boot 2, .boot 3] ++ Label.ticks 1 10 ++ [.deliver 1 2 0, .deliver 2 1 0,
    .submit 1 (.write [7]), .deliver 1 2 2, .deliver 1 2 3]

theorem acknowledged_entries_stay_appended : ∃ early late : Cluster TestState,
    Reaches (Cluster.step .three)
        (fun cluster label => label.whole = true ∧ label.coversAcked cluster = true) .initial early ∧
      Reaches (Cluster.step .three)
        (fun cluster label => label.whole = true ∧ label.coversAcked cluster = true) early late ∧
      2 ∈ acked early.history 2 1 ∧ (early.processes 2).disk.termVote.1 = 1 ∧
      (late.processes 2).disk.termVote.1 = 1 ∧ ∀ index, 1 ≤ index → index ≤ 2 → ∃ item,
        (early.processes 2).disk.entryAt index = some item ∧
          (late.processes 2).disk.entryAt index = some item := by
  have passed : (execute (Cluster.step .three)
      (fun cluster label => label.whole && label.coversAcked cluster)
      (.initial : Cluster TestState) inOrderAppends).map (fun early =>
        decide ((2 ∈ acked early.history 2 1 ∧ (early.processes 2).disk.termVote.1 = 1) ∧
          (execute (Cluster.step .three)
            (fun cluster label => label.whole && label.coversAcked cluster) early
            [.deliver 1 2 1]).map (fun late => decide ((late.processes 2).disk.termVote.1 = 1)) =
              some true)) = some true := by
    decide +kernel
  obtain ⟨early, reached, test⟩ := exists_reaches_of_execute _ passed
  obtain ⟨⟨sent, current⟩, later⟩ := of_decide_eq_true test
  obtain ⟨late, reachedLate, testLate⟩ := exists_reaches_of_execute _ later
  have still := of_decide_eq_true testLate
  have before := reached.mono fun _ _ allowed => Bool.and_eq_true_iff.mp allowed
  have after := reachedLate.mono fun _ _ allowed => Bool.and_eq_true_iff.mp allowed
  exact ⟨early, late, before, after, sent, current, still,
    acknowledged_entries_stay .three before after sent current still⟩

/-- The second of two appends overtakes the first. -/
def overtaking : List Label :=
  [.boot 1, .boot 2, .boot 3] ++ Label.ticks 1 10 ++ [.deliver 1 2 0, .deliver 2 1 0,
    .submit 1 (.write [7]), .deliver 1 2 3]

/-- When the overtaken append arrives, the member truncates its log below the index that it
acknowledged in the same term. -/
theorem acknowledged_entry_truncated : ∃ early late : Cluster TestState,
    Reaches (Cluster.step .three) (fun _ label => label.whole = true) .initial early ∧
      Reaches (Cluster.step .three) (fun _ label => label.whole = true) early late ∧
      2 ∈ acked early.history 2 1 ∧
      (early.processes 2).disk.termVote.1 = 1 ∧ (late.processes 2).disk.termVote.1 = 1 ∧
      (early.processes 2).disk.entryAt 2 = some (1, some [7]) ∧
      (late.processes 2).disk.entryAt 2 = none := by
  have passed : (execute (Cluster.step .three) (fun _ label => label.whole)
      (.initial : Cluster TestState) overtaking).map (fun early =>
        decide ((2 ∈ acked early.history 2 1 ∧ (early.processes 2).disk.termVote.1 = 1 ∧
            (early.processes 2).disk.entryAt 2 = some (1, some [7])) ∧
          (execute (Cluster.step .three) (fun _ label => label.whole) early
            [.deliver 1 2 2]).map (fun late => decide ((late.processes 2).disk.termVote.1 = 1 ∧
              (late.processes 2).disk.entryAt 2 = none)) = some true)) = some true := by
    decide +kernel
  obtain ⟨early, reached, test⟩ := exists_reaches_of_execute _ passed
  obtain ⟨⟨sent, current, stored⟩, later⟩ := of_decide_eq_true test
  obtain ⟨late, reachedLate, testLate⟩ := exists_reaches_of_execute _ later
  obtain ⟨still, truncated⟩ := of_decide_eq_true testLate
  exact ⟨early, late, reached, reachedLate, sent, current, still, stored, truncated⟩

end Radb.Raft
