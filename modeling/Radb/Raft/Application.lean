import Radb.Raft.Commitment

/-! # Applied entries

Members pass settled entries to their state machines, one index after the other.
-/

namespace Radb.Raft

open Foundation Foundation.Program Foundation.Consensus Log

variable {σ : Type} [State σ]
  {entry : Entry}

/-- The index of an entry that the state machine applied. An entry it failed to apply with
an internal error is not applied. -/
def Effect.applied : Effect → Option Nat
  | .apply _ (.error (.internal _)) => none
  | .apply entry _ => some entry.index
  | _ => none

theorem Effect.applied_of_ne {answer : Except Error Bytes} (entry : Entry)
    (succeeded : ∀ message, answer ≠ .error (.internal message)) :
    Effect.applied (.apply entry answer) = some entry.index := by
  cases answer with
  | ok value => rfl
  | error error =>
    cases error with
    | internal message => exact absurd rfl (succeeded message)
    | _ => rfl

theorem Effect.exists_of_applied {effect : Effect} {index : Nat}
    (applied : effect.applied = some index) :
    ∃ entry result, effect = .apply entry result ∧ entry.index = index := by
  cases effect with
  | apply entry result =>
    refine ⟨entry, result, rfl, ?_⟩
    cases result with
    | ok value => exact Option.some.inj applied
    | error error =>
      cases error with
      | internal message => cases applied
      | _ => exact Option.some.inj applied
  | _ => cases applied

/-- The indexes a member applied, in order. -/
def appliedIndexes (history : List (NodeID × Effect)) (member : NodeID) : List Nat :=
  history.filterMap fun record => if record.1 = member then record.2.applied else none

/-- What the members' state machines applied. -/
structure Applies (cluster : Cluster σ) (s : Agreement) : Prop where
  below : ∀ member, (cluster.processes member).disk.appliedIndex ≤
    (cluster.processes member).disk.commit.1
  indexes : ∀ member, appliedIndexes cluster.history member =
    List.range' 1 (cluster.processes member).disk.appliedIndex
  next : ∀ {position member entry result},
    cluster.history[position]? = some (member, Effect.apply entry result) →
      entry.index = (appliedIndexes (cluster.history.take position) member).length + 1
  settled : ∀ {member entry result}, (member, Effect.apply entry result) ∈ cluster.history →
    ∃ term items count, Settled s term items count ∧ entry.index ≤ count ∧
      itemAt items entry.index = some (entry.term, entry.command)

theorem appliedIndexes_append (history more : List (NodeID × Effect)) (member : NodeID) :
    appliedIndexes (history ++ more) member =
      appliedIndexes history member ++ appliedIndexes more member := List.filterMap_append

theorem appliedIndexes_of_ne {member other : NodeID} (different : other ≠ member)
    (effects : List Effect) :
    appliedIndexes (effects.map fun effect => (member, effect)) other = [] := by
  rw [appliedIndexes, List.filterMap_map]
  simp [Function.comp_def, different.symm]

/-- Effects without an application leave the state machine as it is. -/
theorem Disk.state_replayAll {disk : Disk σ} {effects : List Effect}
    (quiet : ∀ entry result, Effect.apply entry result ∉ effects) :
    (replayAll Disk.replay disk effects).state = disk.state := by
  induction effects generalizing disk with
  | nil => rfl
  | cons effect rest ih =>
    rw [replayAll_cons, ih fun entry result found => quiet entry result (List.mem_cons_of_mem _ found)]
    cases effect with
    | apply entry result => exact absurd List.mem_cons_self (quiet entry result)
    | _ => rfl

theorem appliedIndexes_of_quiet {effects : List Effect}
    (quiet : ∀ entry result, Effect.apply entry result ∉ effects) (member other : NodeID) :
    appliedIndexes (effects.map fun effect => (member, effect)) other = [] := by
  rw [appliedIndexes, List.filterMap_eq_nil_iff]
  intro record found
  obtain ⟨effect, performed, rfl⟩ := List.mem_map.mp found
  cases effect with
  | apply entry result => exact absurd performed (quiet entry result)
  | _ => simp [Effect.applied]

namespace Applies

variable {config : Config} {cluster : Cluster σ} {s next : Agreement} (applies : Applies cluster s)
  {member : NodeID} {effects : List Effect} {result : Option Node}
include applies

theorem settled_mono (safe : Safe config.nodes Prod.fst s) (grows : Grows s next)
    {member : NodeID} {result : Except Error Bytes}
    (applied : (member, Effect.apply entry result) ∈ cluster.history) :
    ∃ term items count, Settled next term items count ∧ entry.index ≤ count ∧
      itemAt items entry.index = some (entry.term, entry.command) := by
  obtain ⟨term, items, count, settled, found⟩ := applies.settled applied
  exact ⟨term, items, count, settled.mono safe grows (Nat.le_refl _), found⟩

/-- Effects that apply nothing. -/
theorem record_quiet (safe : Safe config.nodes Prod.fst s) (grows : Grows s next)
    (quiet : ∀ entry result, Effect.apply entry result ∉ effects)
    (forward : (cluster.processes member).disk.commit.1 ≤
      (replayAll Disk.replay (cluster.processes member).disk effects).commit.1) :
    Applies (cluster.record member effects result) next := by
  have unapplied {position : Nat} {other : NodeID} {entry : Entry} {result : Except Error Bytes} :
      (effects.map fun effect => (member, effect))[position]? ≠
        some (other, Effect.apply entry result) := by
    intro found
    obtain ⟨effect, performed, shape⟩ := List.mem_map.mp (List.mem_of_getElem? found)
    cases shape
    exact quiet entry result performed
  have state : (replayAll Disk.replay (cluster.processes member).disk effects).appliedIndex =
      (cluster.processes member).disk.appliedIndex :=
    congrArg State.getAppliedIndex (Disk.state_replayAll quiet)
  refine ⟨?_, ?_, ?_, ?_⟩
  · intro other
    by_cases same : other = member
    · rw [same, Cluster.processes_record_self]
      exact state.trans_le ((applies.below member).trans forward)
    · rw [Cluster.processes_record_of_ne same]
      exact applies.below other
  · intro other
    rw [Cluster.history_record, appliedIndexes_append, appliedIndexes_of_quiet quiet,
      List.append_nil, applies.indexes]
    by_cases same : other = member
    · rw [same, Cluster.processes_record_self, state]
    · rw [Cluster.processes_record_of_ne same]
  · intro position other entry outcome found
    rw [Cluster.history_record] at found ⊢
    by_cases old : position < cluster.history.length
    · rw [List.getElem?_append_left old] at found
      rw [List.take_append_of_le_length old.le]
      exact applies.next found
    · rw [List.getElem?_append_right (Nat.not_lt.mp old)] at found
      exact absurd found unapplied
  · intro other entry outcome found
    rcases List.mem_append.mp found with old | new
    · exact applies.settled_mono safe grows old
    · obtain ⟨position, found⟩ := List.mem_iff_getElem?.mp new
      exact absurd found unapplied

variable (mirror : Mirrors config cluster s) (commits : Commits config cluster s)
include mirror commits

omit applies in
/-- The next entry to apply directly follows the last one that was applied, and it is
settled. -/
theorem pending (pending : (cluster.processes member).disk.Pending
      (cluster.processes member).disk.commit.1 entry) :
    entry.index = (cluster.processes member).disk.appliedIndex + 1 ∧
      itemAt (s.log member) entry.index = some (entry.term, entry.command) := by
  have stored := pending.stored
  rw [mirror.entryAt] at stored
  refine ⟨?_, stored⟩
  by_contra gap
  have above := pending.above
  have missing := pending.next ((cluster.processes member).disk.appliedIndex + 1)
    (Nat.lt_succ_self _) (by omega)
  rw [mirror.entryAt, itemAt_eq_none] at missing
  have inside := ((itemAt_isSome _ _).mp (Option.isSome_of_eq_some stored)).2
  omega

theorem record_apply (next : (cluster.processes member).disk.Pending
      (cluster.processes member).disk.commit.1 entry) :
    Applies (cluster.record member [.apply entry
      (State.apply (cluster.processes member).disk.state entry).2] result) s := by
  obtain ⟨index, stored⟩ := pending mirror commits next
  generalize outcome : (State.apply (cluster.processes member).disk.state entry).2 = answer
  -- The applied index and the recorded application go together.
  have recorded : (replayAll Disk.replay (cluster.processes member).disk
        [.apply entry answer]).appliedIndex ≤ (cluster.processes member).disk.commit.1 ∧
      List.range' 1 (replayAll Disk.replay (cluster.processes member).disk
        [.apply entry answer]).appliedIndex =
      List.range' 1 (cluster.processes member).disk.appliedIndex ++
        appliedIndexes [(member, .apply entry answer)] member := by
    have after : (replayAll Disk.replay (cluster.processes member).disk
        [.apply entry answer]).appliedIndex =
          State.getAppliedIndex (State.apply (cluster.processes member).disk.state entry).1 := rfl
    by_cases failed : ∃ message, answer = .error (.internal message)
    · obtain ⟨message, rfl⟩ := failed
      rw [after, State.getAppliedIndex_internal _ _ _ outcome]
      refine ⟨applies.below member, ?_⟩
      simp [appliedIndexes, Effect.applied, Disk.appliedIndex]
    · have succeeded : ∀ message, (State.apply (cluster.processes member).disk.state entry).2 ≠
          .error (.internal message) := by
        intro message same
        exact failed ⟨message, outcome.symm.trans same⟩
      rw [after, State.getAppliedIndex_apply _ _ succeeded]
      refine ⟨next.committed, ?_⟩
      have counted := Effect.applied_of_ne entry fun message same => failed ⟨message, same⟩
      rw [index, List.range'_concat]
      simp [appliedIndexes, counted, index, Nat.add_comm]
  refine ⟨?_, ?_, ?_, ?_⟩
  · intro other
    by_cases same : other = member
    · rw [same, Cluster.processes_record_self]
      exact recorded.1
    · rw [Cluster.processes_record_of_ne same]
      exact applies.below other
  · intro other
    rw [Cluster.history_record, appliedIndexes_append, applies.indexes]
    by_cases same : other = member
    · rw [same, Cluster.processes_record_self]
      exact recorded.2.symm
    · rw [Cluster.processes_record_of_ne same, appliedIndexes_of_ne same, List.append_nil]
  · intro position other earlier answerBefore found
    rw [Cluster.history_record] at found ⊢
    by_cases old : position < cluster.history.length
    · rw [List.getElem?_append_left old] at found
      rw [List.take_append_of_le_length old.le]
      exact applies.next found
    · have last : position = cluster.history.length := by
        have below := (List.getElem?_eq_some_iff.mp found).1
        rw [List.length_append, List.length_map, List.length_singleton] at below
        omega
      subst last
      rw [List.getElem?_append_right (Nat.le_refl _), Nat.sub_self] at found
      cases found
      rw [List.take_left, applies.indexes, List.length_range', index]
  · intro other earlier answerBefore found
    rcases List.mem_append.mp found with old | new
    · exact applies.settled old
    · cases List.mem_singleton.mp new
      exact ⟨_, _, _, (commits.position member).settled, next.committed, stored⟩

theorem turn {discipline : Discipline σ} {act : Act} {after : Cluster σ}
    (whole : ¬ discipline.torn) (taken : Cluster.Turn config discipline cluster member act after)
    (enabled : act.Enabled config True s member) : Applies after (act.perform s member) := by
  have frame := Act.frame mirror.sound enabled
  cases taken with
  | boot | crash => exact applies.record_quiet commits.safe frame.toGrows (by simp) (Nat.le_refl _)
  | @move _ node _ _ _ _ inside up acting moved =>
    have cached := commits.cached up
    have forward := moved.commit_le cached
    cases moved with
    | apply pending =>
      refine applies.record_apply mirror commits ?_
      rw [← cached]
      exact pending
    | @fulfill _ entry _ role pending tracked regular =>
      rw [← List.singleton_append, ← Cluster.record_record _ _ (some node)]
      refine record_quiet ?_ commits.safe (Grows.refl s) (by simp) (Nat.le_refl _)
      refine applies.record_apply mirror commits ?_
      rw [← cached]
      exact pending
    | _ => exact applies.record_quiet commits.safe frame.toGrows (by simp) forward
  | tear inside up acting torn moved left unsent => exact absurd torn whole
  | seek forward => exact ⟨applies.below, applies.indexes, applies.next, applies.settled⟩

omit applies mirror commits in
theorem initial : Applies (Cluster.initial : Cluster σ) State.initial where
  below _ := (State.getAppliedIndex_empty).trans_le (Nat.zero_le _)
  indexes _ := by
    have none : Disk.appliedIndex (⟨∅, State.empty⟩ : Disk σ) = 0 := State.getAppliedIndex_empty
    simp [Cluster.initial, appliedIndexes, none]
  next := by simp [Cluster.initial]
  settled := by simp [Cluster.initial]

end Applies

end Radb.Raft
