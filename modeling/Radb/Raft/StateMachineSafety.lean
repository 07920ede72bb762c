import Radb.Raft.Application
import Radb.Raft.Order

/-! # State machine safety

On links that deliver in sending order, no two members ever pass different entries with the
same index to their state machines, and every member applies the indexes one by one.
-/

namespace Radb.Raft

open Foundation Foundation.Consensus

variable {σ : Type} [State σ]

variable {config : Config} {discipline : Discipline σ}

/-- The cluster replicates the log of the agreement over ordered links. -/
structure Replicates (config : Config) (cluster : Cluster σ) (s : Agreement) : Prop where
  mirror : Mirrors config cluster s
  commits : Commits config cluster s
  applies : Applies cluster s
  orders : Orders cluster s

/-- A turn on ordered links is a strict step of the agreement. -/
theorem Replicates.turn {cluster after : Cluster σ} {s : Agreement} {member : NodeID} {act : Act}
    (replicates : Replicates config cluster s) (ordered : discipline.ordered)
    (whole : ¬ discipline.torn) (taken : Cluster.Turn config discipline cluster member act after) :
    act.Enabled config True s member ∧ Replicates config after (act.perform s member) := by
  obtain ⟨mirror, commits, applies, orders⟩ := replicates
  obtain ⟨enabled, after⟩ := mirror.turn whole taken fun (_ : True) count adopts =>
    orders.keeps mirror ordered taken adopts
  exact ⟨enabled, after, commits.turn mirror whole taken enabled,
    applies.turn mirror commits whole taken enabled,
    orders.turn mirror ordered whole taken enabled⟩

theorem Replicates.initial (config : Config) :
    Replicates config (Cluster.initial : Cluster σ) State.initial :=
  ⟨Mirrors.initial config, Commits.initial config, Applies.initial, Orders.initial⟩

theorem Cluster.exists_replicates {cluster : Cluster σ} (ordered : discipline.ordered)
    (whole : ¬ discipline.torn) (turns : Turns config discipline initial cluster) :
    ∃ s, Replicates config cluster s := by
  induction turns with
  | refl => exact ⟨_, Replicates.initial config⟩
  | tail _ taken ih =>
    obtain ⟨s, replicates⟩ := ih
    obtain ⟨member, act, taken⟩ := taken
    exact ⟨_, (replicates.turn ordered whole taken).2⟩

/-- Links deliver in sending order without duplication, and nodes crash between steps. -/
def Discipline.fifo : Discipline σ :=
  { ordered := True, stops := True, torn := False, guard := fun _ _ _ => True }

theorem Discipline.stable_fifo : (Discipline.fifo : Discipline σ).Stable := fun _ _ _ => trivial

theorem Discipline.permits_fifo {cluster : Cluster σ} {label : Label}
    (allowed : label.whole = true ∧ label.inOrder cluster = true) :
    Discipline.fifo.Permits config cluster label := by
  obtain ⟨whole, inOrder⟩ := allowed
  cases label with
  | crash member => trivial
  | act member event draw cut =>
    refine ⟨?_, fun _ _ => .inl trivial, ?_⟩
    · intro source position msg same _
      subst same
      exact ⟨fun _ => of_decide_eq_true inOrder, trivial⟩
    · intro count same
      subst same
      cases whole

/-- In every run over links that lose messages but deliver in sending order and without
duplication, with restarts between steps, entries with the same index that are ever passed
to the state machines are the same, and every member applies the indexes 1, 2, 3 and so on:
an entry passed to its state machine has the index behind those that the member applied
before. (An entry that fails with an internal error is not applied; it stops the node, and
is passed again after a restart.) -/
theorem state_machine_safety (config : Config) {cluster : Cluster σ}
    (reached : Reaches (Cluster.step config)
      (fun cluster label => label.whole = true ∧ label.inOrder cluster = true) .initial cluster) :
    (∀ first second entry other result otherResult,
      (first, Effect.apply entry result) ∈ cluster.history →
      (second, Effect.apply other otherResult) ∈ cluster.history →
        entry.index = other.index → entry = other) ∧
    (∀ member, appliedIndexes cluster.history member =
      List.range' 1 (appliedIndexes cluster.history member).length) ∧
    ∀ position member entry result,
      cluster.history[position]? = some (member, Effect.apply entry result) →
        entry.index = (appliedIndexes (cluster.history.take position) member).length + 1 := by
  obtain ⟨s, replicates⟩ := Cluster.exists_replicates trivial id (Cluster.turns_of_reaches
    Discipline.stable_fifo (fun _ _ => Discipline.permits_fifo) reached)
  refine ⟨?_, ?_, fun _ _ _ _ => replicates.applies.next⟩
  · intro first second entry other result otherResult found foundOther same
    obtain ⟨term, items, count, settled, within, stored⟩ := replicates.applies.settled found
    obtain ⟨otherTerm, otherItems, otherCount, otherSettled, otherWithin, otherStored⟩ :=
      replicates.applies.settled foundOther
    obtain ⟨index, entryTerm, command⟩ := entry
    obtain ⟨otherIndex, otherEntryTerm, otherCommand⟩ := other
    dsimp only at same within stored otherWithin otherStored
    subst same
    cases index with
    | zero => cases stored
    | succ position =>
      cases settled.unique replicates.commits.safe otherSettled within otherWithin stored
        otherStored
      rfl
  · intro member
    rw [replicates.applies.indexes, List.length_range']

/-- A write is committed by two members and applied by both. -/
def commitment : List Label :=
  [.boot 1, .boot 2, .boot 3] ++ Label.ticks 1 10 ++ [.deliver 1 2 0, .deliver 2 1 0,
    .deliver 1 2 2, .deliver 2 1 1, .submit 1 (.write [7]), .deliver 1 2 3, .deliver 2 1 2] ++
    Label.ticks 1 3 ++ [.deliver 1 2 4]

theorem state_machine_safety_committed : ∃ cluster : Cluster TestState,
    Reaches (Cluster.step .three)
        (fun cluster label => label.whole = true ∧ label.inOrder cluster = true) .initial cluster ∧
      appliedIndexes cluster.history 1 = [1, 2] ∧ appliedIndexes cluster.history 2 = [1, 2] ∧
      ∀ entry other result otherResult, (1, Effect.apply entry result) ∈ cluster.history →
        (2, Effect.apply other otherResult) ∈ cluster.history →
          entry.index = other.index → entry = other := by
  have passed : (execute (Cluster.step .three)
      (fun cluster label => decide (label.whole = true ∧ label.inOrder cluster = true))
      (.initial : Cluster TestState) commitment).map
        (fun cluster => decide (appliedIndexes cluster.history 1 = [1, 2] ∧
          appliedIndexes cluster.history 2 = [1, 2])) = some true := by
    decide +kernel
  obtain ⟨cluster, reached, test⟩ := exists_reaches_of_execute _ passed
  obtain ⟨first, second⟩ := of_decide_eq_true test
  have permitted : Reaches (Cluster.step .three)
      (fun cluster label => label.whole = true ∧ label.inOrder cluster = true) .initial cluster :=
    reached.mono fun _ _ allowed => of_decide_eq_true allowed
  exact ⟨cluster, permitted, first, second, (state_machine_safety .three permitted).1 1 2⟩

end Radb.Raft
