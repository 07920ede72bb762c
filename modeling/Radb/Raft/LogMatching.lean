import Radb.Raft.Mirror

/-! # Log matching

If the logs of two members have entries with the same index and term, they are identical
up to that index, in whatever order messages arrive and whichever are lost or duplicated.
-/

namespace Radb.Raft

open Foundation

variable {σ : Type} [State σ]

/-- Messages arrive in any order, any number of times, and nodes crash between steps. -/
def Discipline.unordered : Discipline σ :=
  { ordered := False, stops := True, torn := False, guard := fun _ _ _ => True }

theorem Discipline.stable_unordered : (Discipline.unordered : Discipline σ).Stable :=
  fun _ _ _ => trivial

theorem Discipline.permits_unordered {config : Config} {cluster : Cluster σ} {label : Label}
    (whole : label.whole = true) : Discipline.unordered.Permits config cluster label := by
  cases label with
  | crash member => trivial
  | act member event draw cut =>
    refine ⟨fun _ _ _ _ _ => ⟨False.elim, trivial⟩, fun _ _ => .inl trivial, ?_⟩
    intro count same
    subst same
    cases whole

/-- In every run in which messages are lost, duplicated and reordered and nodes restart
between steps, two logs with entries of the same index and term are identical up to that
index. -/
theorem log_matching (config : Config) {cluster : Cluster σ}
    (reached : Reaches (Cluster.step config) (fun _ label => label.whole = true) .initial cluster)
    {first second : NodeID} {index term : Nat} {command other : Option Bytes}
    (found : (cluster.processes first).disk.entryAt index = some (term, command))
    (foundOther : (cluster.processes second).disk.entryAt index = some (term, other)) :
    ∀ earlier ≤ index, (cluster.processes first).disk.entryAt earlier =
      (cluster.processes second).disk.entryAt earlier := by
  obtain ⟨s, mirror⟩ := Cluster.exists_mirrors id (Cluster.turns_of_reaches
    Discipline.stable_unordered (fun _ _ => Discipline.permits_unordered) reached)
  rw [mirror.entryAt] at found foundOther
  have same : (s.log first).take index = (s.log second).take index := by
    refine take_eq_of_termAt (mirror.sound.matching_log first) (mirror.sound.matching_log second)
      ?_ ?_ ?_
    · exact ((Log.itemAt_isSome _ _).mp (Option.isSome_of_eq_some found)).2
    · exact ((Log.itemAt_isSome _ _).mp (Option.isSome_of_eq_some foundOther)).2
    · rw [termAt_eq_of_itemAt found, termAt_eq_of_itemAt foundOther]
  intro earlier below
  rw [mirror.entryAt, mirror.entryAt]
  have inFirst := Log.itemAt_take (s.log first) index earlier
  have inSecond := Log.itemAt_take (s.log second) index earlier
  rw [if_pos below] at inFirst inSecond
  rw [← inFirst, ← inSecond, same]

/-- A leader is elected and replicates two entries to a member, which receives the longer
append first, then the shorter one, and then the longer one again. -/
def replication : List Label :=
  [.boot 1, .boot 2, .boot 3] ++ Label.ticks 1 10 ++ [.deliver 1 2 0, .deliver 2 1 0,
    .submit 1 (.write [7]), .deliver 1 2 3, .deliver 1 2 2, .deliver 1 2 3]

theorem log_matching_replicated : ∃ cluster : Cluster TestState,
    Reaches (Cluster.step .three) (fun _ label => label.whole = true) .initial cluster ∧
      (cluster.processes 1).disk.entryAt 2 = some (1, some [7]) ∧
      (cluster.processes 2).disk.entryAt 2 = some (1, some [7]) ∧
      ∀ earlier ≤ 2, (cluster.processes 1).disk.entryAt earlier =
        (cluster.processes 2).disk.entryAt earlier := by
  have passed : (execute (Cluster.step .three) (fun _ label => label.whole)
      (.initial : Cluster TestState) replication).map
        (fun cluster => decide ((cluster.processes 1).disk.entryAt 2 = some (1, some [7]) ∧
          (cluster.processes 2).disk.entryAt 2 = some (1, some [7]))) = some true := by
    decide +kernel
  obtain ⟨cluster, reached, test⟩ := exists_reaches_of_execute _ passed
  obtain ⟨found, foundOther⟩ := of_decide_eq_true test
  exact ⟨cluster, reached, found, foundOther, log_matching .three reached found foundOther⟩

end Radb.Raft
