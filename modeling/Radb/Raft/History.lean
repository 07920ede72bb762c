import Radb.Raft.Election

/-! # Where effects come from

Every effect in the history of a run was performed by a move of a member, in a state of the
run whose history ends in front of it.
-/

namespace Radb.Raft

open Foundation Foundation.Program

variable {σ : Type} [State σ]

variable {position : Nat} {record : NodeID × Effect}

variable {sender : NodeID} {effect : Effect} {cluster next : Cluster σ} {label : Label}

/-- The member that a label makes act or crash. -/
def Label.member : Label → NodeID
  | .act member _ _ _ => member
  | .crash member => member

namespace Cluster

variable {config : Config} {discipline : Discipline σ} {start last : Cluster σ}

/-- A record of the history was added by one of the turns. -/
theorem exists_turn (turns : Turns config discipline start last)
    (new : start.history.length ≤ position) (found : last.history[position]? = some record) :
    ∃ before member act after, Turns config discipline start before ∧
      Turn config discipline before member act after ∧ Turns config discipline after last ∧
      before.history.length ≤ position ∧ after.history[position]? = some record := by
  induction turns with
  | refl =>
    have below := (List.getElem?_eq_some_iff.mp found).1
    omega
  | @tail mid last earlier taken ih =>
    by_cases old : position < mid.history.length
    · have grows := history_prefix_of_turns (.single taken)
      obtain ⟨rest, split⟩ := grows
      rw [← split, List.getElem?_append_left old] at found
      obtain ⟨before, member, act, after, first, turn, second, bound, here⟩ := ih found
      exact ⟨before, member, act, after, first, turn, second.tail taken, bound, here⟩
    · obtain ⟨member, act, turn⟩ := taken
      exact ⟨mid, member, act, last, earlier, turn, .refl, Nat.not_lt.mp old, found⟩

/-- The turn that added a record is a move with this effect. -/
theorem Turn.performed {before after : Cluster σ} {member : NodeID} {act : Act}
    (whole : ¬ discipline.torn) (taken : Turn config discipline before member act after)
    (new : before.history.length ≤ position)
    (found : after.history[position]? = some (sender, effect)) :
    sender = member ∧ ∃ node next input effects, (before.processes member).node = some node ∧
      Acting discipline before member input ∧
      Move input node (before.processes member).disk act effects next ∧
      effects[position - before.history.length]? = some effect := by
  have added {effects : List Effect} {result : Option Node}
      (found : (before.record member effects result).history[position]? = some (sender, effect)) :
      sender = member ∧ effects[position - before.history.length]? = some effect := by
    rw [history_record, List.getElem?_append_right new, List.getElem?_map] at found
    obtain ⟨performed, here, same⟩ := Option.map_eq_some_iff.mp found
    cases same
    exact ⟨rfl, here⟩
  cases taken with
  | boot | crash => cases (added found).2
  | move inside up acting moved =>
    obtain ⟨same, here⟩ := added found
    exact ⟨same, _, _, _, _, up, acting, moved, here⟩
  | tear inside up acting torn moved left unsent => exact absurd torn whole
  | seek forward =>
    have below := (List.getElem?_eq_some_iff.mp found).1
    exact absurd below (Nat.not_lt.mpr new)

/-- A step adds effects of the member it makes act. -/
theorem history_step (taken : cluster.step config label = some next) : ∃ effects : List Effect,
      next.history = cluster.history ++ effects.map fun effect => (label.member, effect) := by
  cases label with
  | crash member =>
    simp only [step, Option.ite_none_right_eq_some, Option.some.injEq] at taken
    obtain ⟨_, rfl⟩ := taken
    exact ⟨[], rfl⟩
  | act member event draw cut =>
    have consumed (effects : List Effect) (result : Option Node) :
        ((cluster.record member effects result).consume member event).history =
          cluster.history ++ effects.map fun effect => (member, effect) := by
      cases event <;> rfl
    simp only [step] at taken
    split at taken
    · split at taken
      · cases taken
      · split at taken
        · cases taken
          exact ⟨_, consumed _ _⟩
        · cases taken
          exact ⟨_, consumed _ _⟩
    · cases taken

theorem sender_of_step (taken : cluster.step config label = some next)
    (new : cluster.history.length ≤ position)
    (found : next.history[position]? = some (sender, effect)) : sender = label.member := by
  obtain ⟨effects, split⟩ := history_step taken
  rw [split, List.getElem?_append_right new, List.getElem?_map] at found
  obtain ⟨performed, _, same⟩ := Option.map_eq_some_iff.mp found
  cases same
  rfl

/-- A record of the history of a run was added by one of its steps. -/
theorem exists_step {allowed : Cluster σ → Label → Prop}
    (reached : Reaches (step config) allowed start last) (new : start.history.length ≤ position)
    (found : last.history[position]? = some record) :
    ∃ before label after, Reaches (step config) allowed start before ∧ allowed before label ∧
      before.step config label = some after ∧ after.history <+: last.history ∧
      before.history.length ≤ position ∧ after.history[position]? = some record := by
  induction reached with
  | refl =>
    have below := (List.getElem?_eq_some_iff.mp found).1
    omega
  | @step mid last label earlier permitted taken ih =>
    by_cases old : position < mid.history.length
    · obtain ⟨effects, split⟩ := history_step taken
      rw [split, List.getElem?_append_left old] at found
      obtain ⟨before, first, after, run, allows, steps, isPrefix, bound, here⟩ := ih found
      refine ⟨before, first, after, run, allows, steps, isPrefix.trans ?_, bound, here⟩
      rw [split]
      exact List.prefix_append _ _
    · exact ⟨mid, label, last, earlier, permitted, taken, List.prefix_rfl, Nat.not_lt.mp old,
        found⟩

end Cluster

end Radb.Raft
