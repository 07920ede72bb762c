import Radb.Foundation.Consensus.Completeness

/-! # Settled parts of a log

A node may act on a part of its log once it is settled: some leader found a majority to
hold it. What is settled stays settled and at its place, also when the node replaces its
log by a part of the current leader's.
-/

namespace Foundation.Consensus

variable {Node Item : Type} [DecidableEq Node] {members : Finset Node} {stamp : Item → ℕ}

/-- The first `count` items of a log were decided in some term up to `term`. -/
def Settled (s : State Node Item) (term : ℕ) (log : List Item) (count : ℕ) : Prop :=
  count ≤ log.length ∧
    ∃ decider ≤ term, count ≤ s.decided decider ∧ log.take count = (s.ledger decider).take count

variable (stamp) in
/-- An item of the current term is in the part of the ledger that the node holds. -/
def Stamped (s : State Node Item) : Prop :=
  ∀ {node position item}, (s.log node)[position]? = some item → stamp item = s.term node →
    position < s.held (s.term node) node

theorem Stamped.initial : Stamped stamp (State.initial : State Node Item) := by
  intro node position item found
  cases found

/-- A step keeps that items of the current term are held. -/
theorem Stamped.step {s next : State Node Item} {strict : Prop} (stamped : Stamped stamp s)
    (sound : Sound members stamp s) (step : Step members stamp strict s next) :
    Stamped stamp next := by
  intro node position item found current
  -- A node that just entered a term has no item of it.
  have entered {mover : Node} {term : ℕ} (later : s.term mover < term)
      (current : stamp item = Function.update s.term mover term node)
      (found : (s.log node)[position]? = some item) :
      position < s.held (Function.update s.term mover term node) node := by
    by_cases same : node = mover
    · subst same
      rw [Function.update_self] at current
      have bound := sound.log_le (List.mem_of_getElem? found)
      omega
    · rw [Function.update_of_ne same] at current ⊢
      exact stamped found current
  cases step with
  | advance mover term later | stand mover term later => exact entered later current found
  | vote | elect | decide => exact stamped found current
  | propose mover new leads =>
    dsimp only at found current ⊢
    by_cases same : node = mover
    · subst same
      rw [Function.update_self] at found
      have below := (List.getElem?_eq_some_iff.mp found).1
      rw [List.length_append, List.length_singleton, sound.leader_log leads rfl] at below
      rwa [assign_same]
    · rw [Function.update_of_ne same] at found
      rw [assign_of_ne _ _ fun both => same both.2]
      exact stamped found current
  | adopt mover leader count leads =>
    dsimp only at found current ⊢
    by_cases same : node = mover
    · subst same
      rw [Function.update_self] at found
      have below := (List.getElem?_eq_some_iff.mp found).1
      rw [List.length_take] at below
      rw [assign_same]
      omega
    · rw [Function.update_of_ne same] at found
      rw [assign_of_ne _ _ fun both => same both.2]
      exact stamped found current

/-- What a leader decided is in its ledger. -/
theorem Safe.decided_le {s : State Node Item} (safe : Safe members stamp s) (term : ℕ) :
    s.decided term ≤ (s.ledger term).length := by
  rcases Nat.eq_zero_or_pos (s.decided term) with none | positive
  · rw [none]
    exact Nat.zero_le _
  · obtain ⟨_, _, quorum, majority, holders⟩ := safe.decisions positive
    obtain ⟨voter, inside⟩ := Finset.card_pos.mp (show 0 < quorum.card by
      have size := majority.2
      omega)
    exact (holders voter inside).trans (safe.held_le term voter)

namespace Settled

theorem zero (s : State Node Item) (term : ℕ) (log : List Item) : Settled s term log 0 :=
  ⟨Nat.zero_le _, 0, Nat.zero_le _, Nat.zero_le _, by simp⟩

variable {s : State Node Item} {term count : ℕ} {log : List Item}
  (settled : Settled s term log count)
include settled

/-- What is settled stays settled. -/
theorem mono {next : State Node Item} {later : ℕ} (safe : Safe members stamp s)
    (grows : Grows s next) (after : term ≤ later) : Settled next later log count := by
  obtain ⟨within, decider, before, decided, same⟩ := settled
  refine ⟨within, decider, before.trans after, decided.trans (grows.decided decider), ?_⟩
  obtain ⟨rest, split⟩ := grows.ledger decider
  rw [same, ← split, List.take_append_of_le_length (decided.trans (safe.decided_le decider))]

/-- Only the settled part itself matters. -/
theorem of_take_eq {other : List Item} (within : count ≤ other.length)
    (same : other.take count = log.take count) : Settled s term other count := by
  obtain ⟨_, decider, before, decided, agreed⟩ := settled
  exact ⟨within, decider, before, decided, same.trans agreed⟩

/-- A leader has everything that is settled up to its term. -/
theorem take_ledger (safe : Safe members stamp s) (leads : s.leader term ≠ none) :
    count ≤ (s.ledger term).length ∧ log.take count = (s.ledger term).take count := by
  obtain ⟨_, decider, before, decided, same⟩ := settled
  have part := safe.decided_prefix_ledger before leads
  have length := safe.decided_le decider
  have reach := part.length_le
  rw [List.length_take, Nat.min_eq_left length] at reach
  refine ⟨decided.trans reach, ?_⟩
  obtain ⟨rest, split⟩ := part
  rw [same, ← split, List.take_append_of_le_length (by rw [List.length_take]; omega),
    List.take_take, Nat.min_eq_left decided]

/-- A node that keeps what it holds does not give up what is settled. -/
theorem le_of_adopt {node : Node} (safe : Safe members stamp s) (stamped : Stamped stamp s)
    (own : log = s.log node) (current : term = s.term node) (leads : s.leader term ≠ none)
    {kept : ℕ} (beyond : (s.base term).length < kept) (keeps : s.held term node ≤ kept) :
    count ≤ kept := by
  obtain ⟨within, same⟩ := settled.take_ledger safe leads
  by_contra short
  -- The last settled item would have the stamp of the term, and so be held.
  have below : count - 1 < (s.ledger term).length := by omega
  have found := List.getElem?_eq_getElem below
  have stampedItem := safe.stamp_of_base_le found (by omega)
  have inside : (s.log node)[count - 1]? = (s.ledger term)[count - 1]? := by
    have read := congrArg (fun items => items[count - 1]?) same
    simpa [List.getElem?_take, show count - 1 < count by omega, own] using read
  rw [← inside] at found
  have holds := stamped found (stampedItem.trans current)
  rw [← current] at holds
  omega

/-- Two settled parts have the same items. -/
theorem unique {otherTerm otherCount position : ℕ} {other : List Item} {item otherItem : Item}
    (safe : Safe members stamp s) (otherSettled : Settled s otherTerm other otherCount)
    (below : position < count) (otherBelow : position < otherCount)
    (found : log[position]? = some item) (otherFound : other[position]? = some otherItem) :
    item = otherItem := by
  have decided {term count : ℕ} {log : List Item} {item : Item} (settled : Settled s term log count)
      (below : position < count) (found : log[position]? = some item) :
      ∃ decider, ((s.ledger decider).take (s.decided decider))[position]? = some item := by
    obtain ⟨_, decider, _, decided, same⟩ := settled
    refine ⟨decider, ?_⟩
    have read := congrArg (fun items => items[position]?) same
    simp only [List.getElem?_take, below, ↓reduceIte, found] at read
    rw [List.getElem?_take, if_pos (Nat.lt_of_lt_of_le below decided), ← read]
  obtain ⟨decider, first⟩ := decided settled below found
  obtain ⟨otherDecider, second⟩ := decided otherSettled otherBelow otherFound
  exact safe.decided_unique first second

end Settled

end Foundation.Consensus
