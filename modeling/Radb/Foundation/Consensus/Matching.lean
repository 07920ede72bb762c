import Radb.Foundation.Consensus.Protocol

/-! # Log matching

Items with one stamp at one position stand behind the same items in every log, however
logs are adopted.
-/

namespace Foundation.Consensus

variable {Node Item : Type} [DecidableEq Node] {members : Finset Node} {stamp : Item → ℕ}

variable {log : List Item} {position term : ℕ} {item : Item} {node : Node}

theorem Matching.mono (matching : Matching stamp s log) (grows : Grows s next) :
    Matching stamp next log := fun position item found =>
  (matching position item found).trans (grows.ledger _)

theorem Matching.of_longer {shorter : List Item} (matching : Matching stamp s log)
    (isPrefix : shorter <+: log) : Matching stamp s shorter := by
  intro position item found
  obtain ⟨rest, rfl⟩ := isPrefix
  obtain ⟨below, _⟩ := List.getElem?_eq_some_iff.mp found
  have matched := matching position item (by rw [List.getElem?_append_left below, found])
  rwa [List.take_append_of_le_length below] at matched

/-- Two logs with equally stamped items at one position agree up to it. -/
theorem Matching.take_eq {first second : List Item} (left : Matching stamp s first)
    (right : Matching stamp s second) {other : Item} (found : first[position]? = some item)
    (foundOther : second[position]? = some other) (same : stamp item = stamp other) :
    first.take (position + 1) = second.take (position + 1) := by
  have prefixLeft := left position item found
  have prefixRight := right position other foundOther
  rw [same] at prefixLeft
  obtain ⟨below, _⟩ := List.getElem?_eq_some_iff.mp found
  obtain ⟨belowOther, _⟩ := List.getElem?_eq_some_iff.mp foundOther
  refine (List.prefix_of_prefix_length_le prefixLeft prefixRight ?_).eq_of_length ?_
  · simp only [List.length_take]
    omega
  · simp only [List.length_take]
    omega

namespace Sound

variable {s next : State Node Item} (sound : Sound members stamp s)
include sound

theorem base_lt (leads : s.leader term = some node) :
    ∀ item ∈ s.base term, stamp item < term :=
  sound.stood_lt (sound.leader_stood leads)

theorem ledger_stamp_le (member : item ∈ s.ledger term) :
    stamp item ≤ term := by
  cases leads : s.leader term with
  | none =>
    rw [sound.vacant leads] at member
    cases member
  | some node =>
    obtain ⟨proposed, split, stamped⟩ := sound.ledger_eq leads
    rw [split] at member
    rcases List.mem_append.mp member with old | new
    · exact (sound.base_lt leads item old).le
    · exact (stamped item new).le

theorem matching_ledger (term : ℕ) : Matching stamp s (s.ledger term) := by
  intro position item found
  cases leads : s.leader term with
  | none =>
    rw [sound.vacant leads] at found
    cases found
  | some node =>
    obtain ⟨proposed, split, stamped⟩ := sound.ledger_eq leads
    by_cases old : position < (s.base term).length
    · rw [split, List.getElem?_append_left old] at found
      rw [split, List.take_append_of_le_length old]
      exact sound.matching_stood (sound.leader_stood leads) position item found
    · rw [split, List.getElem?_append_right (Nat.not_lt.mp old)] at found
      rw [stamped item (List.mem_of_getElem? found)]
      exact List.take_prefix _ _

/-- The items of a matching log are stamped in order. -/
theorem stamp_le_of_matching (matching : Matching stamp s log) {later : ℕ} {other : Item}
    (ordered : position ≤ later) (found : log[position]? = some item)
    (foundLater : log[later]? = some other) :
    stamp item ≤ stamp other := by
  apply sound.ledger_stamp_le
  refine (matching later other foundLater).subset (List.mem_of_getElem? (i := position) ?_)
  rw [List.getElem?_take, if_pos (Nat.lt_succ_of_le ordered), found]

/-- An item stamped with the term itself was proposed in it. -/
theorem base_le_of_stamp (found : (s.ledger term)[position]? = some item)
    (own : stamp item = term) :
    (s.base term).length ≤ position := by
  cases leads : s.leader term with
  | none =>
    rw [sound.vacant leads] at found
    cases found
  | some node =>
    obtain ⟨proposed, split, _⟩ := sound.ledger_eq leads
    by_contra old
    rw [split, List.getElem?_append_left (Nat.not_le.mp old)] at found
    exact absurd own (sound.base_lt leads item (List.mem_of_getElem? found)).ne

/-- Behind the base of a ledger, every item is stamped with its term. -/
theorem stamp_of_base_le (found : (s.ledger term)[position]? = some item)
    (beyond : (s.base term).length ≤ position) :
    stamp item = term := by
  cases leads : s.leader term with
  | none =>
    rw [sound.vacant leads] at found
    cases found
  | some node =>
    obtain ⟨proposed, split, stamped⟩ := sound.ledger_eq leads
    rw [split, List.getElem?_append_right beyond] at found
    exact stamped item (List.mem_of_getElem? found)

theorem base_prefix (leads : s.leader term = some node) :
    s.base term <+: s.ledger term := by
  obtain ⟨proposed, split, _⟩ := sound.ledger_eq leads
  rw [split]
  exact List.prefix_append _ _

end Sound

theorem Sound.initial : Sound members stamp (State.initial : State Node Item) := by
  constructor <;> simp [State.initial, Matching]

namespace Sound

variable {s : State Node Item} (sound : Sound members stamp s)
include sound

theorem advance (later : s.term node < term) :
    Sound members stamp { s with term := Function.update s.term node term } := by
  have up := le_update_term later
  refine { sound with
    ballot_le := fun found => Nat.le_trans (sound.ballot_le found) (up _)
    stood_le := fun found => Nat.le_trans (sound.stood_le found) (up _)
    log_le := fun member => Nat.le_trans (sound.log_le member) (up _)
    leader_le := fun found => Nat.le_trans (sound.leader_le found) (up _)
    leader_log := ?_
    held_term := fun positive => Nat.le_trans (sound.held_term positive) (up _) }
  intro otherTerm other leads current
  dsimp only at leads current
  by_cases same : other = node
  · subst same
    rw [Function.update_self] at current
    exact absurd (sound.leader_le leads) (Nat.not_le.mpr (current ▸ later))
  · rw [Function.update_of_ne same] at current
    exact sound.leader_log leads current

theorem stand (later : s.term node < term) :
    Sound members stamp { s with
      term := Function.update s.term node term
      ballot := assign s.ballot term node (some node)
      stood := assign s.stood term node (some (s.log node)) } := by
  have step : Step members stamp True s _ := .stand node term later
  have grows := sound.grows step
  have advanced := sound.advance later
  refine { advanced with
    ballot_le := ?_
    ballot_stood := ?_
    stood_le := ?_
    stood_lt := ?_
    leader_stood := fun leads => grows.stood (sound.leader_stood leads)
    elected := ?_
    matching_stood := ?_ }
  · intro otherTerm other candidate found
    dsimp only at found ⊢
    by_cases same : otherTerm = term ∧ other = node
    · obtain ⟨rfl, rfl⟩ := same
      simp
    · rw [assign_of_ne _ _ same] at found
      exact advanced.ballot_le found
  · intro otherTerm other candidate found
    dsimp only at found
    by_cases same : otherTerm = term ∧ other = node
    · obtain ⟨rfl, rfl⟩ := same
      rw [assign_same, Option.some.injEq] at found
      subst found
      exact ⟨_, assign_same _ _ _ _⟩
    · rw [assign_of_ne _ _ same] at found
      obtain ⟨log, standing⟩ := sound.ballot_stood found
      exact ⟨log, grows.stood standing⟩
  · intro otherTerm other log found
    dsimp only at found ⊢
    by_cases same : otherTerm = term ∧ other = node
    · obtain ⟨rfl, rfl⟩ := same
      simp
    · rw [assign_of_ne _ _ same] at found
      exact advanced.stood_le found
  · intro otherTerm other log found item member
    dsimp only at found
    by_cases same : otherTerm = term ∧ other = node
    · obtain ⟨rfl, rfl⟩ := same
      rw [assign_same, Option.some.injEq] at found
      subst found
      exact Nat.lt_of_le_of_lt (sound.log_le member) later
    · rw [assign_of_ne _ _ same] at found
      exact sound.stood_lt found item member
  · intro otherTerm other leads
    obtain ⟨quorum, majority, votes⟩ := sound.elected leads
    exact ⟨quorum, majority, fun voter inside => grows.ballot (votes voter inside)⟩
  · intro otherTerm other log found
    dsimp only at found
    by_cases same : otherTerm = term ∧ other = node
    · obtain ⟨rfl, rfl⟩ := same
      rw [assign_same, Option.some.injEq] at found
      subst found
      exact sound.matching_log other
    · rw [assign_of_ne _ _ same] at found
      exact sound.matching_stood found

theorem vote {candidate : Node} (fresh : s.ballot (s.term node) node = none)
    (standing : s.stood (s.term node) candidate = some log)
    (recent : UpToDate stamp (s.log node) log) :
    Sound members stamp { s with
      ballot := assign s.ballot (s.term node) node (some candidate) } := by
  have step : Step members stamp True s _ := .vote node candidate log fresh standing recent
  have grows := sound.grows step
  refine { sound with ballot_le := ?_, ballot_stood := ?_, elected := ?_ }
  · intro otherTerm other otherCandidate found
    dsimp only at found
    by_cases same : otherTerm = s.term node ∧ other = node
    · obtain ⟨rfl, rfl⟩ := same
      exact Nat.le_refl _
    · rw [assign_of_ne _ _ same] at found
      exact sound.ballot_le found
  · intro otherTerm other otherCandidate found
    dsimp only at found
    by_cases same : otherTerm = s.term node ∧ other = node
    · obtain ⟨rfl, rfl⟩ := same
      rw [assign_same, Option.some.injEq] at found
      exact ⟨log, found ▸ standing⟩
    · rw [assign_of_ne _ _ same] at found
      exact sound.ballot_stood found
  · intro otherTerm other leads
    obtain ⟨quorum, majority, votes⟩ := sound.elected leads
    exact ⟨quorum, majority, fun voter inside => grows.ballot (votes voter inside)⟩

theorem elect {quorum : Finset Node} (vacant : s.leader (s.term node) = none)
    (standing : s.stood (s.term node) node = some (s.log node))
    (majority : Majority members quorum)
    (votes : ∀ voter ∈ quorum, s.ballot (s.term node) voter = some node) :
    Sound members stamp { s with
      leader := Function.update s.leader (s.term node) (some node)
      base := Function.update s.base (s.term node) (s.log node)
      ledger := Function.update s.ledger (s.term node) (s.log node) } := by
  have step : Step members stamp True s _ := .elect node quorum vacant standing majority votes
  have grows := sound.grows step
  have cases_leader {term : ℕ} {leader : Node}
      (leads : Function.update s.leader (s.term node) (some node) term = some leader) :
      term = s.term node ∧ leader = node ∨
        term ≠ s.term node ∧ s.leader term = some leader := by
    by_cases same : term = s.term node
    · subst same
      rw [Function.update_self, Option.some.injEq] at leads
      exact .inl ⟨rfl, leads.symm⟩
    · rw [Function.update_of_ne same] at leads
      exact .inr ⟨same, leads⟩
  refine { sound with
    vacant := ?_
    leader_le := ?_
    leader_log := ?_
    leader_stood := ?_
    ledger_eq := ?_
    elected := ?_
    held_le := fun term node => Nat.le_trans (sound.held_le term node)
      (grows.ledger term).length_le
    matching_log := fun other => (sound.matching_log other).mono grows
    matching_stood := fun found => (sound.matching_stood found).mono grows }
  · intro term empty
    dsimp only at empty ⊢
    by_cases same : term = s.term node
    · subst same
      rw [Function.update_self] at empty
      cases empty
    · rw [Function.update_of_ne same] at empty ⊢
      exact sound.vacant empty
  · intro term leader leads
    rcases cases_leader leads with ⟨rfl, rfl⟩ | ⟨_, leads⟩
    · exact Nat.le_refl _
    · exact sound.leader_le leads
  · intro term leader leads current
    rcases cases_leader leads with ⟨rfl, rfl⟩ | ⟨different, leads⟩
    · simp
    · dsimp only at current ⊢
      rw [Function.update_of_ne different]
      exact sound.leader_log leads current
  · intro term leader leads
    rcases cases_leader leads with ⟨rfl, rfl⟩ | ⟨different, leads⟩
    · simpa using standing
    · dsimp only
      rw [Function.update_of_ne different]
      exact sound.leader_stood leads
  · intro term leader leads
    rcases cases_leader leads with ⟨rfl, rfl⟩ | ⟨different, leads⟩
    · exact ⟨[], by simp, by simp⟩
    · dsimp only
      rw [Function.update_of_ne different, Function.update_of_ne different]
      exact sound.ledger_eq leads
  · intro term leader leads
    rcases cases_leader leads with ⟨rfl, rfl⟩ | ⟨_, leads⟩
    · exact ⟨quorum, majority, votes⟩
    · exact sound.elected leads

theorem propose (leads : s.leader (s.term node) = some node) (stamped : stamp item = s.term node) :
    Sound members stamp { s with
      log := Function.update s.log node (s.log node ++ [item])
      ledger := Function.update s.ledger (s.term node) (s.ledger (s.term node) ++ [item])
      held := assign s.held (s.term node) node ((s.ledger (s.term node)).length + 1) } := by
  have step : Step members stamp True s _ := .propose node item leads stamped
  have grows := sound.grows step
  have own := sound.leader_log leads rfl
  refine { sound with
    log_le := ?_
    vacant := ?_
    leader_log := ?_
    ledger_eq := ?_
    held_le := ?_
    held_term := ?_
    matching_log := ?_
    matching_stood := fun found => (sound.matching_stood found).mono grows }
  · intro other found member
    dsimp only at member
    by_cases same : other = node
    · subst same
      rw [Function.update_self] at member
      rcases List.mem_append.mp member with old | new
      · exact sound.log_le old
      · rw [List.mem_singleton.mp new, stamped]
    · rw [Function.update_of_ne same] at member
      exact sound.log_le member
  · intro term empty
    dsimp only at empty ⊢
    have different : term ≠ s.term node := by
      rintro rfl
      rw [leads] at empty
      cases empty
    rw [Function.update_of_ne different]
    exact sound.vacant empty
  · intro term leader leadsTerm current
    dsimp only at leadsTerm current ⊢
    by_cases same : leader = node
    · subst same
      subst current
      rw [Function.update_self, Function.update_self, own]
    · have different : term ≠ s.term node := by
        rintro rfl
        rw [leads, Option.some.injEq] at leadsTerm
        exact same leadsTerm.symm
      rw [Function.update_of_ne same, Function.update_of_ne different]
      exact sound.leader_log leadsTerm current
  · intro term leader leadsTerm
    dsimp only
    obtain ⟨proposed, split, stamps⟩ := sound.ledger_eq leadsTerm
    by_cases same : term = s.term node
    · subst same
      rw [Function.update_self, split]
      refine ⟨proposed ++ [item], by simp, ?_⟩
      intro other member
      rcases List.mem_append.mp member with old | new
      · exact stamps other old
      · rw [List.mem_singleton.mp new, stamped]
    · rw [Function.update_of_ne same]
      exact ⟨proposed, split, stamps⟩
  · intro term other
    by_cases same : term = s.term node ∧ other = node
    · obtain ⟨rfl, rfl⟩ := same
      simp
    · dsimp only
      rw [assign_of_ne _ _ same]
      exact Nat.le_trans (sound.held_le term other) (grows.ledger term).length_le
  · intro term other positive
    dsimp only at positive
    by_cases same : term = s.term node ∧ other = node
    · obtain ⟨rfl, rfl⟩ := same
      exact Nat.le_refl _
    · rw [assign_of_ne _ _ same] at positive
      exact sound.held_term positive
  · intro other
    dsimp only
    by_cases same : other = node
    · subst same
      rw [Function.update_self]
      intro position found present
      by_cases old : position < (s.log other).length
      · rw [List.getElem?_append_left old] at present
        rw [List.take_append_of_le_length old]
        exact ((sound.matching_log other) position found present).trans (grows.ledger _)
      · rw [List.getElem?_append_right (Nat.not_lt.mp old), List.getElem?_singleton] at present
        split at present
        · obtain rfl := Option.some.inj present
          rw [stamped, own]
          dsimp only
          rw [Function.update_self]
          exact List.take_prefix _ _
        · cases present
    · rw [Function.update_of_ne same]
      exact (sound.matching_log other).mono grows

theorem adopt {leader : Node} {count : ℕ} (leads : s.leader (s.term node) = some leader)
    (other : leader ≠ node) (within : count ≤ (s.ledger (s.term node)).length) :
    Sound members stamp { s with
      log := Function.update s.log node ((s.ledger (s.term node)).take count)
      held := assign s.held (s.term node) node (max (s.held (s.term node) node) count) } := by
  refine { sound with
    log_le := ?_
    leader_log := ?_
    held_le := ?_
    held_term := ?_
    matching_log := ?_ }
  · intro reader item member
    dsimp only at member
    by_cases same : reader = node
    · subst same
      rw [Function.update_self] at member
      exact sound.ledger_stamp_le (List.mem_of_mem_take member)
    · rw [Function.update_of_ne same] at member
      exact sound.log_le member
  · intro term reader leadsTerm current
    dsimp only at leadsTerm current ⊢
    have different : reader ≠ node := by
      rintro rfl
      subst current
      rw [leads, Option.some.injEq] at leadsTerm
      exact other leadsTerm
    rw [Function.update_of_ne different]
    exact sound.leader_log leadsTerm current
  · intro term reader
    dsimp only
    by_cases same : term = s.term node ∧ reader = node
    · obtain ⟨rfl, rfl⟩ := same
      rw [assign_same]
      exact Nat.max_le.mpr ⟨sound.held_le _ _, within⟩
    · rw [assign_of_ne _ _ same]
      exact sound.held_le term reader
  · intro term reader positive
    dsimp only at positive
    by_cases same : term = s.term node ∧ reader = node
    · obtain ⟨rfl, rfl⟩ := same
      exact Nat.le_refl _
    · rw [assign_of_ne _ _ same] at positive
      exact sound.held_term positive
  · intro reader
    dsimp only
    by_cases same : reader = node
    · subst same
      rw [Function.update_self]
      exact (sound.matching_ledger _).of_longer (List.take_prefix _ _)
    · rw [Function.update_of_ne same]
      exact sound.matching_log reader

/-- Every step keeps what holds of elections and logs. -/
theorem step {strict : Prop} (step : Step members stamp strict s next) :
    Sound members stamp next := by
  cases step with
  | advance node term later => exact sound.advance later
  | stand node term later => exact sound.stand later
  | vote node candidate log fresh standing recent => exact sound.vote fresh standing recent
  | elect node quorum vacant standing majority votes =>
    exact sound.elect vacant standing majority votes
  | propose node item leads stamped => exact sound.propose leads stamped
  | adopt node leader count leads other beyond within keeps =>
    exact sound.adopt leads other within
  | decide node count quorum leads beyond majority acknowledged => exact { sound with }

end Sound

/-- The log of a node that holds some of the current leader's ledger is a part of it,
and no longer than what the node ever held. -/
def Follows (s : State Node Item) : Prop :=
  ∀ {term node}, 0 < s.held term node → s.term node = term → s.leader term ≠ some node →
    s.log node <+: s.ledger term ∧ (s.log node).length ≤ s.held term node

theorem Follows.initial : Follows (State.initial : State Node Item) := by
  intro term node held
  exact absurd held (Nat.lt_irrefl 0)

/-- A step keeps that logs follow the leader's. -/
theorem Follows.step {strict : Prop} (follows : Follows s) (sound : Sound members stamp s)
    (step : Step members stamp strict s next) : Follows next := by
  intro term node held current other
  -- A node that just entered a term holds nothing of it.
  have entered {term : ℕ} {node : Node} (later : s.term node < term) : s.held term node = 0 := by
    by_contra positive
    exact absurd (sound.held_term (Nat.pos_of_ne_zero positive)) (Nat.not_le.mpr later)
  cases step with
  | advance mover newTerm later | stand mover newTerm later =>
    dsimp only at held current other ⊢
    by_cases same : node = mover
    · subst same
      rw [Function.update_self] at current
      subst current
      rw [entered later] at held
      exact absurd held (Nat.lt_irrefl 0)
    · rw [Function.update_of_ne same] at current
      exact follows held current other
  | vote | decide => exact follows held current other
  | elect mover quorum vacant =>
    dsimp only at held current other ⊢
    have different : term ≠ s.term mover := by
      rintro rfl
      have bound := sound.held_le (s.term mover) node
      rw [sound.vacant vacant, List.length_nil] at bound
      omega
    rw [Function.update_of_ne different] at other ⊢
    exact follows held current other
  | propose mover item leads =>
    dsimp only at held current other ⊢
    have different : node ≠ mover := by
      rintro rfl
      exact other (current ▸ leads)
    rw [assign_of_ne _ _ fun same => different same.2] at held ⊢
    rw [Function.update_of_ne different]
    obtain ⟨part, short⟩ := follows held current other
    refine ⟨?_, short⟩
    by_cases same : term = s.term mover
    · rw [same, Function.update_self]
      exact (same ▸ part).trans (List.prefix_append _ _)
    · rw [Function.update_of_ne same]
      exact part
  | adopt mover leader count =>
    dsimp only at held current other ⊢
    by_cases same : node = mover
    · subst same
      subst current
      rw [Function.update_self, assign_same]
      exact ⟨List.take_prefix _ _, (List.length_take_le _ _).trans (Nat.le_max_right _ _)⟩
    · rw [assign_of_ne _ _ fun both => same both.2] at held ⊢
      rw [Function.update_of_ne same]
      exact follows held current other

end Foundation.Consensus
