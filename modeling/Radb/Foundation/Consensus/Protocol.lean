import Mathlib

/-! # Replicated logs under elected leaders

An abstract protocol in which nodes move through terms, elect at most one leader per
term by majority vote, and replicate the leader's log. Besides the nodes' own state it
keeps what ever happened: who voted for whom, the log each candidate stood with, the
log each leader led with and its log since, and how much of a leader's log each node
ever held. Items carry the term in which they were proposed as a stamp.

The results are log matching, which needs nothing else, and leader completeness, which
needs that a node never gives up what it holds of the current leader's log.
-/

namespace Foundation.Consensus

variable {Node Item : Type} [DecidableEq Node]

/-- More than half of the members. -/
def Majority (members quorum : Finset Node) : Prop :=
  quorum ⊆ members ∧ members.card < 2 * quorum.card

/-- Two majorities have a member in common. -/
theorem Majority.meet {members first second : Finset Node} (left : Majority members first)
    (right : Majority members second) : ∃ node ∈ first, node ∈ second := by
  by_contra disjoint
  have apart : Disjoint first second := by
    rw [Finset.disjoint_left]
    intro node inFirst inSecond
    exact disjoint ⟨node, inFirst, inSecond⟩
  have union : (first ∪ second).card ≤ members.card :=
    Finset.card_le_card (Finset.union_subset left.1 right.1)
  rw [Finset.card_union_of_disjoint apart] at union
  have leftSize := left.2
  have rightSize := right.2
  omega

/-- Change a function of two arguments at one point. -/
def assign {Value : Type} (function : ℕ → Node → Value) (term : ℕ) (node : Node) (value : Value) :
    ℕ → Node → Value :=
  Function.update function term (Function.update (function term) node value)

@[simp] theorem assign_same {Value : Type} (function : ℕ → Node → Value) (term : ℕ) (node : Node)
    (value : Value) : assign function term node value term node = value := by
  simp [assign]

theorem assign_of_ne {Value : Type} (function : ℕ → Node → Value) {term otherTerm : ℕ}
    {node other : Node} (value : Value) (different : ¬ (otherTerm = term ∧ other = node)) :
    assign function term node value otherTerm other = function otherTerm other := by
  by_cases sameTerm : otherTerm = term
  · subst sameTerm
    have otherNode : other ≠ node := fun same => different ⟨rfl, same⟩
    simp [assign, otherNode]
  · simp [assign, sameTerm]

/-- The state of all nodes and the record of the past. -/
structure State (Node Item : Type) where
  /-- The current term of a node. -/
  term : Node → ℕ
  /-- The log of a node. -/
  log : Node → List Item
  /-- Whom a node voted for in a term. -/
  ballot : ℕ → Node → Option Node
  /-- The log a node had when it stood for election in a term. -/
  stood : ℕ → Node → Option (List Item)
  /-- Who was elected in a term. -/
  leader : ℕ → Option Node
  /-- The log a term's leader was elected with. -/
  base : ℕ → List Item
  /-- The latest log of a term's leader. -/
  ledger : ℕ → List Item
  /-- The length of the longest part of a term's ledger a node ever held. -/
  held : ℕ → Node → ℕ
  /-- The length of the part of a term's ledger its leader found a majority to hold. -/
  decided : ℕ → ℕ

/-- Nothing happened yet. -/
def State.initial : State Node Item where
  term _ := 0
  log _ := []
  ballot _ _ := none
  stood _ _ := none
  leader _ := none
  base _ := []
  ledger _ := []
  held _ _ := 0
  decided _ := 0

section Protocol

variable (members : Finset Node) (stamp : Item → ℕ)

/-- The stamp of the last item, 0 if there is none. -/
def lastStamp (log : List Item) : ℕ := (log.getLast?.map stamp).getD 0

/-- A candidate's log is at least as recent as a voter's. -/
def UpToDate (voter candidate : List Item) : Prop :=
  lastStamp stamp voter < lastStamp stamp candidate ∨
    lastStamp stamp voter = lastStamp stamp candidate ∧ voter.length ≤ candidate.length

/-- The steps of the protocol. Under `strict`, a node that adopts a part of the
leader's log keeps what it held of it. -/
inductive Step (strict : Prop) (s : State Node Item) : State Node Item → Prop where
  | advance (node : Node) (term : ℕ) (later : s.term node < term) :
      Step strict s { s with term := Function.update s.term node term }
  | stand (node : Node) (term : ℕ) (later : s.term node < term) :
      Step strict s { s with
        term := Function.update s.term node term
        ballot := assign s.ballot term node (some node)
        stood := assign s.stood term node (some (s.log node)) }
  | vote (node candidate : Node) (log : List Item)
      (fresh : s.ballot (s.term node) node = none)
      (standing : s.stood (s.term node) candidate = some log)
      (recent : UpToDate stamp (s.log node) log) :
      Step strict s { s with ballot := assign s.ballot (s.term node) node (some candidate) }
  | elect (node : Node) (quorum : Finset Node) (vacant : s.leader (s.term node) = none)
      (standing : s.stood (s.term node) node = some (s.log node))
      (majority : Majority members quorum)
      (votes : ∀ voter ∈ quorum, s.ballot (s.term node) voter = some node) :
      Step strict s { s with
        leader := Function.update s.leader (s.term node) (some node)
        base := Function.update s.base (s.term node) (s.log node)
        ledger := Function.update s.ledger (s.term node) (s.log node) }
  | propose (node : Node) (item : Item) (leads : s.leader (s.term node) = some node)
      (stamped : stamp item = s.term node) :
      Step strict s { s with
        log := Function.update s.log node (s.log node ++ [item])
        ledger := Function.update s.ledger (s.term node) (s.ledger (s.term node) ++ [item])
        held := assign s.held (s.term node) node ((s.ledger (s.term node)).length + 1) }
  | adopt (node leader : Node) (count : ℕ) (leads : s.leader (s.term node) = some leader)
      (other : leader ≠ node) (beyond : (s.base (s.term node)).length < count)
      (within : count ≤ (s.ledger (s.term node)).length)
      (keeps : strict → s.held (s.term node) node ≤ count) :
      Step strict s { s with
        log := Function.update s.log node ((s.ledger (s.term node)).take count)
        held := assign s.held (s.term node) node (max (s.held (s.term node) node) count) }
  | decide (node : Node) (count : ℕ) (quorum : Finset Node)
      (leads : s.leader (s.term node) = some node)
      (beyond : (s.base (s.term node)).length < count) (majority : Majority members quorum)
      (acknowledged : ∀ voter ∈ quorum, count ≤ s.held (s.term node) voter) :
      Step strict s { s with
        decided := Function.update s.decided (s.term node)
          (max (s.decided (s.term node)) count) }

/-- Every item of a log stands where it stands in the ledger of its stamp, with the
same items in front of it. -/
def Matching (s : State Node Item) (log : List Item) : Prop :=
  ∀ position item, log[position]? = some item → log.take (position + 1) <+: s.ledger (stamp item)

/-- What holds of elections and logs, however logs are adopted. -/
structure Sound (s : State Node Item) : Prop where
  ballot_le : ∀ {term node candidate}, s.ballot term node = some candidate → term ≤ s.term node
  ballot_stood : ∀ {term node candidate}, s.ballot term node = some candidate →
    ∃ log, s.stood term candidate = some log
  stood_le : ∀ {term node log}, s.stood term node = some log → term ≤ s.term node
  stood_lt : ∀ {term node log}, s.stood term node = some log → ∀ item ∈ log, stamp item < term
  log_le : ∀ {node item}, item ∈ s.log node → stamp item ≤ s.term node
  vacant : ∀ {term}, s.leader term = none → s.ledger term = []
  leader_le : ∀ {term node}, s.leader term = some node → term ≤ s.term node
  leader_log : ∀ {term node}, s.leader term = some node → s.term node = term →
    s.log node = s.ledger term
  leader_stood : ∀ {term node}, s.leader term = some node →
    s.stood term node = some (s.base term)
  ledger_eq : ∀ {term node}, s.leader term = some node → ∃ proposed,
    s.ledger term = s.base term ++ proposed ∧ ∀ item ∈ proposed, stamp item = term
  elected : ∀ {term node}, s.leader term = some node → ∃ quorum, Majority members quorum ∧
    ∀ voter ∈ quorum, s.ballot term voter = some node
  held_le : ∀ term node, s.held term node ≤ (s.ledger term).length
  held_term : ∀ {term node}, 0 < s.held term node → term ≤ s.term node
  matching_log : ∀ node, Matching stamp s (s.log node)
  matching_stood : ∀ {term node log}, s.stood term node = some log → Matching stamp s log

/-- What is recorded stays recorded. -/
structure Grows (s next : State Node Item) : Prop where
  term : ∀ node, s.term node ≤ next.term node
  ballot : ∀ {term node candidate}, s.ballot term node = some candidate →
    next.ballot term node = some candidate
  stood : ∀ {term node log}, s.stood term node = some log → next.stood term node = some log
  leader : ∀ {term node}, s.leader term = some node → next.leader term = some node
  base : ∀ {term node}, s.leader term = some node → next.base term = s.base term
  ledger : ∀ term, s.ledger term <+: next.ledger term
  held : ∀ term node, s.held term node ≤ next.held term node
  decided : ∀ term, s.decided term ≤ next.decided term

variable {members stamp}

theorem Grows.refl (s : State Node Item) : Grows s s where
  term _ := Nat.le_refl _
  ballot found := found
  stood found := found
  leader found := found
  base _ := rfl
  ledger _ := List.prefix_rfl
  held _ _ := Nat.le_refl _
  decided _ := Nat.le_refl _

theorem Grows.trans {s mid next : State Node Item} (first : Grows s mid) (second : Grows mid next) :
    Grows s next where
  term node := Nat.le_trans (first.term node) (second.term node)
  ballot found := second.ballot (first.ballot found)
  stood found := second.stood (first.stood found)
  leader found := second.leader (first.leader found)
  base found := (second.base (first.leader found)).trans (first.base found)
  ledger term := (first.ledger term).trans (second.ledger term)
  held term node := Nat.le_trans (first.held term node) (second.held term node)
  decided term := Nat.le_trans (first.decided term) (second.decided term)

/-- A later term of a node replaces an earlier one only. -/
theorem le_update_term {s : State Node Item} {node : Node} {term : ℕ} (later : s.term node < term)
    (other : Node) : s.term other ≤ Function.update s.term node term other := by
  by_cases same : other = node
  · subst same
    simpa using later.le
  · simp [same]

/-- The record only grows. -/
theorem Sound.grows {strict : Prop} {s next : State Node Item} (sound : Sound members stamp s)
    (step : Step members stamp strict s next) : Grows s next := by
  cases step with
  | advance node term later => exact { Grows.refl s with term := le_update_term later }
  | stand node term later =>
    refine { Grows.refl s with term := le_update_term later, ballot := ?_, stood := ?_ }
    · intro otherTerm other candidate found
      dsimp only
      rw [assign_of_ne]
      · exact found
      · rintro ⟨rfl, rfl⟩
        exact absurd (sound.ballot_le found) (Nat.not_le.mpr later)
    · intro otherTerm other log found
      dsimp only
      rw [assign_of_ne]
      · exact found
      · rintro ⟨rfl, rfl⟩
        exact absurd (sound.stood_le found) (Nat.not_le.mpr later)
  | vote node candidate log fresh =>
    refine { Grows.refl s with ballot := ?_ }
    intro otherTerm other otherCandidate found
    dsimp only
    rw [assign_of_ne]
    · exact found
    · rintro ⟨rfl, rfl⟩
      rw [fresh] at found
      cases found
  | elect node quorum vacant =>
    refine { Grows.refl s with leader := ?_, base := ?_, ledger := ?_ }
    · intro term other found
      have different : term ≠ s.term node := by
        rintro rfl
        rw [vacant] at found
        cases found
      simpa [different] using found
    · intro term other found
      have different : term ≠ s.term node := by
        rintro rfl
        rw [vacant] at found
        cases found
      simp [different]
    · intro term
      by_cases same : term = s.term node
      · rw [same, sound.vacant vacant]
        exact List.nil_prefix
      · simp [same]
  | propose node =>
    refine { Grows.refl s with ledger := ?_, held := ?_ }
    · intro term
      by_cases same : term = s.term node
      · subst same
        simp
      · simp [same]
    · intro term other
      dsimp only
      by_cases same : term = s.term node ∧ other = node
      · obtain ⟨rfl, rfl⟩ := same
        rw [assign_same]
        exact Nat.le_succ_of_le (sound.held_le _ _)
      · rw [assign_of_ne _ _ same]
  | adopt node =>
    refine { Grows.refl s with held := ?_ }
    intro term reader
    dsimp only
    by_cases same : term = s.term node ∧ reader = node
    · obtain ⟨rfl, rfl⟩ := same
      rw [assign_same]
      exact Nat.le_max_left _ _
    · rw [assign_of_ne _ _ same]
  | decide node =>
    refine { Grows.refl s with decided := ?_ }
    intro term
    by_cases same : term = s.term node
    · subst same
      simp
    · simp [same]

end Protocol

end Foundation.Consensus
