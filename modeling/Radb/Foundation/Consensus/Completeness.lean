import Radb.Foundation.Consensus.Matching

/-! # Leader completeness

If nodes never give up what they hold of the current leader's log, every leader is
elected with all that an earlier one found a majority to hold.
-/

namespace Foundation.Consensus

variable {Node Item : Type} [DecidableEq Node] {members : Finset Node} {stamp : Item → ℕ}

variable {term count later : ℕ} {log : List Item} {next : State Node Item} {node : Node}
  {quorum : Finset Node}

/-- A part of a term's ledger is kept by a log, or some later leader below `bound`
was elected without it. -/
def Kept (s : State Node Item) (term count : ℕ) (log : List Item) (bound : ℕ) : Prop :=
  (s.ledger term).take count <+: log ∨ ∃ later, term < later ∧ later < bound ∧
    s.leader later ≠ none ∧ ¬ (s.ledger term).take count <+: s.base later

/-- The own part of a term's ledger that a node holds: it ends behind the base. -/
def Holds (s : State Node Item) (term count : ℕ) (node : Node) : Prop :=
  (s.base term).length < count ∧ count ≤ s.held term node

variable (members stamp) in

/-- What holds in addition if nodes never give up what they hold. -/
structure Safe (s : State Node Item) : Prop extends Sound members stamp s where
  follower_log : ∀ {term node}, 0 < s.held term node → s.term node = term →
    s.leader term ≠ some node → s.log node = (s.ledger term).take (s.held term node)
  kept : ∀ {term count node}, Holds s term count node →
    Kept s term count (s.log node) (s.term node + 1)
  voters : ∀ {term voter candidate log}, s.leader term = none →
    s.ballot term voter = some candidate → s.stood term candidate = some log →
      ∀ {earlier count}, earlier < term → Holds s earlier count voter →
        Kept s earlier count log term
  electors : ∀ {term node}, s.leader term = some node → ∃ quorum, Majority members quorum ∧
    ∀ voter ∈ quorum, s.ballot term voter = some node ∧
      ∀ {earlier count}, earlier < term → Holds s earlier count voter →
        Kept s earlier count (s.base term) term
  decisions : ∀ {term}, 0 < s.decided term → s.leader term ≠ none ∧
    (s.base term).length < s.decided term ∧ ∃ quorum, Majority members quorum ∧
      ∀ voter ∈ quorum, s.decided term ≤ s.held term voter

theorem Kept.bound_mono {bound wider : ℕ} (kept : Kept s term count log bound)
    (larger : bound ≤ wider) :
    Kept s term count log wider := by
  rcases kept with here | ⟨later, after, before, leads, lacks⟩
  · exact .inl here
  · exact .inr ⟨later, after, Nat.lt_of_lt_of_le before larger, leads, lacks⟩

/-- What is kept stays kept as the record grows. -/
theorem Kept.mono {bound : ℕ} (kept : Kept s term count log bound) (grows : Grows s next)
    (within : count ≤ (s.ledger term).length) : Kept next term count log bound := by
  have same : (next.ledger term).take count = (s.ledger term).take count := by
    obtain ⟨rest, split⟩ := grows.ledger term
    rw [← split, List.take_append_of_le_length within]
  rcases kept with here | ⟨later, after, before, leads, lacks⟩
  · exact .inl (same ▸ here)
  · obtain ⟨leader, found⟩ := Option.ne_none_iff_exists'.mp leads
    refine .inr ⟨later, after, before, ?_, ?_⟩
    · rw [grows.leader found]
      simp
    · rw [same, grows.base found]
      exact lacks

theorem Safe.initial : Safe members stamp (State.initial : State Node Item) := by
  refine { Sound.initial with
    follower_log := by simp [State.initial]
    kept := ?_
    voters := by simp [State.initial]
    electors := by simp [State.initial]
    decisions := by simp [State.initial] }
  rintro term count node ⟨beyond, below⟩
  exact absurd (Nat.lt_of_lt_of_le beyond below) (Nat.lt_irrefl 0)

/-- A matching log is part of the ledger of its last stamp. -/
theorem Matching.prefix_ledger {last : Item} (matching : Matching stamp s log)
    (ends : log.getLast? = some last) :
    log <+: s.ledger (stamp last) := by
  rw [List.getLast?_eq_getElem?] at ends
  have below := (List.getElem?_eq_some_iff.mp ends).1
  have isPrefix := matching _ _ ends
  rwa [show log.length - 1 + 1 = log.length by omega, List.take_length] at isPrefix

theorem exists_getLast? (log : List Item) (positive : 0 < log.length) :
    ∃ last, log.getLast? = some last :=
  Option.ne_none_iff_exists'.mp fun none =>
    Nat.lt_irrefl 0 ((List.getLast?_eq_none_iff.mp none ▸ positive : 0 < ([] : List Item).length))

namespace Safe

variable {s : State Node Item} (safe : Safe members stamp s)
include safe

theorem holds_le (holds : Holds s term count node) :
    count ≤ (s.ledger term).length := Nat.le_trans holds.2 (safe.held_le term node)

/-- The last item of a part that reaches behind the base is stamped with the term. -/
theorem stamp_last (beyond : (s.base term).length < count)
    (within : count ≤ (s.ledger term).length) :
    ∃ item, (s.ledger term)[count - 1]? = some item ∧ stamp item = term := by
  have below : count - 1 < (s.ledger term).length := by omega
  refine ⟨_, List.getElem?_eq_getElem below, ?_⟩
  exact safe.stamp_of_base_le (List.getElem?_eq_getElem below) (by omega)

/-- A matching log that ends with a later stamp is at least as long as any part of an
earlier ledger that its own last ledger extends. -/
theorem prefix_of_later (beyond : (s.base term).length < count)
    (within : count ≤ (s.ledger term).length)
    (extends_ : (s.ledger term).take count <+: s.ledger later) (isPrefix : log <+: s.ledger later)
    {last : Item} (ends : log.getLast? = some last) (after : term < stamp last) :
    (s.ledger term).take count <+: log := by
  refine List.prefix_of_prefix_length_le extends_ isPrefix ?_
  obtain ⟨item, found, stamped⟩ := safe.stamp_last beyond within
  by_contra short
  rw [List.length_take, Nat.min_eq_left within, Nat.not_le] at short
  -- The last item of the shorter log would be stamped no later than `item`.
  have foundLast : (s.ledger later)[log.length - 1]? = some last := by
    obtain ⟨rest, split⟩ := isPrefix
    rw [List.getLast?_eq_getElem?] at ends
    have below := (List.getElem?_eq_some_iff.mp ends).1
    rw [← split, List.getElem?_append_left below, ends]
  have foundItem : (s.ledger later)[count - 1]? = some item := by
    obtain ⟨rest, split⟩ := extends_
    rw [← split, List.getElem?_append_left (by rw [List.length_take]; omega), List.getElem?_take,
      if_pos (by omega), found]
  have ordered := safe.stamp_le_of_matching (safe.matching_ledger later)
    (show log.length - 1 ≤ count - 1 by omega) foundLast foundItem
  omega

/-- What a voter kept, a candidate with a more recent log keeps too. -/
theorem kept_of_upToDate {voter : Node} (vacant : s.leader (s.term voter) = none)
    (holds : Holds s term count voter) (matching : Matching stamp s log)
    (stamps : ∀ item ∈ log, stamp item < s.term voter) (recent : UpToDate stamp (s.log voter) log) :
    Kept s term count log (s.term voter) := by
  have within := safe.holds_le holds
  have positive : 0 < count := Nat.zero_lt_of_lt holds.1
  obtain ⟨item, found, stamped⟩ := safe.stamp_last holds.1 within
  rcases safe.kept holds with here | ⟨later, after, before, leads, lacks⟩
  · have long : count ≤ (s.log voter).length := by
      simpa [List.length_take, Nat.min_eq_left within] using here.length_le
    have foundVoter : (s.log voter)[count - 1]? = some item := by
      obtain ⟨rest, split⟩ := here
      rw [← split, List.getElem?_append_left (by rw [List.length_take]; omega),
        List.getElem?_take, if_pos (by omega), found]
    obtain ⟨lastVoter, endsVoter⟩ := exists_getLast? (s.log voter) (by omega)
    have prefixVoter := (safe.matching_log voter).prefix_ledger endsVoter
    have after : term ≤ stamp lastVoter := by
      rw [← stamped]
      rw [List.getLast?_eq_getElem?] at endsVoter
      exact safe.stamp_le_of_matching (safe.matching_log voter) (by omega) foundVoter endsVoter
    have nonempty : 0 < log.length := by
      rcases recent with newer | ⟨_, longer⟩
      · rcases log with _ | ⟨first, rest⟩
        · exact absurd newer (Nat.not_lt_zero _)
        · exact Nat.succ_pos _
      · omega
    obtain ⟨last, ends⟩ := exists_getLast? log nonempty
    have isPrefix := matching.prefix_ledger ends
    simp only [UpToDate, lastStamp, endsVoter, ends, Option.map_some, Option.getD_some] at recent
    rcases recent with newer | ⟨same, longer⟩
    · -- The candidate's last item belongs to a later leader, which has the part or lacks it.
      have earlier := stamps last (List.mem_of_getLast? ends)
      have leads : s.leader (stamp last) ≠ none := by
        intro none
        rw [safe.vacant none] at isPrefix
        rw [List.prefix_nil.mp isPrefix] at nonempty
        exact Nat.lt_irrefl 0 nonempty
      obtain ⟨leader, leadsSome⟩ := Option.ne_none_iff_exists'.mp leads
      by_cases has : (s.ledger term).take count <+: s.base (stamp last)
      · exact .inl (safe.prefix_of_later holds.1 within
          (has.trans (safe.base_prefix leadsSome)) isPrefix ends
          (Nat.lt_of_le_of_lt after newer))
      · exact .inr ⟨stamp last, Nat.lt_of_le_of_lt after newer, earlier, leads, has⟩
    · rw [same] at prefixVoter
      exact .inl (here.trans (List.prefix_of_prefix_length_le prefixVoter isPrefix longer))
  · refine .inr ⟨later, after, ?_, leads, lacks⟩
    refine Nat.lt_of_le_of_ne (Nat.le_of_lt_succ before) ?_
    rintro rfl
    exact leads vacant

/-- Leader completeness: what a majority holds of a term's ledger, every later leader
was elected with. -/
theorem completeness (beyond : (s.base term).length < count) (majority : Majority members quorum)
    (holders : ∀ voter ∈ quorum, count ≤ s.held term voter) :
    ∀ {later : ℕ}, term < later → s.leader later ≠ none →
      (s.ledger term).take count <+: s.base later := by
  intro later
  induction later using Nat.strong_induction_on with
  | _ later ih =>
    intro after leads
    obtain ⟨leader, found⟩ := Option.ne_none_iff_exists'.mp leads
    obtain ⟨electorate, electors, keeps⟩ := safe.electors found
    obtain ⟨voter, holder, elector⟩ := majority.meet electors
    rcases (keeps voter elector).2 after ⟨beyond, holders voter holder⟩ with
      here | ⟨between, above, below, leadsBetween, lacks⟩
    · exact here
    · exact absurd (ih between below above leadsBetween) lacks

/-- Every later leader was elected with everything decided. -/
theorem decided_prefix (after : term < later) (leads : s.leader later ≠ none) :
    (s.ledger term).take (s.decided term) <+: s.base later := by
  rcases Nat.eq_zero_or_pos (s.decided term) with none | positive
  · rw [none, List.take_zero]
    exact List.nil_prefix
  · obtain ⟨_, beyond, quorum, majority, holders⟩ := safe.decisions positive
    exact safe.completeness beyond majority holders after leads

/-- Of two decided parts, the one of the earlier term is part of the later ledger. -/
theorem decided_prefix_ledger (ordered : term ≤ later) (leads : s.leader later ≠ none) :
    (s.ledger term).take (s.decided term) <+: s.ledger later := by
  rcases Nat.eq_or_lt_of_le ordered with rfl | after
  · exact List.take_prefix _ _
  · obtain ⟨leader, found⟩ := Option.ne_none_iff_exists'.mp leads
    exact (safe.decided_prefix after leads).trans (safe.base_prefix found)

/-- Decided items at one position are the same, whatever term decided them. -/
theorem decided_unique {first second position : ℕ} {item other : Item}
    (found : ((s.ledger first).take (s.decided first))[position]? = some item)
    (foundOther : ((s.ledger second).take (s.decided second))[position]? = some other) :
    item = other := by
  have leads {term : ℕ} {item : Item}
      (found : ((s.ledger term).take (s.decided term))[position]? = some item) :
      s.leader term ≠ none := by
    intro none
    rw [safe.vacant none] at found
    simp at found
  have read {term later : ℕ} {item : Item} (ordered : term ≤ later)
      (leadsLater : s.leader later ≠ none)
      (found : ((s.ledger term).take (s.decided term))[position]? = some item) :
      (s.ledger later)[position]? = some item := by
    obtain ⟨rest, split⟩ := safe.decided_prefix_ledger ordered leadsLater
    rw [← split, List.getElem?_append_left (List.getElem?_eq_some_iff.mp found).1, found]
  rcases Nat.le_total first second with ordered | ordered
  · exact Option.some.inj ((read ordered (leads foundOther) found).symm.trans
      (read (Nat.le_refl _) (leads foundOther) foundOther))
  · exact Option.some.inj ((read (Nat.le_refl _) (leads found) found).symm.trans
      (read ordered (leads found) foundOther))

/-- Steps that change neither logs nor elections nor what is held keep the invariant,
if they respect the votes for open elections. -/
theorem of_frame (sound : Sound members stamp next) (grows : Grows s next)
    (log : next.log = s.log) (leader : next.leader = s.leader) (base : next.base = s.base)
    (ledger : next.ledger = s.ledger) (held : next.held = s.held)
    (decided : next.decided = s.decided)
    (voters : ∀ {term voter candidate log}, next.leader term = none →
      next.ballot term voter = some candidate → next.stood term candidate = some log →
        ∀ {earlier count}, earlier < term → Holds next earlier count voter →
          Kept next earlier count log term) : Safe members stamp next := by
  have holds {term count : ℕ} {node : Node} (kept : Holds next term count node) :
      Holds s term count node := by
    rwa [Holds, base, held] at kept
  refine { sound with
    follower_log := ?_
    kept := ?_
    voters := voters
    electors := ?_
    decisions := ?_ }
  · intro term node positive current other
    rw [held] at positive
    rw [leader] at other
    rw [log, ledger, held]
    refine safe.follower_log positive ?_ other
    exact Nat.le_antisymm (current ▸ grows.term node) (safe.held_term positive)
  · intro term count node kept
    rw [log]
    exact ((safe.kept (holds kept)).mono grows (safe.holds_le (holds kept))).bound_mono
      (Nat.succ_le_succ (grows.term node))
  · intro term node leads
    rw [leader] at leads
    obtain ⟨quorum, majority, keeps⟩ := safe.electors leads
    refine ⟨quorum, majority, fun voter inside => ⟨grows.ballot (keeps voter inside).1, ?_⟩⟩
    intro earlier count before kept
    rw [base]
    exact ((keeps voter inside).2 before (holds kept)).mono grows (safe.holds_le (holds kept))
  · intro term positive
    rw [decided] at positive
    rw [leader, base, decided, held]
    exact safe.decisions positive

theorem advance (later : s.term node < term) :
    Safe members stamp { s with term := Function.update s.term node term } := by
  have step : Step members stamp True s { s with term := Function.update s.term node term } :=
    .advance node term later
  exact safe.of_frame (safe.toSound.step step) (safe.toSound.grows step) rfl rfl rfl rfl rfl rfl
    safe.voters

theorem stand (later : s.term node < term) :
    Safe members stamp { s with
      term := Function.update s.term node term
      ballot := assign s.ballot term node (some node)
      stood := assign s.stood term node (some (s.log node)) } := by
  have step : Step members stamp True s _ := .stand node term later
  have grows := safe.toSound.grows step
  refine safe.of_frame (safe.toSound.step step) grows rfl rfl rfl rfl rfl rfl ?_
  intro otherTerm voter candidate log vacant voted standing earlier count before holds
  dsimp only at vacant voted standing
  by_cases same : otherTerm = term ∧ voter = node
  · -- The candidate votes for itself with the log it stands with.
    obtain ⟨rfl, rfl⟩ := same
    rw [assign_same, Option.some.injEq] at voted
    subst voted
    rw [assign_same, Option.some.injEq] at standing
    subst standing
    exact ((safe.kept holds).mono grows (safe.holds_le holds)).bound_mono later
  · rw [assign_of_ne _ _ same] at voted
    obtain ⟨stoodWith, stood⟩ := safe.ballot_stood voted
    obtain rfl := Option.some.inj ((grows.stood stood).symm.trans standing)
    exact (safe.voters vacant voted stood before holds).mono grows (safe.holds_le holds)

theorem vote {candidate : Node} (fresh : s.ballot (s.term node) node = none)
    (standing : s.stood (s.term node) candidate = some log)
    (recent : UpToDate stamp (s.log node) log) :
    Safe members stamp { s with
      ballot := assign s.ballot (s.term node) node (some candidate) } := by
  have step : Step members stamp True s _ := .vote node candidate log fresh standing recent
  refine safe.of_frame (safe.toSound.step step) (safe.toSound.grows step) rfl rfl rfl rfl rfl rfl ?_
  intro term voter other found vacant voted stood earlier count before holds
  dsimp only at vacant voted stood
  by_cases same : term = s.term node ∧ voter = node
  · obtain ⟨rfl, rfl⟩ := same
    rw [assign_same, Option.some.injEq] at voted
    subst voted
    obtain rfl := Option.some.inj (standing.symm.trans stood)
    exact safe.kept_of_upToDate vacant holds (safe.matching_stood standing)
      (safe.stood_lt standing) recent
  · rw [assign_of_ne _ _ same] at voted
    exact safe.voters vacant voted stood before holds

theorem elect (vacant : s.leader (s.term node) = none)
    (standing : s.stood (s.term node) node = some (s.log node))
    (majority : Majority members quorum)
    (votes : ∀ voter ∈ quorum, s.ballot (s.term node) voter = some node) :
    Safe members stamp { s with
      leader := Function.update s.leader (s.term node) (some node)
      base := Function.update s.base (s.term node) (s.log node)
      ledger := Function.update s.ledger (s.term node) (s.log node) } := by
  have step : Step members stamp True s _ := .elect node quorum vacant standing majority votes
  have grows := safe.toSound.grows step
  -- Nothing of the new leader's ledger is held yet.
  have unheld (voter : Node) : s.held (s.term node) voter = 0 :=
    Nat.eq_zero_of_le_zero (by simpa [safe.vacant vacant] using safe.held_le (s.term node) voter)
  have holds {term count : ℕ} {voter : Node}
      (kept : (Function.update s.base (s.term node) (s.log node) term).length < count ∧
        count ≤ s.held term voter) : Holds s term count voter ∧ term ≠ s.term node := by
    have different : term ≠ s.term node := by
      rintro rfl
      have positive := Nat.lt_of_lt_of_le kept.1 kept.2
      rw [unheld] at positive
      exact Nat.not_lt_zero _ positive
    rw [Function.update_of_ne different] at kept
    exact ⟨kept, different⟩
  refine { safe.toSound.step step with
    follower_log := ?_
    kept := ?_
    voters := ?_
    electors := ?_
    decisions := ?_ }
  · intro term voter positive current other
    dsimp only at positive current other ⊢
    have different : term ≠ s.term node := by
      rintro rfl
      rw [unheld] at positive
      exact Nat.not_lt_zero _ positive
    rw [Function.update_of_ne different] at other ⊢
    exact safe.follower_log positive current other
  · intro term count voter kept
    obtain ⟨before, _⟩ := holds kept
    exact (safe.kept before).mono grows (safe.holds_le before)
  · intro term voter candidate log undecided voted stood earlier count before kept
    dsimp only at undecided
    have different : term ≠ s.term node := by
      rintro rfl
      rw [Function.update_self] at undecided
      cases undecided
    rw [Function.update_of_ne different] at undecided
    obtain ⟨kept, _⟩ := holds kept
    exact (safe.voters undecided voted stood before kept).mono grows (safe.holds_le kept)
  · intro term leader leads
    dsimp only at leads ⊢
    by_cases same : term = s.term node
    · subst same
      rw [Function.update_self, Option.some.injEq] at leads
      subst leads
      refine ⟨quorum, majority, fun voter inside => ⟨votes voter inside, ?_⟩⟩
      intro earlier count before kept
      obtain ⟨kept, _⟩ := holds kept
      rw [Function.update_self]
      exact (safe.voters vacant (votes voter inside) standing before kept).mono grows
        (safe.holds_le kept)
    · rw [Function.update_of_ne same] at leads
      obtain ⟨electorate, electors, keeps⟩ := safe.electors leads
      refine ⟨electorate, electors, fun voter inside => ⟨(keeps voter inside).1, ?_⟩⟩
      intro earlier count before kept
      obtain ⟨kept, _⟩ := holds kept
      rw [Function.update_of_ne same]
      exact ((keeps voter inside).2 before kept).mono grows (safe.holds_le kept)
  · intro term positive
    dsimp only at positive ⊢
    obtain ⟨leads, beyond, electorate, electors, holders⟩ := safe.decisions positive
    have different : term ≠ s.term node := by
      rintro rfl
      exact leads vacant
    rw [Function.update_of_ne different, Function.update_of_ne different]
    exact ⟨leads, beyond, electorate, electors, holders⟩

/-- Steps that change the log of one node and what it holds in its current term keep
what is known about votes, elections and decisions. -/
theorem of_local (sound : Sound members stamp next) (grows : Grows s next)
    (ballot : next.ballot = s.ballot) (stood : next.stood = s.stood)
    (leader : next.leader = s.leader) (base : next.base = s.base)
    (decided : next.decided = s.decided)
    (held : ∀ term other, ¬ (term = s.term node ∧ other = node) →
      next.held term other = s.held term other)
    (follower_log : ∀ {term other}, 0 < next.held term other → next.term other = term →
      next.leader term ≠ some other →
        next.log other = (next.ledger term).take (next.held term other))
    (kept : ∀ {term count other}, Holds next term count other →
      Kept next term count (next.log other) (next.term other + 1)) : Safe members stamp next := by
  -- A node that voted in a later term holds no more of an earlier one than before.
  have holds {term count earlier : ℕ} {voter candidate : Node}
      (voted : s.ballot term voter = some candidate) (before : earlier < term)
      (holding : Holds next earlier count voter) : Holds s earlier count voter := by
    rwa [Holds, base, held] at holding
    rintro ⟨rfl, rfl⟩
    exact absurd (safe.ballot_le voted) (Nat.not_le.mpr before)
  refine { sound with
    follower_log := follower_log
    kept := kept
    voters := ?_
    electors := ?_
    decisions := ?_ }
  · intro term voter candidate log vacant voted standing earlier count before holding
    rw [leader] at vacant
    rw [ballot] at voted
    rw [stood] at standing
    have earlierHolds := holds voted before holding
    exact (safe.voters vacant voted standing before earlierHolds).mono grows
      (safe.holds_le earlierHolds)
  · intro term other leads
    rw [leader] at leads
    obtain ⟨quorum, majority, keeps⟩ := safe.electors leads
    refine ⟨quorum, majority, fun voter inside => ⟨grows.ballot (keeps voter inside).1, ?_⟩⟩
    intro earlier count before holding
    have earlierHolds := holds (keeps voter inside).1 before holding
    rw [base]
    exact ((keeps voter inside).2 before earlierHolds).mono grows (safe.holds_le earlierHolds)
  · intro term positive
    rw [decided] at positive
    rw [leader, base, decided]
    obtain ⟨leads, beyond, quorum, majority, holders⟩ := safe.decisions positive
    exact ⟨leads, beyond, quorum, majority, fun voter inside =>
      Nat.le_trans (holders voter inside) (grows.held _ _)⟩

theorem propose {item : Item} (leads : s.leader (s.term node) = some node)
    (stamped : stamp item = s.term node) :
    Safe members stamp { s with
      log := Function.update s.log node (s.log node ++ [item])
      ledger := Function.update s.ledger (s.term node) (s.ledger (s.term node) ++ [item])
      held := assign s.held (s.term node) node ((s.ledger (s.term node)).length + 1) } := by
  have step : Step members stamp True s _ := .propose node item leads stamped
  have grows := safe.toSound.grows step
  have own := safe.leader_log leads rfl
  refine safe.of_local (safe.toSound.step step) grows rfl rfl rfl rfl rfl
    (fun _ _ different => assign_of_ne _ _ different) ?_ ?_
  · intro term other positive current notLeader
    dsimp only at positive current notLeader ⊢
    have different : other ≠ node := by
      rintro rfl
      exact notLeader (current ▸ leads)
    rw [assign_of_ne _ _ (fun same => different same.2)] at positive ⊢
    rw [Function.update_of_ne different, safe.follower_log positive current notLeader]
    by_cases same : term = s.term node
    · subst same
      rw [Function.update_self, List.take_append_of_le_length (safe.held_le _ _)]
    · rw [Function.update_of_ne same]
  · intro term count other holding
    by_cases here : term = s.term node ∧ other = node
    · obtain ⟨rfl, rfl⟩ := here
      left
      dsimp only
      rw [Function.update_self, Function.update_self, own]
      exact List.take_prefix _ _
    · have holdingBefore : Holds s term count other := by
        simp only [Holds, assign_of_ne _ _ here] at holding
        exact holding
      have before := (safe.kept holdingBefore).mono grows (safe.holds_le holdingBefore)
      by_cases same : other = node
      · subst same
        dsimp only
        rw [Function.update_self]
        rcases before with inside | lacking
        · exact .inl (inside.trans (List.prefix_append _ _))
        · exact .inr lacking
      · dsimp only
        rw [Function.update_of_ne same]
        exact before

theorem adopt {leader : Node} (leads : s.leader (s.term node) = some leader)
    (other : leader ≠ node) (beyond : (s.base (s.term node)).length < count)
    (within : count ≤ (s.ledger (s.term node)).length) (keeps : s.held (s.term node) node ≤ count) :
    Safe members stamp { s with
      log := Function.update s.log node ((s.ledger (s.term node)).take count)
      held := assign s.held (s.term node) node (max (s.held (s.term node) node) count) } := by
  have step : Step members stamp True s _ :=
    .adopt node leader count leads other beyond within fun _ => keeps
  have grows := safe.toSound.grows step
  refine safe.of_local (safe.toSound.step step) grows rfl rfl rfl rfl rfl
    (fun _ _ different => assign_of_ne _ _ different) ?_ ?_
  · intro term reader positive current notLeader
    dsimp only at positive current notLeader ⊢
    by_cases same : reader = node
    · subst same
      subst current
      rw [Function.update_self, assign_same, Nat.max_eq_right keeps]
    · rw [assign_of_ne _ _ (fun both => same both.2)] at positive ⊢
      rw [Function.update_of_ne same]
      exact safe.follower_log positive current notLeader
  · intro term part reader holding
    by_cases here : term = s.term node ∧ reader = node
    · obtain ⟨rfl, rfl⟩ := here
      left
      have below := holding.2
      dsimp only at below ⊢
      rw [assign_same, Nat.max_eq_right keeps] at below
      rw [Function.update_self]
      exact List.take_prefix_take_left below
    · have holdingBefore : Holds s term part reader := by
        simp only [Holds, assign_of_ne _ _ here] at holding
        exact holding
      by_cases same : reader = node
      · subst same
        have earlier : term < s.term reader :=
          Nat.lt_of_le_of_ne (safe.held_term (Nat.zero_lt_of_lt
            (Nat.lt_of_lt_of_le holdingBefore.1 holdingBefore.2))) fun same => here ⟨same, rfl⟩
        dsimp only
        rw [Function.update_self]
        -- The leader has the part, below its own items, or it is a leader without it.
        by_cases has : (s.ledger term).take part <+: s.base (s.term reader)
        · refine .inl (List.prefix_of_prefix_length_le (has.trans (safe.base_prefix leads))
            (List.take_prefix _ _) ?_)
          have short := has.length_le
          simp only [List.length_take] at short ⊢
          omega
        · refine .inr ⟨s.term reader, earlier, Nat.lt_succ_self _, ?_, has⟩
          dsimp only
          rw [leads]
          simp
      · dsimp only
        rw [Function.update_of_ne same]
        exact (safe.kept holdingBefore).mono grows (safe.holds_le holdingBefore)

theorem decide (leads : s.leader (s.term node) = some node)
    (beyond : (s.base (s.term node)).length < count) (majority : Majority members quorum)
    (acknowledged : ∀ voter ∈ quorum, count ≤ s.held (s.term node) voter) :
    Safe members stamp { s with
      decided := Function.update s.decided (s.term node)
        (max (s.decided (s.term node)) count) } := by
  refine { safe with decisions := ?_ }
  intro term positive
  dsimp only at positive ⊢
  by_cases same : term = s.term node
  · subst same
    rw [Function.update_self] at positive ⊢
    refine ⟨by rw [leads]; simp, Nat.lt_of_lt_of_le beyond (Nat.le_max_right _ _), ?_⟩
    rcases Nat.le_total (s.decided (s.term node)) count with less | more
    · rw [Nat.max_eq_right less]
      exact ⟨quorum, majority, acknowledged⟩
    · rw [Nat.max_eq_left more] at positive ⊢
      exact (safe.decisions positive).2.2
  · rw [Function.update_of_ne same] at positive ⊢
    exact safe.decisions positive

/-- Every strict step keeps the invariant. -/
theorem step (step : Step members stamp True s next) :
    Safe members stamp next := by
  cases step with
  | advance node term later => exact safe.advance later
  | stand node term later => exact safe.stand later
  | vote node candidate log fresh standing recent => exact safe.vote fresh standing recent
  | elect node quorum vacant standing majority votes =>
    exact safe.elect vacant standing majority votes
  | propose node item leads stamped => exact safe.propose leads stamped
  | adopt node leader count leads other beyond within keeps =>
    exact safe.adopt leads other beyond within (keeps trivial)
  | decide node count quorum leads beyond majority acknowledged =>
    exact safe.decide leads beyond majority acknowledged

end Safe

end Foundation.Consensus
