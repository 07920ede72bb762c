import Radb.Foundation.System
import Radb.Raft.LogContents

/-! # The log store invariant

Runs of log operations with arbitrary arguments, reopened at any point. Splicing
entries that are all stored already skips the commit check and may truncate the log
below its commit index; in runs without such a splice the log store invariant holds.
-/

namespace Radb.Raft.Log

open Foundation Foundation.Program

variable {items new : List Item}

/-- A call of a log operation. -/
inductive Call where
  | append (term : Nat) (command : Option Bytes)
  | commit (index : Nat)
  | splice (entries : List Entry)
  | setTerm (term : Nat) (votedFor : Option NodeID)
  /-- Close the log and open its engine again. -/
  | reopen

/-- An open log and its engine. -/
structure Opened where
  log : Log
  engine : Engine

namespace Opened

/-- A log opened on an empty engine. -/
def empty : Opened := ⟨⟨0, 0, 0, 0⟩, ∅⟩

/-- The program of a call, returning the log afterwards. -/
def program (log : Log) : Call → Session Log
  | .append term command => do return (← log.append term command).1
  | .commit index => do return (← log.commit index).1
  | .splice entries => do return (← log.splice entries).1
  | .setTerm term votedFor => do Log.setTerm term votedFor; return log
  | .reopen => Log.new

/-- Perform a call. A call that stops leaves the cached positions as they were. -/
def call (opened : Opened) (operation : Call) : Opened × Option Fault :=
  match ((program opened.log operation).run opened.engine).result with
  | .ok log => (⟨log, (program opened.log operation).after opened.engine⟩, none)
  | .error fault =>
    (⟨opened.log, (program opened.log operation).after opened.engine⟩, some fault)

/-- A step of a run. -/
def step (opened : Opened) (operation : Call) : Option Opened := some (opened.call operation).1

/-- The log store invariant: the stored entries are exactly the indexes up to the
last one, and the cached positions and terms are those of stored entries. -/
structure Valid (opened : Opened) : Prop where
  entries : ∀ index, (Store.get opened.engine (.entry index)).isSome ↔
    1 ≤ index ∧ index ≤ opened.log.lastIndex
  lastTerm : 1 ≤ opened.log.lastIndex → ∃ command,
    Store.get opened.engine (.entry opened.log.lastIndex) = some (opened.log.lastTerm, command)
  commitIndex_le : opened.log.commitIndex ≤ opened.log.lastIndex
  commitTerm : 1 ≤ opened.log.commitIndex → ∃ command,
    Store.get opened.engine (.entry opened.log.commitIndex) =
      some (opened.log.commitTerm, command)

/-- A call that splices entries the log already holds and ends below its commit
index. -/
def Regresses (opened : Opened) : Call → Prop
  | .splice entries => contiguous entries = true ∧
      (∀ entry ∈ entries, ∃ command,
        Store.get opened.engine (.entry entry.index) = some (entry.term, command)) ∧
      ∃ last ∈ entries.getLast?, last.index < opened.log.commitIndex
  | _ => False

/-- What a call may do: keep everything committed, change nothing if it fails, and
find the same log, term and vote when it reopens the engine. -/
structure Lawful (opened : Opened) (operation : Call) : Prop where
  committed : ∀ index ≤ opened.log.commitIndex,
    Store.get (opened.call operation).1.engine (.entry index) =
      Store.get opened.engine (.entry index)
  failed : ∀ fault, (opened.call operation).2 = some fault → (opened.call operation).1 = opened
  reopened : operation = .reopen → (opened.call operation).1.log = opened.log ∧
    (getTerm.run (opened.call operation).1.engine).result = (getTerm.run opened.engine).result

section Step

variable {opened : Opened} {operation : Call}

theorem call_of_run {journal : List Write} {log : Log}
    (ran : (program opened.log operation).run opened.engine = ⟨journal, .ok log⟩) :
    opened.call operation = (⟨log, replayAll Store.replay opened.engine journal⟩, none) := by
  simp only [call, after, ran]

theorem call_of_stop {fault : Fault}
    (ran : (program opened.log operation).run opened.engine = ⟨[], .error fault⟩) :
    opened.call operation = (opened, some fault) := by
  simp only [call, after, ran, replayAll_nil]

section

variable (represents : Represents opened.log opened.engine items)

include represents

/-- The splice of numbered items, as a call. -/
theorem program_splice_run {base : Nat} (within : base ≤ items.length) (some : new ≠ []) :
    (program opened.log (.splice (entriesFrom (base + 1) new))).run opened.engine =
      if matched (items.drop base) new < new.length ∧
          base + 1 + matched (items.drop base) new ≤ opened.log.commitIndex then
        ⟨[], .error (.error (.internal "Spliced entries must begin after commit index"))⟩
      else
        ⟨spliceWrites items base new, .ok { opened.log with
          lastIndex := base + new.length
          lastTerm := termAt new new.length }⟩ := by
  have ran := splice_run represents.stores represents.lastIndex within some
  simp only [program, bind_eq_andThen, pure_eq_ret]
  split
  · next committed =>
      rw [if_pos committed] at ran
      exact andThen_of_stop _ ran
  · next free =>
      rw [if_neg free] at ran
      exact andThen_ret_of_run _ ran

/-- If every new item is stored already, the splice's entries are all in the log. -/
theorem stored_of_matched {base : Nat} (all : matched (items.drop base) new = new.length)
    {entry : Entry} (member : entry ∈ entriesFrom (base + 1) new) :
    ∃ command, Store.get opened.engine (.entry entry.index) = some (entry.term, command) := by
  obtain ⟨above, found⟩ := (mem_entriesFrom _ _ _).mp member
  have below : entry.index - (base + 1) < new.length := (List.getElem?_eq_some_iff.mp found).1
  have terms := matched_terms (all.symm ▸ below)
  rw [found, List.getElem?_drop, show base + (entry.index - (base + 1)) = entry.index - 1 by omega]
    at terms
  obtain ⟨item, stored, same⟩ := Option.map_eq_some_iff.mp terms
  refine ⟨item.2, ?_⟩
  rw [represents.stores, itemAt_of_pos items (by omega), stored]
  exact congrArg (fun term => some (term, item.2)) same

/-- What splicing some entries does, unless it regresses. -/
theorem call_splice_cases {first : Entry} {rest : List Entry}
    (forward : ¬ opened.Regresses (.splice (first :: rest))) :
    (∃ fault, opened.call (.splice (first :: rest)) = (opened, some fault)) ∨
      ∃ next later, opened.call (.splice (first :: rest)) = (next, none) ∧
        Represents next.log next.engine later ∧
        (∀ index ≤ opened.log.commitIndex, itemAt later index = itemAt items index) ∧
        (Call.splice (first :: rest) = .reopen → next = opened) := by
  have shape : (first :: rest).getLast? ≠ none := by simp
  obtain ⟨last, final⟩ := Option.ne_none_iff_exists'.mp shape
  by_cases outside : first.index = 0 ∨ first.index > opened.log.lastIndex + 1
  · left
    refine ⟨.error (.internal "Spliced entries must begin before last index"), call_of_stop ?_⟩
    simp [program, splice, final, outside]
  by_cases consecutive : contiguous (first :: rest) = true
  · -- The entries are numbered items behind the first `base` stored ones.
    obtain ⟨base, new, some, numbered, within⟩ : ∃ base new, new ≠ [] ∧
        first :: rest = entriesFrom (base + 1) new ∧ base ≤ items.length := by
      refine ⟨first.index - 1, (first :: rest).map fun entry => (entry.term, entry.command),
        by simp, ?_, ?_⟩
      · rw [show first.index - 1 + 1 = first.index by omega]
        exact eq_entriesFrom_of_contiguous consecutive
      · have cached := represents.lastIndex
        omega
    have ran := program_splice_run represents within some
    rw [← numbered] at ran
    split at ran
    · exact .inl ⟨_, call_of_stop ran⟩
    · next free =>
        have ends : last.index = base + new.length := by
          obtain ⟨before, item, rfl⟩ := (List.eq_nil_or_concat' new).resolve_left some
          rw [numbered, getLast?_entriesFrom_concat, Option.some.injEq] at final
          rw [← final, List.length_append, List.length_singleton]
          exact Nat.add_right_comm base 1 before.length
        have covers : opened.log.commitIndex ≤ base + new.length := by
          by_contra below
          have all : matched (items.drop base) new = new.length := by
            have bound := matched_le_right (items.drop base) new
            omega
          refine forward ⟨consecutive, ?_, last, final, by omega⟩
          intro entry member
          rw [numbered] at member
          exact stored_of_matched represents all member
        refine .inr ⟨_, _, call_of_run ran, represents.splice within some free covers, ?_, by simp⟩
        intro index below
        refine itemAt_spliced within new ?_
        have bound := matched_le_right (items.drop base) new
        omega
  · left
    refine ⟨.error (.internal "Spliced entries must be contiguous"), call_of_stop ?_⟩
    simp [program, splice, final, outside, consecutive]

/-- What a call does to a well-formed log, unless it regresses: it stops and changes
nothing, or it leaves a well-formed log with the same committed items. -/
theorem call_cases (forward : ¬ opened.Regresses operation) :
    (∃ fault, opened.call operation = (opened, some fault)) ∨
      ∃ next later, opened.call operation = (next, none) ∧
        Represents next.log next.engine later ∧
        (∀ index ≤ opened.log.commitIndex, itemAt later index = itemAt items index) ∧
        (operation = .reopen → next = opened) := by
  cases operation with
  | append term command =>
    refine .inr ⟨_, _, call_of_run rfl, represents.append (term, command), ?_, by simp⟩
    intro index below
    exact itemAt_append_left _ (Nat.le_trans below represents.commitIndex_le)
  | setTerm term votedFor =>
    exact .inr ⟨_, _, call_of_run rfl, represents.setTerm term votedFor, fun _ _ => rfl, by simp⟩
  | reopen =>
    have ran : (program opened.log .reopen).run opened.engine = ⟨[], .ok opened.log⟩ :=
      represents.new_run
    exact .inr ⟨_, _, call_of_run ran, represents, fun _ _ => rfl, fun _ => rfl⟩
  | commit index =>
    have unfolded : program opened.log (.commit index) =
        andThen (opened.log.commit index) fun outcome => ret outcome.1 := rfl
    by_cases refused : index < opened.log.commitIndex ∨ itemAt items index = none
    · obtain ⟨fault, ran⟩ := commit_stop represents.stores refused
      exact .inl ⟨fault, call_of_stop (unfolded ▸ andThen_of_stop _ ran)⟩
    · rw [not_or, Nat.not_lt] at refused
      obtain ⟨item, found⟩ := Option.ne_none_iff_exists'.mp refused.2
      have ran := commit_run represents.stores refused.1 found
      exact .inr ⟨_, _, call_of_run (unfolded ▸ andThen_ret_of_run _ ran),
        represents.commit found, fun _ _ => rfl, by simp⟩
  | splice entries =>
    cases entries with
    | nil => exact .inr ⟨_, _, call_of_run rfl, represents, fun _ _ => rfl, by simp⟩
    | cons first rest =>
      exact call_splice_cases represents forward

/-- After every call that does not regress, the log is well formed again. -/
theorem represents_call (forward : ¬ opened.Regresses operation) :
    ∃ later, Represents (opened.call operation).1.log (opened.call operation).1.engine later := by
  rcases call_cases represents forward with ⟨fault, stopped⟩ | ⟨next, later, called, well, _⟩
  · rw [stopped]
    exact ⟨items, represents⟩
  · rw [called]
    exact ⟨later, well⟩

/-- A well-formed log satisfies the invariant. -/
theorem valid_of_represents :
    opened.Valid where
  entries index := by
    rw [represents.stores, represents.lastIndex]
    exact itemAt_isSome items index
  lastTerm positive := by
    rw [represents.lastIndex] at positive ⊢
    obtain ⟨item, found⟩ := Option.isSome_iff_exists.mp
      ((itemAt_isSome items items.length).mpr ⟨positive, Nat.le_refl _⟩)
    refine ⟨item.2, ?_⟩
    rw [represents.stores, found, represents.lastTerm, termAt, found]
    rfl
  commitIndex_le := represents.lastIndex ▸ represents.commitIndex_le
  commitTerm positive := by
    obtain ⟨item, found⟩ := Option.isSome_iff_exists.mp
      ((itemAt_isSome items _).mpr ⟨positive, represents.commitIndex_le⟩)
    refine ⟨item.2, ?_⟩
    rw [represents.stores, found, represents.commitTerm, termAt, found]
    rfl

theorem lawful_of_represents (forward : ¬ opened.Regresses operation) :
    opened.Lawful operation := by
  rcases call_cases represents forward with ⟨fault, stopped⟩ | ⟨next, later, called, well, kept, same⟩
  · constructor
    · simp [stopped]
    · simp [stopped]
    · simp [stopped]
  · constructor
    · intro index below
      rw [called, well.stores, represents.stores, kept index below]
    · simp [called]
    · intro reopened
      rw [called, same reopened]
      exact ⟨rfl, rfl⟩

end

end Step

/-- In every run of log operations none of which splices entries the log already
holds and that end below its commit index, the log store invariant holds in every
state reached, no call removes or changes a committed entry, a call that fails
changes nothing, and reopening finds the same log. -/
theorem run_valid {last : Opened}
    (reached : Reaches step (fun opened operation => ¬ opened.Regresses operation) empty last) :
    last.Valid ∧ ∀ operation, ¬ last.Regresses operation → last.Lawful operation := by
  obtain ⟨items, represents⟩ : ∃ items, Represents last.log last.engine items := by
    refine Reaches.invariant (fun opened => ∃ items, Represents opened.log opened.engine items)
      ⟨[], Represents.empty⟩ ?_ reached
    rintro mid next operation _ ⟨items, represents⟩ forward taken
    obtain rfl := Option.some.inj taken
    exact represents_call represents forward
  exact ⟨valid_of_represents represents, fun operation forward =>
    lawful_of_represents represents forward⟩

/-- The log after appending two entries and committing the first. -/
def appended : Opened :=
  (((empty.call (.append 1 none)).1.call (.append 1 none)).1.call (.commit 1)).1

theorem run_valid_appended :
    Reaches step (fun opened operation => ¬ opened.Regresses operation) empty
        (appended.call (.splice [⟨1, 1, none⟩])).1 ∧
      (appended.call (.splice [⟨1, 1, none⟩])).1.Valid := by
  have reached : Reaches step (fun opened operation => ¬ opened.Regresses operation) empty
      (appended.call (.splice [⟨1, 1, none⟩])).1 := by
    refine .step (.splice [⟨1, 1, none⟩]) (.step (.commit 1) (.step (.append 1 none)
      (.step (.append 1 none) .refl id rfl) id rfl) id rfl) ?_ rfl
    rintro ⟨_, _, last, final, below⟩
    obtain rfl : ⟨1, 1, none⟩ = last := Option.some.inj final
    exact absurd below (by decide +kernel)
  exact ⟨reached, (run_valid reached).1⟩

/-- Appending two entries, committing both and splicing the first one again. -/
def truncation : List Call :=
  [.append 1 none, .append 1 none, .commit 2, .splice [⟨1, 1, none⟩]]

/-- The splice removes the committed second entry. -/
theorem splice_truncates_committed :
    ∃ last, Reaches step (fun _ _ => True) empty last ∧ ¬ last.Valid ∧
      last.log.commitIndex = 2 ∧ Store.get last.engine (.entry 2) = none := by
  obtain ⟨last, ran⟩ : ∃ last, execute step (fun _ _ => true) empty truncation = some last :=
    ⟨_, rfl⟩
  have observed : (execute step (fun _ _ => true) empty truncation).map
      (fun last => (last.log, Store.get last.engine (.entry 2))) = some (⟨1, 1, 2, 1⟩, none) := by
    decide +kernel
  rw [ran] at observed
  simp only [Option.map_some, Option.some.injEq, Prod.mk.injEq] at observed
  obtain ⟨positions, removed⟩ := observed
  refine ⟨last, (reaches_of_execute ran).mono fun _ _ _ => trivial, ?_, ?_, removed⟩
  · intro valid
    have bound := valid.commitIndex_le
    rw [positions] at bound
    exact absurd bound (by decide)
  · rw [positions]

end Opened

end Radb.Raft.Log
