import Radb.Raft.LogContents
import Radb.Raft.Node.Move

/-! # What all roles share, move by move

Log operations on an arbitrary engine, sending, and the application of entries.
-/

namespace Radb.Raft

open Foundation Foundation.Program

variable {σ : Type} [State σ] {Result : Type}

/-- A program of a node performs moves, and stops only if an assertion contradicts the
state it is in. -/
abbrev Moves (input : Input) (node : Node) (disk : Disk σ) (program : Action σ Result)
    (post : Result → Node → Disk σ → Prop) : Prop :=
  Tracks (fun node disk effects next => ∃ act, Move input node disk act effects next)
    (fun node disk => ¬ Sane input node disk) node disk program post

/-- The program neither moves nor writes. -/
abbrev Passes (input : Input) (node : Node) (disk : Disk σ) (program : Action σ Result) : Prop :=
  Moves input node disk program fun _ reached left => reached = node ∧ left = disk

theorem getTerm_run (disk : Disk σ) :
    (onLog Log.getTerm : Action σ _).run disk = ⟨[], .ok disk.termVote⟩ := rfl

theorem setTerm_run (disk : Disk σ) (term : Nat) (vote : Option NodeID) :
    (onLog (Log.setTerm term vote) : Action σ _).run disk =
      ⟨[.write (.set .termVote (term, vote))], .ok ()⟩ := rfl

theorem get_run (disk : Disk σ) (index : Nat) :
    (onLog (Log.get index) : Action σ _).run disk =
      ⟨[], .ok ((disk.entryAt index).map fun value => ⟨index, value.1, value.2⟩)⟩ := rfl

theorem append_run (disk : Disk σ) (log : Log) (term : Nat) (command : Option Bytes) :
    (onLog (log.append term command) : Action σ _).run disk =
      ⟨[.write (.set (.entry (log.lastIndex + 1)) (term, command))],
        .ok ({ log with lastIndex := log.lastIndex + 1, lastTerm := term }, log.lastIndex + 1)⟩ :=
  rfl

namespace Log

theorem has_spec (disk : Disk σ) (index term : Nat) :
    ∃ found, (onLog (has index term) : Action σ Bool).run disk = ⟨[], .ok found⟩ ∧
      (found = true ↔ disk.Has index term) := by
  have unfolded : (onLog (has index term) : Action σ Bool).run disk =
      ⟨[], .ok (match disk.entryAt index with
        | some value => value.1 == term
        | none => index == 0 && term == 0)⟩ := by
    simp only [onLog, Program.lift, has, get, bind_eq_andThen, Program.andThen_assoc,
      view_andThen_run, ret_andThen, Disk.entryAt]
    cases Store.get disk.engine (Key.entry index) <;> rfl
  refine ⟨_, unfolded, ?_⟩
  rw [Disk.Has]
  rcases disk.entryAt index with _ | ⟨stored, command⟩ <;> simp

/-- A scan of any engine returns what it stores in the range, in index order. -/
theorem scan_spec (engine : Engine) (range : Nat → Bool) :
    ∃ entries, (scan range).run engine = ⟨[], .ok entries⟩ ∧
      (∀ entry : Entry, entry ∈ entries ↔ range entry.index = true ∧
        Store.get engine (.entry entry.index) = some (entry.term, entry.command)) ∧
      entries.Pairwise fun before after => before.index < after.index := by
  obtain ⟨entries, ran, members, ordered⟩ := decodeEntries_run engine
    (Store.scanGroup engine (Key.inRange range)) (by
      rintro ⟨key, item⟩ member
      have covered := ((Store.mem_scanGroup engine _ key item).mp member).1
      cases key with
      | entry index => exact ⟨index, item, rfl⟩
      | _ => simp [Key.inRange] at covered)
  refine ⟨entries, ?_, ?_, ordered (Store.sorted_scanGroup engine _)⟩
  · simpa only [scan, bind_eq_andThen, view_andThen_run] using ran
  · intro entry
    rw [members, Store.mem_scanGroup]
    rfl

/-- Every engine can be opened. -/
theorem new_spec (engine : Engine) : ∃ log, new.run engine = ⟨[], .ok log⟩ := by
  obtain ⟨entries, scanned, _, _⟩ := scan_spec engine fun _ => true
  simp only [new, bind_eq_andThen, view_andThen_run]
  rw [andThen_of_run _ scanned]
  exact ⟨_, rfl⟩

theorem commit_spec (disk : Disk σ) (log : Log) {index : Nat} {value : Nat × Option Bytes}
    (forward : log.commitIndex ≤ index) (stored : disk.entryAt index = some value) :
    (onLog (log.commit index) : Action σ (Log × Nat)).run disk =
      ⟨[.write (.set .commitIndex (index, value.1))],
        .ok ({ log with commitIndex := index, commitTerm := value.1 }, index)⟩ := by
  rw [Disk.entryAt] at stored
  simp only [onLog, Program.lift, commit, Nat.not_lt.mpr forward, ↓reduceIte, get,
    bind_eq_andThen, Program.andThen_assoc, view_andThen_run, ret_andThen, stored]
  rfl

/-- Skipping only reads. -/
theorem skip_journal (engine : Engine) (stored entries : List Entry) :
    ((skip stored entries).run engine).journal = [] := by
  induction stored generalizing entries with
  | nil => rfl
  | cons first scan ih =>
    cases entries with
    | nil => rfl
    | cons next rest =>
      rw [skip]
      split
      · rfl
      · exact ih rest

/-- A splice writes entries only, and nothing if it fails. The log then ends with the last
entry. -/
theorem splice_spec (engine : Engine) (log : Log) (entries : List Entry) :
    (∃ fault, (splice log entries).run engine = ⟨[], .error fault⟩) ∨
      ∃ writes result, (splice log entries).run engine = ⟨writes, .ok result⟩ ∧
        (∀ write ∈ writes, ∃ index, write.key = .entry index) ∧
        ∀ last, entries.getLast? = some last → result.1.lastIndex = last.index := by
  unfold splice
  split
  case h_2 unfilled =>
    refine .inr ⟨[], _, rfl, by simp, ?_⟩
    intro last ends
    obtain ⟨before, split⟩ := List.getLast?_eq_some_iff.mp ends
    cases before with
    | nil => exact (unfilled last [] last split ends).elim
    | cons first rest => exact (unfilled first (rest ++ [last]) last split ends).elim
  case h_1 first rest last ends =>
    split
    case isTrue => exact .inl ⟨_, rfl⟩
    case isFalse =>
      split
      case isTrue => exact .inl ⟨_, rfl⟩
      case isFalse =>
        obtain ⟨stored, scanned, _, _⟩ := scan_spec engine fun index =>
          decide (first.index ≤ index ∧ index ≤ last.index)
        simp only [bind_eq_andThen]
        rw [andThen_of_run _ scanned]
        have silent := skip_journal engine stored (first :: rest)
        rcases skipped : (skip stored (first :: rest)).run engine with ⟨journal, fault | left⟩
        · rw [skipped] at silent
          dsimp only at silent
          subst silent
          simp only [replayAll_nil]
          rw [andThen_of_stop _ skipped]
          exact .inl ⟨fault, rfl⟩
        · rw [skipped] at silent
          dsimp only at silent
          subst silent
          simp only [replayAll_nil]
          rw [andThen_of_run _ skipped]
          simp only [replayAll_nil, List.nil_append]
          split
          · exact .inl ⟨_, rfl⟩
          · rw [andThen_of_run _ (each_perform_run _ _ _), andThen_of_run _ (each_perform_run _ _ _)]
            refine .inr ⟨_, _, rfl, ?_, ?_⟩
            · intro write member
              simp only [ret_run, List.append_nil, List.mem_append, List.mem_map] at member
              rcases member with ⟨entry, _, rfl⟩ | ⟨index, _, rfl⟩
              · exact ⟨_, rfl⟩
              · exact ⟨_, rfl⟩
            · intro other endsOther
              rw [← Option.some.inj (ends.symm.trans endsOther)]

end Log

variable {input : Input} {disk : Disk σ}

/-- A loop of sends that are all moves without a change of the node. -/
theorem moves_each_send {Item : Type} {node : Node} {envelope : Item → Envelope}
    {items : List Item}
    (moves : ∀ item ∈ items, Move input node disk .stay [.send (envelope item)] node) :
    Passes input node disk (each (fun item => perform (.send (envelope item))) items) := by
  refine Tracks.each ⟨rfl, rfl⟩ ?_
  intro item member memory store same
  obtain ⟨rfl, rfl⟩ := same
  exact .of_move rfl ⟨_, moves item member⟩ ⟨rfl, rfl⟩

/-- A loop of sends, each of which takes its item off the node. -/
theorem moves_drain {Item : Type} (memory : List Item → Node) {envelope : Item → Envelope}
    (moves : ∀ item rest, Move input (memory (item :: rest)) disk .stay
      [.send (envelope item)] (memory rest)) (items : List Item) :
    Moves input (memory items) disk (each (fun item => perform (.send (envelope item))) items)
      fun _ reached left => reached = memory [] ∧ left = disk := by
  induction items with
  | nil => exact Tracks.ret ⟨rfl, rfl⟩
  | cons item rest ih => exact Tracks.act (perform_run _ _) ⟨_, moves item rest⟩ ih

namespace RawNode

variable {R : Type}

theorem assertNode_passes {node : RawNode R} {memory : Node} (same : memory.term = node.term) :
    Passes input memory disk node.assertNode := by
  simp only [assertNode, bind_eq_andThen]
  refine Tracks.read (getTerm_run disk) ?_
  refine Tracks.check ?_ ⟨rfl, rfl⟩
  intro differs sane
  exact differs (same ▸ sane.term)

theorem assertStep_passes {node : RawNode R} {memory : Node} {msg : Envelope}
    (acting : input = .step msg) (id : memory.id = node.id) (peers : memory.peers = node.peers) :
    Passes input memory disk (node.assertStep msg) := by
  simp only [assertStep, bind_eq_andThen]
  refine Tracks.require ?_ fun _ => ?_
  · intro differs sane
    exact differs (id ▸ (sane.addressed msg acting).1)
  · refine Tracks.check ?_ ⟨rfl, rfl⟩
    intro unknown sane
    exact unknown (id ▸ peers ▸ (sane.addressed msg acting).2)

end RawNode

namespace Disk

/-- The entries left to apply, in index order. -/
def Queued (disk : Disk σ) (commitIndex : Nat) (entries : List Entry) : Prop :=
  (entries.Pairwise fun before after => before.index < after.index) ∧
    ∀ entry : Entry, entry ∈ entries ↔
      (disk.appliedIndex < entry.index ∧ entry.index ≤ commitIndex) ∧
        disk.entryAt entry.index = some (entry.term, entry.command)

namespace Queued

variable {commitIndex : Nat} {entry : Entry} {rest : List Entry}

theorem pending (queued : disk.Queued commitIndex (entry :: rest)) :
    disk.Pending commitIndex entry := by
  obtain ⟨sorted, members⟩ := queued
  obtain ⟨⟨above, committed⟩, stored⟩ := (members entry).mp List.mem_cons_self
  refine ⟨above, committed, stored, ?_⟩
  intro index aboveIndex below
  by_contra found
  obtain ⟨value, foundValue⟩ := Option.ne_none_iff_exists'.mp found
  have member := (members ⟨index, value.1, value.2⟩).mpr
    ⟨⟨aboveIndex, Nat.le_trans (Nat.le_of_lt below) committed⟩, foundValue⟩
  rcases List.mem_cons.mp member with same | later
  · rw [← same] at below
    exact Nat.lt_irrefl _ below
  · exact Nat.lt_asymm below (List.rel_of_pairwise_cons sorted later)

theorem tail (queued : disk.Queued commitIndex (entry :: rest)) {next : Disk σ}
    (engine : next.engine = disk.engine) (applied : next.appliedIndex = entry.index) :
    next.Queued commitIndex rest := by
  obtain ⟨sorted, members⟩ := queued
  refine ⟨(List.pairwise_cons.mp sorted).2, ?_⟩
  intro other
  rw [applied, entryAt, engine]
  refine ⟨?_, ?_⟩
  · intro member
    obtain ⟨⟨_, committed⟩, stored⟩ := (members other).mp (List.mem_cons_of_mem _ member)
    exact ⟨⟨List.rel_of_pairwise_cons sorted member, committed⟩, stored⟩
  · intro found
    obtain ⟨⟨above, committed⟩, stored⟩ := found
    have first := ((members entry).mp List.mem_cons_self).1.1
    rcases List.mem_cons.mp ((members other).mpr ⟨⟨by omega, committed⟩, stored⟩) with same | later
    · rw [same] at above
      exact absurd above (Nat.lt_irrefl _)
    · exact later

theorem caughtUp (queued : disk.Queued commitIndex []) : disk.CaughtUp commitIndex := by
  intro index above committed
  by_contra found
  obtain ⟨value, foundValue⟩ := Option.ne_none_iff_exists'.mp found
  exact List.not_mem_nil ((queued.2 ⟨index, value.1, value.2⟩).mpr
    ⟨⟨above, committed⟩, foundValue⟩)

end Queued

end Disk

namespace RawNode

section Apply

variable {Carried : Type} {onApply : Carried → Nat → Except Error Bytes → Action σ Carried}
  (memory : Carried → Node) {commitIndex : Nat}
  (committed : ∀ carried, (memory carried).log.commitIndex = commitIndex)
  (callback : ∀ carried (entry : Entry) (disk : Disk σ),
    disk.Pending (memory carried).log.commitIndex entry →
    (∀ message, (State.apply disk.state entry).2 ≠ .error (.internal message)) →
    Moves input (memory carried) disk
      (Program.andThen (perform (.apply entry (State.apply disk.state entry).2)) fun _ =>
        onApply carried entry.index (State.apply disk.state entry).2)
      fun next reached left => reached = memory next ∧
        left = disk.replay (.apply entry (State.apply disk.state entry).2))
include committed callback

theorem applyEntries_moves {entries : List Entry} {carried : Carried}
    (queued : disk.Queued commitIndex entries) :
    Moves input (memory carried) disk (applyEntries onApply carried entries)
      fun next reached left => reached = memory next ∧ left.CaughtUp commitIndex := by
  induction entries generalizing carried disk with
  | nil => exact Tracks.ret ⟨rfl, queued.caughtUp⟩
  | cons entry rest ih =>
    have pending : disk.Pending (memory carried).log.commitIndex entry := by
      rw [committed]
      exact queued.pending
    have regular (other : ∀ message, (State.apply disk.state entry).2 ≠
        .error (.internal message)) : Moves input (memory carried) disk
          (Program.andThen (perform (.apply entry (State.apply disk.state entry).2)) fun _ =>
            Program.andThen (onApply carried entry.index (State.apply disk.state entry).2)
              fun carried => applyEntries onApply carried rest)
          fun next reached left => reached = memory next ∧ left.CaughtUp commitIndex := by
      rw [← Program.andThen_assoc]
      refine (callback _ _ _ pending other).andThen ?_
      intro next reached left ends
      obtain ⟨rfl, rfl⟩ := ends
      exact ih (queued.tail rfl (State.getAppliedIndex_apply _ _ other))
    simp only [applyEntries, bind_eq_andThen]
    refine Tracks.view ?_
    rcases result : (State.apply disk.state entry).2 with error | value
    · cases error with
      | internal message =>
        have move : Move input (memory carried) disk .stay
            [.apply entry (State.apply disk.state entry).2] (memory carried) := .apply pending
        rw [result] at move
        refine Tracks.act (perform_run _ _) ⟨_, move⟩ ?_
        exact Tracks.fail fun sane => sane.reliable _ _ message result
      | _ =>
        rw [result] at regular
        exact regular (by simp)
    · rw [result] at regular
      exact regular (by simp)

theorem maybeApplyWith_moves {log : Log} {carried : Carried} (same : log.commitIndex = commitIndex) :
    Moves input (memory carried) disk (maybeApplyWith log carried onApply)
      fun next reached left => reached = memory next ∧ left.CaughtUp commitIndex := by
  simp only [maybeApplyWith, bind_eq_andThen]
  refine Tracks.view (Tracks.require ?_ ?_)
  · intro below sane
    rw [same, ← committed carried] at below
    exact below sane.applied
  · intro _
    split
    · next done =>
        refine Tracks.ret ⟨rfl, ?_⟩
        intro index above below
        have applied : log.commitIndex ≤ disk.appliedIndex := done
        omega
    · obtain ⟨entries, scanned, members, sorted⟩ := Log.scan_spec disk.engine fun index =>
        decide (State.getAppliedIndex disk.state + 1 ≤ index ∧ index ≤ log.commitIndex)
      refine Tracks.read (lift_run scanned) (applyEntries_moves memory committed callback ?_)
      refine ⟨sorted, ?_⟩
      intro entry
      rw [members, decide_eq_true_eq, same]
      exact Iff.rfl

end Apply

theorem maybeApply_moves {R : Type} {node : RawNode R} {memory : Node}
    (log : memory.log = node.log) :
    Moves input memory disk node.maybeApply fun _ reached left =>
      reached = memory ∧ left.CaughtUp memory.log.commitIndex := by
  refine maybeApplyWith_moves (fun _ => memory) (fun _ => rfl) ?_ ?_
  · intro _ entry disk pending _
    exact Tracks.act (perform_run _ _) ⟨_, .apply pending⟩ (Tracks.ret ⟨rfl, rfl⟩)
  · rw [log]

end RawNode

end Radb.Raft
