import Radb.Foundation.Disk
import Radb.Storage.Bitcask.Refinement

/-! # Durability of compaction

A compaction writes a new file and renames it to the path of the log file. The new file is
not synced before it is renamed, so a crash may keep the renaming and lose the bytes.
-/

namespace Radb.Storage.Bitcask

open Foundation

/-- The changes of the new file: it is truncated, and the live entries are appended. -/
def compactChanges (s : Bitcask) : List Change := .resize 0 :: puts 0 s.compact.2.log

/-- What a compaction does to the files. -/
def compactSteps (s : Bitcask) : List Replacement.Step :=
  s.compactChanges.map .change ++ [.rename]

/-- All pairs of a database are found when a file is opened. -/
def Keeps (s : Bitcask) (file : Bytes) : Prop :=
  ∀ key value, s.get key = .ok (some value) → (new file).get key = .ok (some value)

theorem Represents.keeps {s : Bitcask} {data : Memory} (represents : s.Represents data) :
    s.Keeps s.log := by
  intro key value stored
  rw [represents.reopen, stored]

theorem Represents.keeps_compact {s : Bitcask} {data : Memory} (represents : s.Represents data) :
    s.Keeps s.compact.2.log := by
  obtain ⟨-, compacted, -⟩ := represents.compact
  intro key value stored
  rw [represents.get] at stored
  rw [compacted.reopen, compacted.get, stored]

/-- The new file holds what a compaction leaves. -/
theorem foldl_compactChanges (s : Bitcask) (before : Bytes) :
    s.compactChanges.foldl Change.apply before = s.compact.2.log := by
  have written := foldl_puts [] s.compact.2.log
  rw [List.length_nil, List.nil_append] at written
  rw [compactChanges, List.foldl_cons]
  simpa [Change.apply] using written

/-- The files after a compaction. -/
theorem run_compactSteps (s : Bitcask) (current temporary : File) :
    Replacement.run ⟨current, temporary, false⟩ s.compactSteps =
      ⟨current, ⟨temporary.synced, temporary.pending ++ s.compactChanges⟩, true⟩ := by
  have changed := Replacement.run_changes ⟨current, temporary, false⟩ s.compactChanges
  rw [compactSteps, Replacement.run_append, changed]
  rfl

/-- A crash during or after a compaction keeps all flushed pairs exactly if it does not come
between the renaming of the new file and a sync of it, or nothing is stored. -/
theorem compaction_durable_iff {operations : List Operation}
    (fits : ∀ operation ∈ operations, Fitting operation) {file temporary : File}
    (flushed : file.content = (serve respond (new []) operations).2.log)
    {steps : List Replacement.Step}
    (reached : steps <+: (serve respond (new []) operations).2.compactSteps ++ [.sync]) :
    (∀ image, (Replacement.run ⟨file.sync, temporary, false⟩ steps).Survives image →
      (serve respond (new []) operations).2.Keeps image) ↔
      steps ≠ (serve respond (new []) operations).2.compactSteps ∨
        ∀ key, (serve respond (new []) operations).2.get key = .ok none := by
  obtain ⟨-, represents⟩ := represents_empty.serve fits
  generalize (serve respond (new []) operations).2 = s at *
  generalize (serve Memory.respond ∅ operations).2 = data at *
  constructor
  · intro kept
    by_contra neither
    rw [not_or, not_not] at neither
    obtain ⟨renamed, stored⟩ := neither
    -- The renaming and the truncation are kept, and all bytes are lost.
    have lost := kept [] (by
      rw [renamed, run_compactSteps]
      refine .inr ⟨rfl, [.resize 0], ?_, by simp [Change.apply]⟩
      exact (List.singleton_sublist.mpr List.mem_cons_self).trans (List.sublist_append_right _ _))
    apply stored
    intro key
    rw [represents.get]
    cases found : Store.get data key with
    | none => rfl
    | some value =>
      have opened := lost key value (by rw [represents.get, found])
      rw [represents_empty.get, Store.get_empty] at opened
      cases opened
  · intro condition image survives
    rcases List.prefix_concat_iff.mp reached with synced | reached
    · -- The new file is synced: either file holds all pairs.
      subst synced
      rw [Replacement.run_append, run_compactSteps] at survives
      rcases survives with old | ⟨-, new⟩
      · rw [(File.survives_sync file image).mp old, flushed]
        exact represents.keeps
      · have content := (File.survives_sync _ image).mp new
        rw [File.content, List.foldl_append, foldl_compactChanges] at content
        rw [content]
        exact represents.keeps_compact
    · rcases List.prefix_concat_iff.mp reached with renamed | ⟨rest, before⟩
      · rcases condition with other | nothing
        · exact absurd renamed other
        · intro key value stored
          rw [nothing key] at stored
          cases stored
      · -- The new file is not renamed yet.
        obtain ⟨done, missing, -, rfl, -⟩ := List.map_eq_append_iff.mp before.symm
        rw [Replacement.run_changes] at survives
        rcases survives with old | ⟨renamed, -⟩
        · rw [(File.survives_sync file image).mp old, flushed]
          exact represents.keeps
        · cases renamed

/-- One key is written and flushed. -/
def single : List Operation := [.write (.set [1] [10]), .flush]

theorem compaction_durable_before_rename :
    (Replacement.run ⟨File.sync ⟨[], puts 0 [0, 0, 0, 1, 0, 0, 0, 1, 1, 10]⟩, ⟨[], []⟩, false⟩
        [.change (.resize 0), .change (.put 0 0)]).Survives [0, 0, 0, 1, 0, 0, 0, 1, 1, 10] ∧
      (serve respond (new []) single).2.Keeps [0, 0, 0, 1, 0, 0, 0, 1, 1, 10] := by
  have survives : (Replacement.run ⟨File.sync ⟨[], puts 0 [0, 0, 0, 1, 0, 0, 0, 1, 1, 10]⟩,
      ⟨[], []⟩, false⟩ [.change (.resize 0), .change (.put 0 0)]).Survives
        [0, 0, 0, 1, 0, 0, 0, 1, 1, 10] :=
    .inl ((File.survives_sync _ _).mpr (by decide +kernel))
  exact ⟨survives, (compaction_durable_iff (by decide) (by decide +kernel)
    (by decide +kernel)).mpr (.inl (by decide +kernel)) _ survives⟩

/-- A crash after the renaming may leave an empty file, which lacks the flushed pair. -/
theorem compaction_loses_flushed :
    ∃ image, (Replacement.run ⟨File.sync ⟨(serve respond (new []) single).2.log, []⟩, ⟨[], []⟩,
        false⟩ (serve respond (new []) single).2.compactSteps).Survives image ∧
      (serve respond (new []) single).2.get [1] = .ok (some [10]) ∧
      (new image).get [1] = .ok none := by
  refine ⟨[], ?_, by decide +kernel, by decide +kernel⟩
  rw [run_compactSteps]
  exact .inr ⟨rfl, [], List.nil_sublist _, rfl⟩

end Radb.Storage.Bitcask
