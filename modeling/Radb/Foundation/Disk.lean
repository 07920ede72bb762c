import Mathlib

/-! # Files across crashes

A file consists of the bytes its last sync made durable and of the changes made since
then. A crash may lose any of these changes. A file can be put in the place of another one
by renaming it, which a crash may undo as well, whatever it leaves of the changes.
-/

namespace Foundation

/-- A change of a file: set its length, or write a byte at a position. -/
inductive Change where
  | resize (length : Nat)
  | put (position : Nat) (byte : UInt8)
  deriving DecidableEq

/-- Perform a change. What is skipped is filled with zeros. -/
def Change.apply (bytes : List UInt8) : Change → List UInt8
  | .resize length => bytes.take length ++ List.replicate (length - bytes.length) 0
  | .put position byte =>
    (bytes ++ List.replicate (position + 1 - bytes.length) 0).set position byte

/-- The changes that write bytes from a position on. -/
def puts : Nat → List UInt8 → List Change
  | _, [] => []
  | position, byte :: bytes => .put position byte :: puts (position + 1) bytes

theorem foldl_puts (before bytes : List UInt8) :
    (puts before.length bytes).foldl Change.apply before = before ++ bytes := by
  induction bytes generalizing before with
  | nil => simp [puts]
  | cons byte bytes ih =>
    have next : Change.apply before (.put before.length byte) = before ++ [byte] := by
      simp [Change.apply]
    have later := ih (before ++ [byte])
    rw [List.length_append, List.length_singleton, List.append_assoc] at later
    rw [puts, List.foldl_cons, next, later]
    rfl

/-- A file: its durable bytes, and the changes since the last sync. -/
structure File where
  synced : List UInt8
  pending : List Change

namespace File

/-- The bytes that are read. -/
def content (file : File) : List UInt8 := file.pending.foldl Change.apply file.synced

/-- Make all changes durable. -/
def sync (file : File) : File := ⟨file.content, []⟩

/-- The bytes a crash may leave. -/
def Survives (file : File) (image : List UInt8) : Prop :=
  ∃ kept : List Change, kept.Sublist file.pending ∧ image = kept.foldl Change.apply file.synced

/-- A crash loses nothing that is synced. -/
@[simp] theorem survives_sync (file : File) (image : List UInt8) :
    file.sync.Survives image ↔ image = file.content := by
  constructor
  · rintro ⟨kept, nothing, rfl⟩
    rw [List.sublist_nil.mp nothing]
    rfl
  · rintro rfl
    exact ⟨[], List.Sublist.refl [], rfl⟩

end File

/-- A file at a path, and a temporary one that may have been renamed to the path. -/
structure Replacement where
  current : File
  temporary : File
  renamed : Bool

namespace Replacement

/-- A step of replacing a file: a change of the temporary file, its renaming, or the sync
of the file that the path now refers to. -/
inductive Step where
  | change (change : Change)
  | rename
  | sync
  deriving DecidableEq

def step (disk : Replacement) : Step → Replacement
  | .change change =>
    { disk with temporary := { disk.temporary with
        pending := disk.temporary.pending ++ [change] } }
  | .rename => { disk with renamed := true }
  | .sync =>
    if disk.renamed then { disk with temporary := disk.temporary.sync }
    else { disk with current := disk.current.sync }

/-- Take steps one after the other. -/
def run (disk : Replacement) (steps : List Step) : Replacement := steps.foldl step disk

theorem run_append (disk : Replacement) (first second : List Step) :
    disk.run (first ++ second) = (disk.run first).run second :=
  List.foldl_append

/-- The bytes a crash may leave at the path. A renaming may be lost or not. -/
def Survives (disk : Replacement) (image : List UInt8) : Prop :=
  disk.current.Survives image ∨ disk.renamed = true ∧ disk.temporary.Survives image

theorem run_changes (disk : Replacement) (changes : List Change) :
    disk.run (changes.map .change) = { disk with temporary := { disk.temporary with
      pending := disk.temporary.pending ++ changes } } := by
  induction changes generalizing disk with
  | nil => simp [run]
  | cons change changes ih =>
    change (disk.step (.change change)).run (changes.map .change) = _
    rw [ih]
    simp [step]

end Replacement

end Foundation
