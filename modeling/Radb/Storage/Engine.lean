import Mathlib
import Radb.Error
import Radb.Foundation.Binary64
import Radb.Foundation.Store

/-! # Storage engines

What the engines have in common: their operations and results, the ranges of keys that
are scanned, and the range of the keys that begin with given bytes. The engines keep their
keys in an ordered map, which panics when it is asked for a range whose start lies behind
its end.
-/

namespace Radb.Storage

open Foundation

variable {Key : Type} [LinearOrder Key]

/-- How a call stops without returning: an error result, or a panic. -/
inductive Halt where
  | error (error : Error)
  | panic (message : String)
  deriving DecidableEq

/-- An end of a range. -/
inductive Bound (Key : Type) where
  | included (key : Key)
  | excluded (key : Key)
  | unbounded
  deriving DecidableEq

namespace Bound

/-- Whether a key is not before a start. -/
def starts : Bound Key → Key → Bool
  | included start, key => start ≤ key
  | excluded start, key => start < key
  | unbounded, _ => true

/-- Whether a key is not behind an end. -/
def stops : Bound Key → Key → Bool
  | included stop, key => key ≤ stop
  | excluded stop, key => key < stop
  | unbounded, _ => true

/-- Whether a range has its start behind its end, or excludes the one key it is at. -/
def inverted : Bound Key → Bound Key → Bool
  | excluded start, excluded stop => stop ≤ start
  | included start, included stop => stop < start
  | included start, excluded stop => stop < start
  | excluded start, included stop => stop < start
  | _, _ => false

/-- What an ordered map panics with when it is asked for an inverted range. -/
def panic (start stop : Bound Key) : Halt :=
  if start = stop then .panic "range start and end are equal and excluded in BTreeMap"
  else .panic "range start is greater than range end in BTreeMap"

theorem exists_panic (start stop : Bound Key) : ∃ message, panic start stop = .panic message := by
  unfold panic
  split
  · exact ⟨_, rfl⟩
  · exact ⟨_, rfl⟩

end Bound

/-- The pairs of a range of an ordered map, in key order. -/
def rangeOf {Value : Key → Type} (store : Store Value) (range : Bound Key × Bound Key) :
    Except Halt (List (Sigma Value)) :=
  if Bound.inverted range.1 range.2 then .error (Bound.panic range.1 range.2)
  else .ok (store.scanGroup fun key => range.1.starts key && range.2.stops key)

/-- The first byte string behind all those that begin with given ones: the last byte
that can be incremented is, and what follows it is dropped. -/
def prefixStop (lead : Bytes) : Option Bytes :=
  match lead.reverse.dropWhile (· = 0xff) with
  | [] => none
  | byte :: before => some (before.reverse ++ [byte + 1])

/-- The range of the byte strings that begin with given ones. -/
def prefixRange (lead : Bytes) : Bound Bytes × Bound Bytes :=
  (.included lead, match prefixStop lead with
    | some stop => .excluded stop
    | none => .unbounded)

/-- Iterates over all key/value pairs starting with given bytes. -/
def scanPrefix {Items : Type} (scan : Bound Bytes × Bound Bytes → Items) (lead : Bytes) : Items :=
  scan (prefixRange lead)

theorem prefixStop_cons (byte : UInt8) (lead : Bytes) :
    prefixStop (byte :: lead) =
      match prefixStop lead with
      | some stop => some (byte :: stop)
      | none => if byte = 0xff then none else some [byte + 1] := by
  unfold prefixStop
  rw [List.reverse_cons, List.dropWhile_append]
  cases trimmed : lead.reverse.dropWhile (· = 0xff) with
  | nil =>
    by_cases last : byte = 0xff
    · simp [last]
    · simp [last]
  | cons found before => simp

theorem lt_add_one_iff {byte : UInt8} (below : byte ≠ 0xff) (first : UInt8) :
    first < byte + 1 ↔ first ≤ byte := by
  have bound : byte.toNat ≠ 255 := fun same => below (UInt8.toNat_inj.mp same)
  have small := byte.toNat_lt
  rw [UInt8.lt_iff_toNat_lt, UInt8.le_iff_toNat_le, UInt8.toNat_add]
  have one : (1 : UInt8).toNat = 1 := rfl
  omega

/-- A byte string is before the stop and not before the given bytes exactly if it begins
with them. -/
theorem isPrefix_iff_of_prefixStop (lead key : Bytes) :
    lead <+: key ↔ ¬ key < lead ∧ ∀ stop ∈ prefixStop lead, key < stop := by
  induction lead generalizing key with
  | nil => simp [prefixStop]
  | cons byte lead ih =>
    cases key with
    | nil => simp
    | cons first rest =>
      rw [List.cons_prefix_cons, ih rest, prefixStop_cons, List.cons_lt_cons_iff, not_or,
        not_and]
      -- The first byte of a key in the range is neither below nor above the given one.
      cases stops : prefixStop lead with
      | some stop =>
        simp only [Option.mem_def, Option.some.injEq, forall_eq', List.cons_lt_cons_iff]
        constructor
        · rintro ⟨rfl, above, below⟩
          exact ⟨⟨lt_irrefl _, fun _ => above⟩, .inr ⟨rfl, below⟩⟩
        · rintro ⟨⟨notBelow, above⟩, below | ⟨rfl, below⟩⟩
          · exact absurd below notBelow
          · exact ⟨rfl, above rfl, below⟩
      | none =>
        simp only [Option.mem_def, reduceCtorEq, false_implies, implies_true, and_true]
        by_cases last : byte = 0xff
        · subst last
          simp only [↓reduceIte, reduceCtorEq, false_implies, implies_true, and_true]
          constructor
          · rintro ⟨rfl, above⟩
            exact ⟨lt_irrefl _, fun _ => above⟩
          · rintro ⟨notBelow, above⟩
            have top : first ≤ 0xff :=
              UInt8.le_iff_toNat_le.mpr (Nat.le_of_lt_succ first.toNat_lt)
            have same : first = 0xff := le_antisymm top (not_lt.mp notBelow)
            exact ⟨same.symm, above same⟩
        · simp only [last, ↓reduceIte, Option.some.injEq, forall_eq', List.cons_lt_cons_iff,
            List.not_lt_nil, and_false, or_false, lt_add_one_iff last]
          constructor
          · rintro ⟨rfl, above⟩
            exact ⟨⟨lt_irrefl _, fun _ => above⟩, le_refl _⟩
          · rintro ⟨⟨notBelow, above⟩, below⟩
            have same : first = byte := le_antisymm below (not_lt.mp notBelow)
            exact ⟨same.symm, above same⟩

/-- The range holds exactly the byte strings that begin with the given ones. -/
theorem mem_prefixRange (lead key : Bytes) :
    ((prefixRange lead).1.starts key && (prefixRange lead).2.stops key) = true ↔
      lead <+: key := by
  rw [isPrefix_iff_of_prefixStop, prefixRange]
  cases prefixStop lead <;> simp [Bound.starts, Bound.stops]

/-- The range does not end before it starts. -/
theorem not_inverted_prefixRange (lead : Bytes) :
    Bound.inverted (prefixRange lead).1 (prefixRange lead).2 = false := by
  have inside := (isPrefix_iff_of_prefixStop lead lead).mp (List.prefix_refl lead)
  rw [prefixRange]
  cases stops : prefixStop lead with
  | none => rfl
  | some stop => simpa [Bound.inverted] using (inside.2 stop stops).le

/-! ## Operations -/

/-- A write to an engine: a value for a key, or the removal of a key. -/
abbrev Write := Store.Write fun _ : Bytes => Bytes

/-- Engine status. -/
structure Status where
  name : String
  keys : Nat
  size : Nat
  totalDiskSize : Nat
  liveDiskSize : Nat
  garbageDiskSize : Nat
  deriving DecidableEq, Repr

/-- The end from which a scan is read. -/
inductive Direction where
  | forward
  | backward
  deriving DecidableEq, Repr

/-- Items in the order in which they are read. -/
def Direction.arrange {Item : Type} : Direction → List Item → List Item
  | .forward, items => items
  | .backward, items => items.reverse

/-- A call to an engine, the compaction of its file, or its reopening. A file is reopened as
it is, or with a compaction if its garbage exceeds a ratio and a number of bytes. -/
inductive Operation where
  | write (write : Write)
  | get (key : Bytes)
  | scan (range : Bound Bytes × Bound Bytes) (direction : Direction)
  | status
  | flush
  | compact
  | reopen (garbage : Option (Binary64 × Nat))

/-- The result of a call. -/
inductive Reply where
  | done
  | value (value : Option Bytes)
  | items (items : List (Except Error (Bytes × Bytes)))
  | status (status : Status)
  deriving DecidableEq

/-- A result without what describes the engine itself: its name and its disk sizes. -/
def Reply.logical : Reply → Reply
  | .status found => .status ⟨"", found.keys, found.size, 0, 0, 0⟩
  | reply => reply

end Radb.Storage
