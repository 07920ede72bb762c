import Mathlib
import Radb.Error
import Radb.Foundation.Store

/-! # MVCC keys

The keys under which multi-version data and its bookkeeping are stored, ordered
as their encoding orders them: by variant first, then by the fields from left to
right. A key prefix names the group of keys a prefix scan returns.
-/

namespace Radb.Storage.Mvcc

/-- A logical timestamp. -/
abbrev Version := Nat

/-- The largest version a 64-bit timestamp can hold. -/
def versionMax : Version := 2 ^ 64 - 1

/-- The keys of the multi-version store. -/
inductive Key where
  /-- The next available version. -/
  | nextVersion
  /-- Active (uncommitted) transactions by version. -/
  | txnActive (version : Version)
  /-- The active set as it was when a version began, if it was not empty. -/
  | txnActiveSnapshot (version : Version)
  /-- A key written by an active transaction, in case it rolls back. -/
  | txnWrite (version : Version) (key : Bytes)
  /-- A versioned key. -/
  | version (key : Bytes) (version : Version)
  /-- An unversioned, non-transactional key. -/
  | unversioned (key : Bytes)
  deriving DecidableEq

namespace Key

/-- The variant index and the fields of a key, padded to one shape. -/
def fields : Key → ℕ ×ₗ (ℕ ×ₗ (Bytes ×ₗ ℕ))
  | nextVersion => toLex (0, toLex (0, toLex ([], 0)))
  | txnActive stamp => toLex (1, toLex (stamp, toLex ([], 0)))
  | txnActiveSnapshot stamp => toLex (2, toLex (stamp, toLex ([], 0)))
  | txnWrite stamp key => toLex (3, toLex (stamp, toLex (key, 0)))
  | version key stamp => toLex (4, toLex (0, toLex (key, stamp)))
  | unversioned key => toLex (5, toLex (0, toLex (key, 0)))

theorem fields_injective : Function.Injective fields := by
  intro first second same
  cases first <;> cases second <;> simp_all [fields]

instance : LinearOrder Key := LinearOrder.lift' fields fields_injective

theorem le_iff (first second : Key) : first ≤ second ↔ first.fields ≤ second.fields := Iff.rfl

/-- The keys between two versions of a user key are its versions between them. -/
theorem version_interval (key : Bytes) (lower upper : Version) (other : Key) :
    version key lower ≤ other ∧ other ≤ version key upper ↔
      ∃ stamp, other = version key stamp ∧ lower ≤ stamp ∧ stamp ≤ upper := by
  constructor
  · rintro ⟨above, below⟩
    rw [le_iff] at above below
    cases other with
    | version otherKey stamp =>
      simp only [fields, Prod.Lex.toLex_le_toLex, lt_irrefl, true_and, false_or] at above below
      rcases above with above | above
      · rcases below with below | below
        · exact absurd below (lt_asymm above)
        · exact absurd below.1 above.ne'
      · rcases below with below | below
        · exact absurd above.1 below.ne'
        · exact ⟨stamp, by rw [above.1], above.2, below.2⟩
    | _ => simp [fields, Prod.Lex.toLex_le_toLex] at above below
  · rintro ⟨stamp, rfl, above, below⟩
    simp [le_iff, fields, Prod.Lex.toLex_le_toLex, above, below]

theorem version_lt_version (key : Bytes) (first second : Version) :
    version key first < version key second ↔ first < second := by
  rw [← not_le, ← not_le, not_iff_not]
  simp [le_iff, fields, Prod.Lex.toLex_le_toLex]

/-- The version in a key. -/
def stamp : Key → Option Version
  | txnActive held => some held
  | txnActiveSnapshot held => some held
  | txnWrite held _ => some held
  | version _ held => some held
  | nextVersion => none
  | unversioned _ => none

/-- What is stored under a key. -/
@[reducible] def Value : Key → Type
  | nextVersion => Version
  | txnActive _ => Unit
  | txnActiveSnapshot _ => Finset Version
  | txnWrite _ _ => Unit
  | version _ _ => Option Bytes
  | unversioned _ => Bytes

end Key

/-- The prefixes used for prefix scans, one for every variant of the keys. -/
inductive KeyPrefix where
  | nextVersion
  | txnActive
  | txnActiveSnapshot
  | txnWrite (version : Version)
  | version (key : Bytes)
  | unversioned
  deriving DecidableEq

/-- The keys a prefix scan returns. -/
def KeyPrefix.covers : KeyPrefix → Key → Bool
  | .nextVersion, .nextVersion => true
  | .txnActive, .txnActive _ => true
  | .txnActiveSnapshot, .txnActiveSnapshot _ => true
  | .txnWrite stamp, .txnWrite other _ => stamp = other
  | .version key, .version other _ => key = other
  | .unversioned, .unversioned _ => true
  | _, _ => false

/-- The storage engine under the multi-version store. -/
abbrev Engine := Foundation.Store Key.Value

end Radb.Storage.Mvcc
