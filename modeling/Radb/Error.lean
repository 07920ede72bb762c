import Radb.Foundation.Codec

/-! # Errors and byte strings

The error type shared by the storage, consensus and query layers. All variants
except `internal` are considered user-facing.
-/

namespace Radb

/-- A byte string. -/
abbrev Bytes := List UInt8

/-- Database errors. -/
inductive Error where
  | abort
  | config (message : String)
  | internal (message : String)
  | parse (message : String)
  | readOnly
  | serialization
  | value (message : String)
  deriving DecidableEq, Repr

end Radb
