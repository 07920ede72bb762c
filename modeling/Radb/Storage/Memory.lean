import Radb.Storage.Engine

/-! # The in-memory engine

An engine that keeps its data in an ordered map and nothing on disk.
-/

namespace Radb.Storage

open Foundation

/-- The data of the in-memory engine. -/
abbrev Memory := Store fun _ : Bytes => Bytes

namespace Memory

/-- Sets a value for a key, replacing the existing value if any. -/
def set (data : Memory) (key value : Bytes) : Memory := data.replay (.set key value)

/-- Deletes a key, or does nothing if it does not exist. -/
def delete (data : Memory) (key : Bytes) : Memory := data.replay (.delete key)

/-- Iterates over an ordered range of key/value pairs. -/
def scan (data : Memory) (range : Bound Bytes × Bound Bytes) :
    Except Halt (List (Except Error (Bytes × Bytes))) := do
  let pairs ← rangeOf data range
  .ok (pairs.map fun pair => .ok (pair.1, pair.2))

/-- A scan by leading bytes reads exactly the pairs whose key begins with them, in key order. -/
theorem scanPrefix_exact (data : Memory) (lead : Bytes) :
    ∃ pairs : List (Bytes × Bytes), scanPrefix data.scan lead = .ok (pairs.map .ok) ∧
      (pairs.Pairwise fun first second => first.1 < second.1) ∧
      ∀ key value, (key, value) ∈ pairs ↔ lead <+: key ∧ data.get key = some value := by
  let inside (key : Bytes) : Bool :=
    (prefixRange lead).1.starts key && (prefixRange lead).2.stops key
  refine ⟨(data.scanGroup inside).map fun pair => (pair.1, pair.2), ?_, ?_, ?_⟩
  · rw [scanPrefix, scan, rangeOf, not_inverted_prefixRange, List.map_map]
    rfl
  · exact List.pairwise_map.mpr (data.sorted_scanGroup inside)
  · intro key value
    rw [← mem_prefixRange lead key, ← data.mem_scanGroup inside key value, List.mem_map]
    constructor
    · rintro ⟨pair, found, same⟩
      cases same
      exact found
    · intro found
      exact ⟨_, found, rfl⟩

/-- Returns engine status. -/
def status (data : Memory) : Status :=
  { name := "memory"
    keys := data.toList.length
    size := data.toList.foldl (fun size pair => size + pair.1.length + pair.2.length) 0
    totalDiskSize := 0
    liveDiskSize := 0
    garbageDiskSize := 0 }

/-- Performs an operation. There is no file to flush, compact or reopen. -/
def respond (data : Memory) : Operation → Except Halt Reply × Memory
  | .write (.set key value) => (.ok .done, data.set key value)
  | .write (.delete key) => (.ok .done, data.delete key)
  | .get key => (.ok (.value (data.get key)), data)
  | .scan range direction => ((data.scan range).map (.items ∘ direction.arrange), data)
  | .status => (.ok (.status data.status), data)
  | .flush => (.ok .done, data)
  | .compact => (.ok .done, data)
  | .reopen _ => (.ok .done, data)

end Memory

end Radb.Storage
