import Radb.Storage.Bitcask.Log

/-! # The BitCask engine

The engine appends every write to its log file and keeps the key directory in memory. A
compaction writes a new file with the live entries only.
-/

namespace Radb.Storage

open Foundation

/-- A BitCask database: its log file and its keydir. -/
structure Bitcask where
  log : Bytes
  keydir : Bitcask.KeyDir

namespace Bitcask

/-- Opens or creates a BitCask database in the given file. -/
def new (file : Bytes) : Bitcask :=
  let built := buildKeydir file
  ⟨built.2, built.1⟩

/-- Deletes a key, or does nothing if it does not exist. -/
def delete (s : Bitcask) (failure : Option Failure) (key : Bytes) : Except Halt Unit × Bitcask :=
  match writeEntry s.log failure key none with
  | (.error halt, log) => (.error halt, { s with log := log })
  | (.ok _, log) => (.ok (), ⟨log, s.keydir.replay (.delete key)⟩)

/-- Sets a value for a key, replacing the existing value if any. -/
def set (s : Bitcask) (failure : Option Failure) (key value : Bytes) :
    Except Halt Unit × Bitcask :=
  match writeEntry s.log failure key (some value) with
  | (.error halt, log) => (.error halt, { s with log := log })
  | (.ok (pos, len), log) =>
    let valueLen := value.length % 2 ^ 32
    (.ok (), ⟨log, s.keydir.replay (.set key (pos + len - valueLen, valueLen))⟩)

/-- Gets a value for a key, if it exists. -/
def get (s : Bitcask) (key : Bytes) : Except Error (Option Bytes) :=
  match Store.get s.keydir key with
  | some (valuePos, valueLen) => (readValue s.log valuePos valueLen).map some
  | none => .ok none

/-- Iterates over an ordered range of key/value pairs. -/
def scan (s : Bitcask) (range : Bound Bytes × Bound Bytes) :
    Except Halt (List (Except Error (Bytes × Bytes))) := do
  let pairs ← rangeOf s.keydir range
  .ok (pairs.map fun pair => (readValue s.log pair.2.1 pair.2.2).map fun value => (pair.1, value))

scoped instance transCmp_bytes : Std.TransCmp (LinearOrder.toOrd : Ord Bytes).compare :=
  inferInstance

/-- Returns engine status. -/
def status (s : Bitcask) : Except Halt Status :=
  let keys := s.keydir.toList.length
  let size := s.keydir.toList.foldl (fun size pair => size + pair.1.length + pair.2.2) 0
  let totalDiskSize := s.log.length
  let liveDiskSize := size + 8 * keys
  if totalDiskSize < liveDiskSize then .error (.panic "attempt to subtract with overflow")
  else
    .ok
      { name := "bitcask"
        keys := keys
        size := size
        totalDiskSize := totalDiskSize
        liveDiskSize := liveDiskSize
        garbageDiskSize := totalDiskSize - liveDiskSize }

/-- Writes the live entries of a log file to a new one, with its keydir. -/
def writeLog (log : Bytes) :
    List (Sigma fun _ : Bytes => Nat × Nat) → Bitcask → Except Halt Bitcask
  | [], written => .ok written
  | ⟨key, valuePos, valueLen⟩ :: rest, written =>
    match readValue log valuePos valueLen with
    | .error error => .error (.error error)
    | .ok value =>
      match writeEntry written.log none key (some value) with
      | (.error halt, _) => .error halt
      | (.ok (pos, len), newLog) =>
        writeLog log rest
          ⟨newLog, written.keydir.replay (.set key (pos + len - valueLen, valueLen))⟩

/-- Compacts the current log file by writing out a new log file containing only live keys
and replacing the current file with it. -/
def compact (s : Bitcask) : Except Halt Unit × Bitcask :=
  match writeLog s.log s.keydir.toList ⟨[], ∅⟩ with
  | .error halt => (.error halt, s)
  | .ok written => (.ok (), written)

/-- Whether there is enough garbage to compact a file when it is opened. -/
def shouldCompact (status : Status) (garbageMinRatio : Binary64) (garbageMinBytes : Nat) : Bool :=
  let garbageRatio :=
    (Binary64.ofInt status.garbageDiskSize).divide (Binary64.ofInt status.totalDiskSize)
  0 < status.garbageDiskSize && garbageMinBytes ≤ status.garbageDiskSize &&
    (garbageMinRatio.below garbageRatio || garbageMinRatio.equals garbageRatio)

/-- Opens a BitCask database, and automatically compacts it if the amount of garbage
exceeds the given ratio and byte size when opened. -/
def newCompact (file : Bytes) (garbageMinRatio : Binary64) (garbageMinBytes : Nat) :
    Except Halt Unit × Bitcask :=
  let s := new file
  match s.status with
  | .error halt => (.error halt, s)
  | .ok status =>
    if shouldCompact status garbageMinRatio garbageMinBytes then s.compact else (.ok (), s)

/-- Performs a write on a file that may fail. -/
def write (s : Bitcask) (failure : Option Failure) : Write → Except Halt Unit × Bitcask
  | .set key value => s.set failure key value
  | .delete key => s.delete failure key

/-- Performs an operation on a file that does not fail. -/
def respond (s : Bitcask) : Operation → Except Halt Reply × Bitcask
  | .write write => ((s.write none write).1.map fun _ => .done, (s.write none write).2)
  | .get key => (((s.get key).mapError .error).map .value, s)
  | .scan range direction => ((s.scan range).map (.items ∘ direction.arrange), s)
  | .status => (s.status.map .status, s)
  | .flush => (.ok .done, s)
  | .compact => (s.compact.1.map fun _ => .done, s.compact.2)
  | .reopen none => (.ok .done, new s.log)
  | .reopen (some (ratio, bytes)) =>
    ((newCompact s.log ratio bytes).1.map fun _ => .done, (newCompact s.log ratio bytes).2)

end Bitcask

end Radb.Storage
