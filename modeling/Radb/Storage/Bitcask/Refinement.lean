import Radb.Storage.Bitcask.Accounting
import Radb.Storage.Memory

/-! # The map a BitCask database represents

Whatever operations are made, the engine answers as the in-memory engine does.
-/

namespace Radb.Storage

open Foundation

namespace Bitcask

/-- A database represents a map if its file holds writes that lead to the map and its
keydir was built from them. -/
def Represents (s : Bitcask) (data : Memory) : Prop :=
  ∃ writes : List Write, (∀ write ∈ writes, Fits write) ∧ s.log = format.encodeAll writes ∧
    s.keydir = indexAll 0 ∅ writes ∧ data = Program.replayAll Store.replay ∅ writes

theorem represents_new {writes : List Write} (fits : ∀ write ∈ writes, Fits write) {tail : Bytes}
    (unreadable : format.recover tail = []) :
    Represents (new (format.encodeAll writes ++ tail))
      (Program.replayAll Store.replay ∅ writes) := by
  refine ⟨writes, fits, ?_, ?_, rfl⟩
  · rw [new, buildKeydir_append fits unreadable]
  · rw [new, buildKeydir_append fits unreadable]

theorem represents_empty : Represents (new []) ∅ :=
  @represents_new [] (by simp) [] (format.recover_of_none format.decode_nil)

namespace Represents

variable {s : Bitcask} {data : Memory}

theorem located (represents : s.Represents data) : Locates s.log s.keydir data := by
  obtain ⟨writes, _, log, keydir, rfl⟩ := represents
  rw [log, keydir]
  exact locates_empty.writes writes

theorem reopen (represents : s.Represents data) : new s.log = s := by
  obtain ⟨writes, fits, log, keydir, _⟩ := represents
  have built := @buildKeydir_append writes fits []
    (format.recover_of_none format.decode_nil)
  rw [List.append_nil] at built
  rw [new, log, built]
  cases s
  simp only at log keydir
  rw [log, keydir]

theorem write_eq (s : Bitcask) {write : Write} (fits : Fits write) :
    s.write none write =
      (.ok (), ⟨s.log ++ format.encode write, index s.log.length s.keydir write⟩) := by
  have appended := writeEntry_of_short s.log fits.1
  have size := length_encode write
  cases write with
  | set key stored =>
    have short : stored.length % 2 ^ 32 = stored.length := by
      have bound : stored.length < 2 ^ 31 := fits.2
      exact Nat.mod_eq_of_lt (by omega)
    have place : s.log.length + (format.encode (.set key stored)).length - stored.length =
        s.log.length + 8 + key.length := by
      change _ = 8 + key.length + stored.length at size
      omega
    change writeEntry s.log none key (some stored) = _ at appended
    simp only [Bitcask.write, set, appended, short, place]
    rfl
  | delete key =>
    change writeEntry s.log none key none = _ at appended
    simp only [Bitcask.write, delete, appended]
    rfl

theorem write (represents : s.Represents data) {write : Write} (fits : Fits write) :
    (s.write none write).2.Represents (data.replay write) := by
  obtain ⟨writes, allFit, log, keydir, rfl⟩ := represents
  rw [write_eq s fits]
  refine ⟨writes ++ [write], ?_, ?_, ?_, ?_⟩
  · intro other member
    rcases List.mem_append.mp member with before | last
    · exact allFit other before
    · rw [List.mem_singleton.mp last]
      exact fits
  · simp [log]
  · rw [indexAll_append, ← keydir, ← log, Nat.zero_add]
    rfl
  · rw [Program.replayAll_append]
    rfl

theorem get (represents : s.Represents data) (key : Bytes) :
    s.get key = .ok (Store.get data key) := by
  unfold Bitcask.get
  rcases represents.located key with ⟨absent, missing⟩ | ⟨pos, stored, entered, present, found⟩
  · rw [absent, missing]
  · simp only [entered, present, found]
    rfl

/-- The value a keydir entry points at. -/
def pointed (s : Bitcask) (entry : Nat × Nat) : Bytes :=
  match readValue s.log entry.1 entry.2 with
  | .ok value => value
  | .error _ => []

section

variable (represents : s.Represents data)

include represents

theorem toList : data.toList = s.keydir.toList.map fun entry => ⟨entry.1, pointed s entry.2⟩ := by
  apply Store.toList_of_get_map fun _ entry => pointed s entry
  intro key
  rcases represents.located key with ⟨absent, missing⟩ | ⟨pos, stored, entered, present, found⟩
  · rw [absent, missing]
    rfl
  · rw [entered, present]
    simp only [Option.map_some, pointed, found]

theorem readValue {entry : Sigma fun _ : Bytes => Nat × Nat} (member : entry ∈ s.keydir.toList) :
    Bitcask.readValue s.log entry.2.1 entry.2.2 = .ok (pointed s entry.2) ∧
      entry.2.2 = (pointed s entry.2).length := by
  have entered := (Store.mem_toList s.keydir entry).mp member
  rcases represents.located entry.1 with ⟨absent, _⟩ | ⟨pos, stored, same, _, found⟩
  · rw [absent] at entered
    cases entered
  · rw [same] at entered
    obtain ⟨key, place⟩ := entry
    obtain rfl := Option.some.inj entered
    simp only [pointed, found, and_self]

theorem scan (range : Bound Bytes × Bound Bytes) : s.scan range = data.scan range := by
  unfold Bitcask.scan Memory.scan rangeOf
  split
  · rfl
  · simp only [bind, Except.bind, Store.scanGroup, represents.toList, List.filter_map, List.map_map]
    refine congrArg Except.ok (List.map_congr_left fun entry member => ?_)
    rw [(represents.readValue (List.mem_filter.mp member).1).1]
    rfl

theorem status :
    s.status = .ok
      { name := "bitcask"
        keys := data.status.keys
        size := data.status.size
        totalDiskSize := s.log.length
        liveDiskSize := data.status.size + 8 * data.status.keys
        garbageDiskSize := s.log.length - (data.status.size + 8 * data.status.keys) } := by
  have keys : s.keydir.toList.length = data.toList.length := by
    rw [represents.toList, List.length_map]
  have size : s.keydir.toList.foldl (fun size pair => size + pair.1.length + pair.2.2) 0 =
      data.toList.foldl (fun size pair => size + pair.1.length + pair.2.length) 0 := by
    rw [represents.toList, List.foldl_map]
    refine List.foldl_ext _ _ _ fun size entry member => ?_
    rw [(represents.readValue member).2]
  have accounted := Accounted.new s.log
  rw [represents.reopen] at accounted
  have status := status_of_live_le accounted.live_le
  rw [keys, size] at status
  exact status

theorem fits {pair : Sigma fun _ : Bytes => Bytes} (member : pair ∈ data.toList) :
    Fits (.set pair.1 pair.2) := by
  obtain ⟨writes, allFit, _, _, rfl⟩ := represents
  rcases Store.get_replayAll_eq_some _ _ ((Store.mem_toList _ pair).mp member) with before | written
  · rw [Store.get_empty] at before
    cases before
  · exact allFit _ written

end

theorem writeLog_eq (log : Bytes) (entries : List (Sigma fun _ : Bytes => Nat × Nat))
    (stored : Nat × Nat → Bytes)
    (readable : ∀ entry ∈ entries, Bitcask.readValue log entry.2.1 entry.2.2 = .ok (stored entry.2) ∧
      entry.2.2 = (stored entry.2).length)
    (fits : ∀ entry ∈ entries, Fits (.set entry.1 (stored entry.2))) (written : Bitcask) :
    writeLog log entries written =
      .ok ⟨written.log ++ format.encodeAll (entries.map fun entry => .set entry.1 (stored entry.2)),
        indexAll written.log.length written.keydir
          (entries.map fun entry => .set entry.1 (stored entry.2))⟩ := by
  induction entries generalizing written with
  | nil => simp [writeLog, indexAll]
  | cons entry entries ih =>
    obtain ⟨key, pos, len⟩ := entry
    obtain ⟨found, size⟩ := readable _ List.mem_cons_self
    have fit := fits _ List.mem_cons_self
    have next := congrArg Prod.snd (write_eq written fit)
    have short : (stored (pos, len)).length % 2 ^ 32 = len := by
      have bound : (stored (pos, len)).length < 2 ^ 31 := fit.2
      exact (Nat.mod_eq_of_lt (by omega)).trans size.symm
    have appended := writeEntry_of_short written.log fit.1
    change writeEntry written.log none key (some (stored (pos, len))) = _ at appended
    simp only [Bitcask.write, set, appended, short] at next
    rw [writeLog, found]
    simp only [appended]
    rw [next, ih (fun other member => readable other (List.mem_cons_of_mem _ member))
      fun other member => fits other (List.mem_cons_of_mem _ member)]
    simp only [List.map_cons, RecordFormat.encodeAll_cons, List.append_assoc, indexAll,
      List.length_append]

/-- A compaction leaves a database with the same map, and a file with its pairs only. -/
theorem compact (represents : s.Represents data) :
    s.compact.1 = .ok () ∧ s.compact.2.Represents data ∧
      s.compact.2.log = format.encodeAll (data.toList.map fun pair => .set pair.1 pair.2) := by
  have pairs : (s.keydir.toList.map fun entry => (.set entry.1 (pointed s entry.2) : Write)) =
      data.toList.map fun pair => .set pair.1 pair.2 := by
    rw [represents.toList, List.map_map]
    rfl
  have written := writeLog_eq s.log s.keydir.toList (pointed s)
    (fun entry member => represents.readValue member)
    (fun entry member => by
      apply @fits _ _ represents ⟨entry.1, pointed s entry.2⟩
      rw [represents.toList]
      exact List.mem_map_of_mem member) ⟨[], ∅⟩
  rw [pairs] at written
  rw [Bitcask.compact, written]
  refine ⟨rfl, ⟨data.toList.map fun pair => .set pair.1 pair.2, ?_, rfl, rfl, ?_⟩, rfl⟩
  · intro write member
    obtain ⟨pair, stored, rfl⟩ := List.mem_map.mp member
    exact represents.fits stored
  · exact (Store.replayAll_toList data).symm

end Represents

/-- The operations whose entries fit. -/
def Fitting : Operation → Prop
  | .write write => Fits write
  | _ => True

instance : DecidablePred Fitting
  | .write write => inferInstanceAs (Decidable (Fits write))
  | .get _ | .scan .. | .status | .flush | .compact | .reopen _ => isTrue trivial

/-- A database answers an operation as its map does, but for its name and disk sizes. -/
theorem Represents.respond {s : Bitcask} {data : Memory} (represents : s.Represents data)
    {operation : Operation} (fits : Fitting operation) :
    (s.respond operation).1.map Reply.logical = (data.respond operation).1.map Reply.logical ∧
      (s.respond operation).2.Represents (data.respond operation).2 := by
  cases operation with
  | write write =>
    have written := represents.write fits
    have answered := congrArg Prod.fst (Represents.write_eq s fits)
    refine ⟨?_, ?_⟩
    · simp only [Bitcask.respond, answered]
      cases write <;> rfl
    · cases write <;> exact written
  | get key =>
    refine ⟨?_, represents⟩
    simp only [Bitcask.respond, represents.get]
    rfl
  | scan range direction =>
    refine ⟨?_, represents⟩
    simp only [Bitcask.respond, represents.scan]
    rfl
  | status =>
    refine ⟨?_, represents⟩
    simp only [Bitcask.respond, represents.status]
    rfl
  | flush => exact ⟨rfl, represents⟩
  | compact =>
    obtain ⟨answered, compacted, _⟩ := represents.compact
    refine ⟨?_, compacted⟩
    simp only [Bitcask.respond, answered]
    rfl
  | reopen garbage =>
    cases garbage with
    | none =>
      refine ⟨rfl, ?_⟩
      simp only [Bitcask.respond, represents.reopen]
      exact represents
    | some limits =>
      obtain ⟨ratio, bytes⟩ := limits
      obtain ⟨answered, compacted, _⟩ := represents.compact
      simp only [Bitcask.respond, newCompact, represents.reopen, represents.status]
      split
      · rw [answered]
        exact ⟨rfl, compacted⟩
      · exact ⟨rfl, represents⟩

/-- From a database that represents a map, any operations are answered as by the map. -/
theorem Represents.serve {s : Bitcask} {data : Memory} (represents : s.Represents data)
    {operations : List Operation} (fits : ∀ operation ∈ operations, Fitting operation) :
    (Foundation.serve Bitcask.respond s operations).1.map (Except.map Reply.logical) =
        (Foundation.serve Memory.respond data operations).1.map (Except.map Reply.logical) ∧
      (Foundation.serve Bitcask.respond s operations).2.Represents
        (Foundation.serve Memory.respond data operations).2 :=
  serve_simulates (fun _ _ _ represents fit => represents.respond fit) represents operations fits

/-- The engine refines the in-memory engine: from an empty file, any operations whose
entries fit return what they return in memory, but for the engine's name and disk sizes in
its status. -/
theorem bitcask_refines_memory {operations : List Operation}
    (fits : ∀ operation ∈ operations, Fitting operation) :
    (serve respond (new []) operations).1.map (Except.map Reply.logical) =
      (serve Memory.respond ∅ operations).1.map (Except.map Reply.logical) :=
  (represents_empty.serve fits).1

/-- Two keys are written, one of them is deleted again, and the file is compacted and
reopened. -/
def pruning : List Operation :=
  [.write (.set [1] [10]), .write (.set [2] []), .write (.delete [1]), .compact, .reopen none,
    .get [2], .scan (.unbounded, .excluded [3]) .backward, .status]

theorem bitcask_refines_memory_pruning : (∀ operation ∈ pruning, Fitting operation) ∧
    (serve respond (new []) pruning).1.map (Except.map Reply.logical) =
      (serve Memory.respond ∅ pruning).1.map (Except.map Reply.logical) :=
  ⟨by decide, bitcask_refines_memory (by decide)⟩

/-- The status names the engine, and tells the size of its file. -/
theorem status_describes_engine :
    (serve respond (new []) [.write (.set [1] [10]), .status]).1 =
        [.ok .done, .ok (.status ⟨"bitcask", 1, 2, 10, 10, 0⟩)] ∧
      (serve Memory.respond ∅ [.write (.set [1] [10]), .status]).1 =
        [.ok .done, .ok (.status ⟨"memory", 1, 2, 0, 0, 0⟩)] ∧
      (serve respond (new []) [.write (.set [1] [10]), .status]).1 ≠
        (serve Memory.respond ∅ [.write (.set [1] [10]), .status]).1 := by
  decide +kernel

end Bitcask

end Radb.Storage
