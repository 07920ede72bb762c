import Radb.Sql.Engine.Key
import Radb.Storage.Mvcc.View

/-! # SQL transactions over the multi-version store

A script of an SQL transaction is interpreted by the operations of a key-value
transaction, with keys and values encoded. Running it there is running it on the
contents the transaction sees: the same result, and every write of the script becomes
the two engine writes of a versioned write.
-/

namespace Radb.Sql

open Foundation Foundation.Program Radb.Storage Radb.Storage.Mvcc

variable {journal : List (Store.Write Mvcc.Key.Value)}

variable {Result : Type} {engine : Engine}

/-- A program of an SQL transaction over the storage engine. -/
abbrev Work (Result : Type) :=
  Program (Store.replay : Engine → Store.Write Mvcc.Key.Value → Engine) Fault Result

/-- The operation of the key-value transaction, with its errors. -/
def operation {Result : Type} (session : Mvcc.Session Result) : Work Result :=
  session.mapFault Fault.error

theorem operation_of_run {session : Mvcc.Session Result} {result : Result}
    (ran : session.run engine = ⟨journal, .ok result⟩) :
    (operation session).run engine = ⟨journal, .ok result⟩ :=
  mapFault_of_run Fault.error ran

theorem operation_of_stop {session : Mvcc.Session Result} {error : Error}
    (ran : session.run engine = ⟨journal, .error error⟩) :
    (operation session).run engine = ⟨journal, .error (.error error)⟩ :=
  mapFault_of_stop Fault.error ran

/-- Deserialize what was found under a key. -/
def deserialize (key : Key) : Option Bytes → Except Fault (Option (Stored key))
  | none => .ok none
  | some bytes =>
    match key.codec.decodeAll bytes with
    | some value => .ok (some value)
    | none => .error (.error (.internal "invalid value"))

/-- Deserialize scanned keys and values. -/
def deserializeAll : List (Bytes × Bytes) → Except Fault (List (Sigma Stored))
  | [] => .ok []
  | (bytes, value) :: rest =>
    match Key.decode bytes with
    | none => .error (.error (.internal "invalid key"))
    | some key =>
      match key.codec.decodeAll value with
      | none => .error (.error (.internal "invalid value"))
      | some stored =>
        match deserializeAll rest with
        | .error fault => .error fault
        | .ok pairs => .ok (⟨key, stored⟩ :: pairs)

/-- The bytes of a write: the key, and the value unless it is a deletion. -/
def serialize : Store.Write Stored → Bytes × Option Bytes
  | .set key value => (key.encode, some (key.codec.encode value))
  | .delete key => (key.encode, none)

/-- Interpret a script by the operations of a key-value transaction. -/
def session {Result : Type} (st : TransactionState) : Task Result → Work Result
  | .done result => ret result
  | .stop fault => fail fault
  | .get key next => andThen (operation (Transaction.get st key.encode)) fun found =>
    match deserialize key found with
    | .ok value => session st (next value)
    | .error fault => fail fault
  | .scan group next => andThen (operation (Transaction.scanPrefix st group.encode)) fun found =>
    match deserializeAll found with
    | .ok pairs => session st (next pairs)
    | .error fault => fail fault
  | .write effect next =>
    andThen (operation (Transaction.writeVersion st (serialize effect).1 (serialize effect).2))
      fun _ => session st next

/-- The engine writes of a write. -/
def engineWrites (st : TransactionState) (effect : Store.Write Stored) :
    List (Store.Write Mvcc.Key.Value) :=
  Transaction.versionWrites st (serialize effect).1 (serialize effect).2

/-- Why a write of a key is refused, if it is. -/
def refusals (st : TransactionState) (engine : Engine) (key : Key) : Option Fault :=
  (Transaction.refusal st engine key.encode).map Fault.error

/-- The latest of certain versions are exactly the given contents. -/
structure Reveals (engine : Engine) (among : Version → Prop) (contents : Contents) : Prop where
  get : ∀ key : Key, engine.Latest among key.encode
    ((Store.get contents key).map key.codec.encode)
  keys : ∀ bytes value, engine.Latest among bytes (some value) → ∃ key : Key, bytes = key.encode

/-- A transaction sees exactly the given contents. -/
abbrev Shows (st : TransactionState) (engine : Engine) (contents : Contents) : Prop :=
  Reveals engine (fun version => st.isVisible version = true) contents

/-- Exactly the given contents are committed. -/
abbrev Publishes (engine : Engine) (contents : Contents) : Prop :=
  Reveals engine (fun version => ¬ engine.Active version) contents

theorem deserialize_encode (key : Key) (value : Option (Stored key)) :
    deserialize key (value.map key.codec.encode) = .ok value := by
  cases value with
  | none => rfl
  | some value => simp only [Option.map_some, deserialize, Codec.decodeAll_encode]

/-- The bytes of a stored pair. -/
def encodePair (pair : Sigma Stored) : Bytes × Bytes := (pair.1.encode, pair.1.codec.encode pair.2)

theorem deserializeAll_encode (pairs : List (Sigma Stored)) :
    deserializeAll (pairs.map encodePair) = .ok pairs := by
  induction pairs with
  | nil => rfl
  | cons pair rest ih =>
    simp only [List.map_cons, encodePair, deserializeAll, Key.decode_encode,
      Codec.decodeAll_encode]
    rw [ih]

/-- Two strictly ascending lists with the same elements are the same. -/
theorem eq_of_ascending {first second : List (Bytes × Bytes)}
    (left : first.Pairwise fun one other => one.1 < other.1)
    (right : second.Pairwise fun one other => one.1 < other.1)
    (same : ∀ key value, (key, value) ∈ first ↔ (key, value) ∈ second) : first = second := by
  have distinct {list : List (Bytes × Bytes)}
      (ascending : list.Pairwise fun one other => one.1 < other.1) : list.Nodup :=
    ascending.imp fun below => by
      rintro rfl
      exact lt_irrefl _ below
  have permuted : first.Perm second :=
    (List.perm_ext_iff_of_nodup (distinct left) (distinct right)).mpr fun pair => same pair.1 pair.2
  exact permuted.eq_of_pairwise (fun one other _ _ below above => absurd (below.trans above)
    (lt_irrefl _)) left right

namespace Shows

variable {st : TransactionState} {engine : Engine} {contents : Contents}

/-- A scan finds the stored pairs of the group. -/
theorem scan_run (shows : Shows st engine contents) (group : KeyPrefix) :
    (Transaction.scanPrefix st group.encode).run engine =
      ⟨[], .ok ((Store.scanGroup contents group.covers).map encodePair)⟩ := by
  obtain ⟨pairs, ran, ascending, members⟩ := Transaction.scanPrefix_run engine st group.encode
  rw [ran]
  have sorted := Store.sorted_scanGroup contents group.covers
  have same : pairs = (Store.scanGroup contents group.covers).map encodePair := by
    refine eq_of_ascending ascending (List.pairwise_map.mpr sorted) fun bytes value => ?_
    rw [members, List.mem_map]
    constructor
    · rintro ⟨under, latest⟩
      obtain ⟨key, rfl⟩ := shows.keys bytes value latest
      obtain ⟨stored, present, rfl⟩ := Option.map_eq_some_iff.mp ((shows.get key).unique latest)
      exact ⟨⟨key, stored⟩, (Store.mem_scanGroup contents _ key stored).mpr
        ⟨(KeyPrefix.isPrefix_encode_iff group key).mp under, present⟩, rfl⟩
    · rintro ⟨⟨key, stored⟩, member, equal⟩
      cases equal
      obtain ⟨covered, present⟩ := (Store.mem_scanGroup contents _ key stored).mp member
      refine ⟨(KeyPrefix.isPrefix_encode_iff group key).mpr covered, ?_⟩
      have latest := shows.get key
      rwa [present] at latest
  rw [same]

/-- After a write that was not refused, the transaction sees the write. -/
theorem write (shows : Shows st engine contents) (own : st.version ∉ st.active)
    (writable : st.readOnly = false) (effect : Store.Write Stored) :
    Shows st (replayAll Store.replay engine (engineWrites st effect))
      (Store.replay contents effect) := by
  have bytes : (serialize effect).1 = effect.key.encode := by cases effect <;> rfl
  have value : (serialize effect).2 =
      (Store.get (Store.replay contents effect) effect.key).map effect.key.codec.encode := by
    cases effect <;> simp [serialize]
  constructor
  · intro key
    by_cases same : key = effect.key
    · subst same
      rw [engineWrites, bytes, value]
      exact Transaction.latest_written_self writable own _
    · rw [Store.get_replay_of_ne contents effect same, engineWrites, bytes]
      exact Transaction.latest_written_of_ne _ (fun equal => same (Key.encode_injective equal))
        (shows.get key)
  · intro found stored latest
    by_cases same : found = effect.key.encode
    · exact ⟨_, same⟩
    · refine shows.keys found stored (latest.congr fun version held => ?_)
      rw [engineWrites, bytes, Transaction.get_written_of_ne _ _ _ _ (by simp) (by simp [same])]

/-- Running a script in a transaction is running it on the contents it sees. -/
theorem session_run (shows : Shows st engine contents) (own : st.version ∉ st.active)
    (task : Task Result) :
    ∃ journal result,
      (task.program KeyPrefix.covers (refusals st engine)).run contents = ⟨journal, result⟩ ∧
      (session st task).run engine = ⟨journal.flatMap (engineWrites st), result⟩ ∧
      Shows st (replayAll Store.replay engine (journal.flatMap (engineWrites st)))
        (replayAll Store.replay contents journal) ∧
      refusals st (replayAll Store.replay engine (journal.flatMap (engineWrites st))) =
        refusals st engine := by
  induction task generalizing engine contents with
  | done result => exact ⟨[], .ok result, rfl, rfl, shows, rfl⟩
  | stop fault => exact ⟨[], .error fault, rfl, rfl, shows, rfl⟩
  | get key next ih =>
    obtain ⟨journal, result, ran, worked, after, still⟩ := ih (Store.get contents key) shows
    refine ⟨journal, result, ran, ?_, after, still⟩
    obtain ⟨value, read, latest⟩ := Transaction.get_run engine st key.encode
    have found := latest.unique (shows.get key)
    subst found
    simp only [session]
    rw [andThen_of_run _ (operation_of_run read), deserialize_encode]
    simpa only [replayAll_nil, List.nil_append] using worked
  | scan group next ih =>
    obtain ⟨journal, result, ran, worked, after, still⟩ :=
      ih (Store.scanGroup contents group.covers) shows
    refine ⟨journal, result, ran, ?_, after, still⟩
    simp only [session]
    rw [andThen_of_run _ (operation_of_run (shows.scan_run group)),
      deserializeAll_encode]
    simpa only [replayAll_nil, List.nil_append] using worked
  | write effect next ih =>
    have bytes : (serialize effect).1 = effect.key.encode := by cases effect <;> rfl
    have wrote := Transaction.writeVersion_run_refusal engine st (serialize effect).1
      (serialize effect).2
    have decided : refusals st engine effect.key =
        (Transaction.refusal st engine (serialize effect).1).map Fault.error := by
      rw [refusals, bytes]
    cases refused : Transaction.refusal st engine (serialize effect).1 with
    | some error =>
      rw [refused] at wrote decided
      refine ⟨[], .error (.error error), ?_, ?_, shows, rfl⟩
      · simp only [Script.program, decided, Option.map_some, fail_run]
      · simp only [session]
        exact andThen_of_stop _ (operation_of_stop wrote)
    | none =>
      rw [refused] at wrote decided
      have same : refusals st (replayAll Store.replay engine (engineWrites st effect)) =
          refusals st engine := by
        funext key
        rw [refusals, refusals, engineWrites, Transaction.refusal_written own _ refused]
      obtain ⟨journal, result, ran, worked, after, still⟩ :=
        ih (shows.write own (Transaction.writable_of_refusal refused) effect)
      rw [same] at ran still
      refine ⟨effect :: journal, result, ?_, ?_, ?_, ?_⟩
      · simp only [Script.program, decided, Option.map_none]
        rw [perform_andThen_run, ran]
      · simp only [session]
        rw [andThen_of_run _ (operation_of_run wrote)]
        rw [engineWrites] at worked
        rw [worked, List.flatMap_cons, engineWrites]
      · simpa only [List.flatMap_cons, replayAll_append, replayAll_cons] using after
      · simpa only [List.flatMap_cons, replayAll_append] using still

end Shows

end Radb.Sql
