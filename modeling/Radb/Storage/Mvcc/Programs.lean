import Radb.Storage.Mvcc.Transaction

/-! # What the transaction programs do

One specification per program: its result and the engine it leaves, read through
`Store.get`. Later modules use these and never unfold a program.
-/

namespace Radb.Storage.Mvcc

open Foundation Foundation.Program

variable {version : Version}

variable {engine next : Engine} {among : Version → Prop} {key : Bytes}

/-- The next version an engine would hand out. -/
def Engine.nextVersion (engine : Engine) : Version := (Store.get engine .nextVersion).getD 1

/-- Whether a version is in an engine's active set. -/
def Engine.Active (engine : Engine) (version : Version) : Prop :=
  Store.get engine (.txnActive version) = some ()

/-- `value` is what the highest stored version of `key` among those satisfying
`among` holds; `none` if there is none or it is a tombstone. -/
def Engine.Latest (engine : Engine) (among : Version → Prop) (key : Bytes)
    (value : Option Bytes) : Prop :=
  (∃ version, among version ∧ Store.get engine (.version key version) = some value ∧
    ∀ other stored, among other → Store.get engine (.version key other) = some stored →
      other ≤ version) ∨
  ((∀ version stored, among version →
    Store.get engine (.version key version) = some stored → False) ∧ value = none)

/-- Every version stored at a timestamp has a write record. -/
def Engine.Logged (engine : Engine) (version : Version) : Prop :=
  ∀ key stored, Store.get engine (.version key version) = some stored →
    Store.get engine (.txnWrite version key) = some ()

theorem Engine.Logged.congr (logged : engine.Logged version)
    (versions : ∀ key, Store.get next (.version key version) =
      Store.get engine (.version key version))
    (records : ∀ key, Store.get next (.txnWrite version key) =
      Store.get engine (.txnWrite version key)) : next.Logged version := by
  intro key stored present
  rw [versions] at present
  rw [records]
  exact logged key stored present

/-- The latest value is unique. -/
theorem Engine.Latest.unique {first second : Option Bytes} (left : engine.Latest among key first)
    (right : engine.Latest among key second) : first = second := by
  rcases left with ⟨version, chosen, stored, highest⟩ | ⟨absent, rfl⟩
  · rcases right with ⟨other, chosenOther, storedOther, highestOther⟩ | ⟨absent, _⟩
    · have same : version = other := Nat.le_antisymm (highestOther _ _ chosen stored)
        (highest _ _ chosenOther storedOther)
      subst same
      exact Option.some.inj (stored.symm.trans storedOther)
    · exact (absent _ _ chosen stored).elim
  · rcases right with ⟨other, chosenOther, storedOther, _⟩ | ⟨_, rfl⟩
    · exact (absent _ _ chosenOther storedOther).elim
    · rfl

/-- The latest value depends only on the stored versions that qualify. -/
theorem Engine.Latest.congr {amongNext : Version → Prop} {value : Option Bytes}
    (latest : engine.Latest among key value) (same : ∀ version stored,
      (among version ∧ Store.get engine (.version key version) = some stored) ↔
        (amongNext version ∧ Store.get next (.version key version) = some stored)) :
    next.Latest amongNext key value := by
  rcases latest with ⟨version, chosen, stored, highest⟩ | ⟨absent, rfl⟩
  · obtain ⟨chosenNext, storedNext⟩ := (same version value).mp ⟨chosen, stored⟩
    refine .inl ⟨version, chosenNext, storedNext, ?_⟩
    intro other otherStored qualifies present
    obtain ⟨before, presentBefore⟩ := (same other otherStored).mpr ⟨qualifies, present⟩
    exact highest other otherStored before presentBefore
  · refine .inr ⟨?_, rfl⟩
    intro version stored qualifies present
    obtain ⟨before, presentBefore⟩ := (same version stored).mpr ⟨qualifies, present⟩
    exact absent version stored before presentBefore

namespace Transaction

variable (engine) (st : TransactionState)

theorem collectActive_run (pairs : List (Sigma Key.Value))
    (grouped : ∀ pair ∈ pairs, KeyPrefix.txnActive.covers pair.1 = true) :
    ∃ active : Finset Version, (collectActive pairs).run engine = ⟨[], .ok active⟩ ∧
      ∀ version, version ∈ active ↔ (⟨.txnActive version, ()⟩ : Sigma Key.Value) ∈ pairs := by
  induction pairs with
  | nil => exact ⟨∅, rfl, by simp⟩
  | cons pair rest ih =>
    obtain ⟨key, stored⟩ := pair
    obtain ⟨active, collected, members⟩ := ih fun other member =>
      grouped other (List.mem_cons_of_mem _ member)
    have covered := grouped _ List.mem_cons_self
    cases key with
    | txnActive version =>
      refine ⟨insert version active, ?_, ?_⟩
      · simp [collectActive, andThen, collected]
      · intro other
        rw [Finset.mem_insert, members, List.mem_cons]
        constructor
        · rintro (rfl | member)
          · exact .inl rfl
          · exact .inr member
        · rintro (same | member)
          · cases same
            exact .inl rfl
          · exact .inr member
    | _ => simp [KeyPrefix.covers] at covered

/-- Scanning the active set returns it and writes nothing. -/
theorem scanActive_run :
    ∃ active : Finset Version, scanActive.run engine = ⟨[], .ok active⟩ ∧
      ∀ version, version ∈ active ↔ engine.Active version := by
  obtain ⟨active, collected, members⟩ := collectActive_run engine
    (Store.scanGroup engine KeyPrefix.txnActive.covers) (by
      rintro ⟨key, stored⟩ member
      exact ((Store.mem_scanGroup engine _ key stored).mp member).1)
  refine ⟨active, ?_, ?_⟩
  · simpa [scanActive] using collected
  · intro version
    rw [members, Store.mem_scanGroup]
    simp [KeyPrefix.covers, Engine.Active]

/-- The writes of a transaction that begins at `version` while `active` are
active. -/
def beginWrites (version : Version) (active : Finset Version) : List (Store.Write Key.Value) :=
  .set .nextVersion (version + 1) ::
    ((if active = ∅ then [] else [.set (.txnActiveSnapshot version) active]) ++
      [.set (.txnActive version) ()])

/-- Beginning a read-write transaction takes the next version, remembers the
active set and joins it. -/
theorem begin_run :
    ∃ active : Finset Version,
      begin.run engine = ⟨beginWrites engine.nextVersion active,
        .ok ⟨engine.nextVersion, false, active⟩⟩ ∧
      ∀ version, version ∈ active ↔ engine.Active version := by
  let first : Engine :=
    Store.replay engine (.set .nextVersion ((Store.get engine .nextVersion).getD 1 + 1))
  obtain ⟨active, scanned, members⟩ := scanActive_run first
  refine ⟨active, ?_, ?_⟩
  · simp only [begin, bind_eq_andThen, view_andThen_run, perform_andThen_run]
    rw [andThen_of_run _ scanned]
    by_cases none : active = ∅
    · simp [none, beginWrites, Engine.nextVersion]
    · simp [none, beginWrites, Engine.nextVersion]
  · intro version
    rw [members]
    simp only [Engine.Active, first]
    rw [Store.get_set_of_ne engine _ (by simp)]

section Begun

variable (engine : Engine) (active : Finset Version)

theorem nextVersion_begun :
    Engine.nextVersion (replayAll Store.replay engine (beginWrites engine.nextVersion active)) =
      engine.nextVersion + 1 := by
  rw [beginWrites, replayAll_cons, Engine.nextVersion, Store.get_replayAll_of_ne,
    Store.get_set_self, Option.getD_some]
  split <;> simp

theorem active_begun (version : Version) :
    Engine.Active (replayAll Store.replay engine (beginWrites engine.nextVersion active))
      version ↔ version = engine.nextVersion ∨ engine.Active version := by
  by_cases same : version = engine.nextVersion
  · subst same
    simp only [true_or, iff_true, Engine.Active, beginWrites, replayAll_cons, replayAll_append,
      replayAll_nil, Store.get_set_self]
  · rw [Engine.Active, Store.get_replayAll_of_ne]
    · simp only [same, false_or, Engine.Active]
    · intro write member
      rw [beginWrites] at member
      split at member <;> simp at member <;> aesop

theorem get_begun {key : Key} (next : key ≠ .nextVersion)
    (snapshot : ∀ version, key ≠ .txnActiveSnapshot version)
    (joined : ∀ version, key ≠ .txnActive version) :
    Store.get (replayAll Store.replay engine (beginWrites engine.nextVersion active)) key =
      Store.get engine key := by
  apply Store.get_replayAll_of_ne
  intro write member
  rw [beginWrites] at member
  split at member <;> simp at member <;> aesop

end Begun

/-- Beginning a read-only transaction at the latest version writes nothing. -/
theorem beginReadOnly_run :
    ∃ active : Finset Version,
      (beginReadOnly none).run engine = ⟨[], .ok ⟨engine.nextVersion, true, active⟩⟩ ∧
      ∀ version, version ∈ active ↔ engine.Active version := by
  obtain ⟨active, scanned, members⟩ := scanActive_run engine
  refine ⟨active, ?_, members⟩
  simp only [beginReadOnly, bind_eq_andThen, view_andThen_run]
  rw [andThen_of_run _ scanned]
  rfl

/-- Resuming a read-only or still active transaction returns it unchanged. -/
theorem resume_run (valid : st.readOnly = true ∨ engine.Active st.version) :
    (resume st).run engine = ⟨[], .ok st⟩ := by
  have present : ¬ (st.readOnly = false ∧ Store.get engine (.txnActive st.version) = none) := by
    rintro ⟨writable, absent⟩
    rcases valid with readOnly | active
    · simp [writable] at readOnly
    · simp [Engine.Active, absent] at active
  simp only [resume, bind_eq_andThen, view_andThen_run, present, ↓reduceIte, ret_run]

/-- Resuming a read-write transaction that is no longer active fails. -/
theorem resume_stop (writable : st.readOnly = false) (inactive : ¬ engine.Active st.version) :
    ∃ error, (resume st).run engine = ⟨[], .error error⟩ := by
  have absent : Store.get engine (.txnActive st.version) = none := by
    cases stored : Store.get engine (.txnActive st.version) with
    | none => rfl
    | some unit => exact (inactive stored).elim
  simp only [resume, bind_eq_andThen, view_andThen_run, writable, absent, and_self, ↓reduceIte,
    fail_run]
  exact ⟨_, rfl⟩

/-- A read-only transaction ends without touching the engine. -/
theorem commit_readOnly (readOnly : st.readOnly = true) :
    (commit st).run engine = ⟨[], .ok ()⟩ := by
  simp only [commit, readOnly, ↓reduceIte, ret_run]

theorem rollback_readOnly (readOnly : st.readOnly = true) :
    (rollback st).run engine = ⟨[], .ok ()⟩ := by
  simp only [rollback, readOnly, ↓reduceIte, ret_run]

theorem mem_writeRecords (version : Version) (pair : Sigma Key.Value) :
    pair ∈ Store.scanGroup engine (KeyPrefix.txnWrite version).covers ↔
      ∃ user, pair = ⟨.txnWrite version user, ()⟩ ∧
        Store.get engine (.txnWrite version user) = some () := by
  obtain ⟨found, stored⟩ := pair
  rw [Store.mem_scanGroup]
  constructor
  · rintro ⟨covered, present⟩
    cases found with
    | txnWrite other user =>
      have same : version = other := by simpa [KeyPrefix.covers] using covered
      subst same
      exact ⟨user, rfl, present⟩
    | _ => simp [KeyPrefix.covers] at covered
  · rintro ⟨user, same, present⟩
    cases same
    exact ⟨by simp [KeyPrefix.covers], present⟩

/-- The writes of a commit: every write record is deleted, then the entry in the active
set. -/
theorem commit_deletes (writable : st.readOnly = false) :
    ∃ records : List Key, (commit st).run engine =
        ⟨(records ++ [Key.txnActive st.version]).map Store.Write.delete, .ok ()⟩ ∧
      ∀ key, key ∈ records ↔ ∃ user, key = .txnWrite st.version user ∧
        Store.get engine (.txnWrite st.version user) = some () := by
  refine ⟨(Store.scanGroup engine (KeyPrefix.txnWrite st.version).covers).map Sigma.fst, ?_, ?_⟩
  · simp only [commit, writable, Bool.false_eq_true, ↓reduceIte, bind_eq_andThen,
      view_andThen_run]
    rw [andThen_of_run _ (each_perform_run _ _ _)]
    simp only [perform_run, List.map_append, List.map_cons, List.map_nil]
  · intro key
    constructor
    · intro recorded
      obtain ⟨pair, scanned, rfl⟩ := List.mem_map.mp recorded
      obtain ⟨user, rfl, present⟩ := (mem_writeRecords engine _ _).mp scanned
      exact ⟨user, rfl, present⟩
    · rintro ⟨user, rfl, present⟩
      exact List.mem_map.mpr ⟨_, (mem_writeRecords engine _ _).mpr ⟨user, rfl, present⟩, rfl⟩

/-- Committing removes exactly the transaction's write records and its entry in
the active set. -/
theorem commit_run (writable : st.readOnly = false) :
    ((commit st).run engine).result = .ok () ∧
      Store.Removes engine ((commit st).after engine) fun key =>
        key = .txnActive st.version ∨ ∃ user, key = .txnWrite st.version user := by
  obtain ⟨records, ran, members⟩ := commit_deletes engine st writable
  refine ⟨by rw [ran], ?_⟩
  rw [after, ran]
  apply Store.removes_of_deletes
  · intro key member
    rcases List.mem_append.mp member with recorded | joined
    · obtain ⟨user, rfl, _⟩ := (members key).mp recorded
      exact .inr ⟨user, rfl⟩
    · exact .inl (List.mem_singleton.mp joined)
  · rintro key (rfl | ⟨user, rfl⟩) absent
    · simp at absent
    · cases stored : Store.get engine (.txnWrite st.version user) with
      | none => rfl
      | some value =>
        exact (absent (List.mem_append_left _ ((members _).mpr ⟨user, rfl, stored⟩))).elim

theorem rollbackKeys_run (pairs : List (Sigma Key.Value))
    (grouped : ∀ pair ∈ pairs, (KeyPrefix.txnWrite st.version).covers pair.1 = true) :
    ∃ keys : List Key, (rollbackKeys st pairs).run engine = ⟨[], .ok keys⟩ ∧
      ∀ key, key ∈ keys ↔ ∃ user, (key = .version user st.version ∨
        key = .txnWrite st.version user) ∧
          (⟨.txnWrite st.version user, ()⟩ : Sigma Key.Value) ∈ pairs := by
  induction pairs with
  | nil => exact ⟨[], rfl, by simp⟩
  | cons pair rest ih =>
    obtain ⟨found, stored⟩ := pair
    obtain ⟨keys, collected, members⟩ := ih fun other member =>
      grouped other (List.mem_cons_of_mem _ member)
    have covered := grouped _ List.mem_cons_self
    cases found with
    | txnWrite version user =>
      have same : st.version = version := by simpa [KeyPrefix.covers] using covered
      subst same
      refine ⟨.version user st.version :: .txnWrite st.version user :: keys, ?_, ?_⟩
      · simp only [rollbackKeys, bind_eq_andThen]
        rw [andThen_of_run _ collected]
        rfl
      · intro key
        simp only [List.mem_cons, members]
        constructor
        · rintro (rfl | rfl | ⟨other, named, member⟩)
          · exact ⟨user, .inl rfl, .inl rfl⟩
          · exact ⟨user, .inr rfl, .inl rfl⟩
          · exact ⟨other, named, .inr member⟩
        · rintro ⟨other, named, same | member⟩
          · cases same
            rcases named with rfl | rfl
            · exact .inl rfl
            · exact .inr (.inl rfl)
          · exact .inr (.inr ⟨other, named, member⟩)
    | _ => simp [KeyPrefix.covers] at covered

/-- The keys a rollback removes come in pairs, the version before its record. -/
theorem rollbackKeys_order {pairs : List (Sigma Key.Value)} {keys : List Key}
    (collected : (rollbackKeys st pairs).run engine = ⟨[], .ok keys⟩) (count : Nat) {user : Bytes}
    (member : Key.txnWrite version user ∈ keys.take count) :
    Key.version user st.version ∈ keys.take count := by
  induction pairs generalizing keys count with
  | nil =>
    cases collected
    simp at member
  | cons pair rest ih =>
    obtain ⟨found, stored⟩ := pair
    cases found with
    | txnWrite other first =>
      simp only [rollbackKeys, bind_eq_andThen, andThen_ret_run, Outcome.mk.injEq] at collected
      obtain ⟨silent, returned⟩ := collected
      rcases ran : (rollbackKeys st rest).run engine with ⟨journal, error | later⟩
      · rw [ran] at returned
        cases returned
      · rw [ran] at silent returned
        obtain rfl : journal = [] := silent
        cases returned
        rcases count with _ | _ | count
        · simp at member
        · simp at member
        · rw [List.take_succ_cons, List.take_succ_cons] at member ⊢
          rcases List.mem_cons.mp member with impossible | member
          · cases impossible
          · rcases List.mem_cons.mp member with same | member
            · cases same
              exact List.mem_cons_self
            · exact List.mem_cons_of_mem _ (List.mem_cons_of_mem _ (ih ran count member))
    | _ => simp [rollbackKeys] at collected

/-- The writes of a rollback: every write record is deleted after the version it names,
then the entry in the active set. -/
theorem rollback_deletes (writable : st.readOnly = false) :
    ∃ keys : List Key, (rollback st).run engine =
        ⟨(keys ++ [Key.txnActive st.version]).map Store.Write.delete, .ok ()⟩ ∧
      (∀ key, key ∈ keys ↔ ∃ user, (key = .version user st.version ∨
        key = .txnWrite st.version user) ∧
          Store.get engine (.txnWrite st.version user) = some ()) ∧
      ∀ count user, Key.txnWrite st.version user ∈ keys.take count →
        Key.version user st.version ∈ keys.take count := by
  have recorded (user : Bytes) : (⟨.txnWrite st.version user, ()⟩ : Sigma Key.Value) ∈
      Store.scanGroup engine (KeyPrefix.txnWrite st.version).covers ↔
        Store.get engine (.txnWrite st.version user) = some () := by
    rw [Store.mem_scanGroup]
    simp [KeyPrefix.covers]
  obtain ⟨keys, collected, members⟩ := rollbackKeys_run engine st
    (Store.scanGroup engine (KeyPrefix.txnWrite st.version).covers) (by
      rintro ⟨key, stored⟩ member
      exact ((Store.mem_scanGroup engine _ key stored).mp member).1)
  simp only [recorded] at members
  refine ⟨keys, ?_, members, fun count user => rollbackKeys_order engine st collected count⟩
  simp only [rollback, writable, Bool.false_eq_true, ↓reduceIte, bind_eq_andThen,
    view_andThen_run]
  rw [andThen_of_run _ collected]
  simp only [replayAll_nil, List.nil_append]
  rw [andThen_of_run _ (each_perform_run _ _ _)]
  simp only [perform_run, List.map_append, List.map_cons, List.map_nil]

/-- Rolling back removes exactly the transaction's write records, the versions
they name and its entry in the active set. -/
theorem rollback_run (writable : st.readOnly = false) :
    ((rollback st).run engine).result = .ok () ∧
      Store.Removes engine ((rollback st).after engine) fun key =>
        key = .txnActive st.version ∨ (∃ user, key = .txnWrite st.version user) ∨
          ∃ user, key = .version user st.version ∧
            Store.get engine (.txnWrite st.version user) = some () := by
  obtain ⟨keys, ran, members, _⟩ := rollback_deletes engine st writable
  refine ⟨by rw [ran], ?_⟩
  rw [after, ran]
  apply Store.removes_of_deletes
  · intro key member
    rcases List.mem_append.mp member with undone | joined
    · obtain ⟨user, rfl | rfl, present⟩ := (members key).mp undone
      · exact .inr (.inr ⟨user, rfl, present⟩)
      · exact .inr (.inl ⟨user, rfl⟩)
    · exact .inl (List.mem_singleton.mp joined)
  · rintro key (rfl | ⟨user, rfl⟩ | ⟨user, rfl, present⟩) absent
    · simp at absent
    · cases stored : Store.get engine (.txnWrite st.version user) with
      | none => rfl
      | some value =>
        exact (absent (List.mem_append_left _
          ((members _).mpr ⟨user, .inr rfl, stored⟩))).elim
    · exact (absent (List.mem_append_left _
        ((members _).mpr ⟨user, .inl rfl, present⟩))).elim

theorem mem_scan_version (key : Bytes) (lower upper : Version) (pair : Sigma Key.Value) :
    pair ∈ Store.scan engine (.version key lower) (.version key upper) ↔
      ∃ version stored, pair = ⟨.version key version, stored⟩ ∧ lower ≤ version ∧
        version ≤ upper ∧ Store.get engine (.version key version) = some stored := by
  obtain ⟨found, stored⟩ := pair
  rw [Store.mem_scan, ← and_assoc, Key.version_interval]
  constructor
  · rintro ⟨⟨version, rfl, above, below⟩, present⟩
    exact ⟨version, stored, rfl, above, below, present⟩
  · rintro ⟨version, value, same, above, below, present⟩
    cases same
    exact ⟨⟨version, rfl, above, below⟩, present⟩

theorem firstVisible_run (key : Bytes) (pairs : List (Sigma Key.Value))
    (versions : ∀ pair ∈ pairs, ∃ version stored, pair = ⟨.version key version, stored⟩)
    (descending : pairs.Pairwise fun first second => second.1 < first.1) :
    ∃ value, (firstVisible st pairs).run engine = ⟨[], .ok value⟩ ∧
      ((∃ version, st.isVisible version = true ∧ ⟨.version key version, value⟩ ∈ pairs ∧
          ∀ other stored, st.isVisible other = true → ⟨.version key other, stored⟩ ∈ pairs →
            other ≤ version) ∨
        ((∀ version stored, st.isVisible version = true →
            ⟨.version key version, stored⟩ ∉ pairs) ∧ value = none)) := by
  induction pairs with
  | nil => exact ⟨none, rfl, .inr ⟨by simp, rfl⟩⟩
  | cons pair rest ih =>
    obtain ⟨version, stored, rfl⟩ := versions pair List.mem_cons_self
    obtain ⟨later, ordered⟩ := List.pairwise_cons.mp descending
    by_cases visible : st.isVisible version = true
    · refine ⟨stored, by simp only [firstVisible, visible, ↓reduceIte, ret_run], .inl
        ⟨version, visible, List.mem_cons_self, ?_⟩⟩
      intro other value _ member
      rcases List.mem_cons.mp member with same | member
      · cases same
        exact Nat.le_refl _
      · exact Nat.le_of_lt ((Key.version_lt_version key other version).mp (later _ member))
    · obtain ⟨value, ran, found⟩ := ih (fun other member =>
        versions other (List.mem_cons_of_mem _ member)) ordered
      refine ⟨value, by
        simpa only [firstVisible, visible, Bool.false_eq_true, ↓reduceIte] using ran, ?_⟩
      have skip : ∀ other value, st.isVisible other = true →
          (⟨.version key other, value⟩ : Sigma Key.Value) ∈ ⟨.version key version, stored⟩ :: rest →
          (⟨.version key other, value⟩ : Sigma Key.Value) ∈ rest := by
        intro other value otherVisible member
        rcases List.mem_cons.mp member with same | member
        · cases same
          exact (visible otherVisible).elim
        · exact member
      rcases found with ⟨chosen, chosenVisible, member, highest⟩ | ⟨absent, rfl⟩
      · exact .inl ⟨chosen, chosenVisible, List.mem_cons_of_mem _ member,
          fun other value otherVisible inside =>
            highest other value otherVisible (skip other value otherVisible inside)⟩
      · exact .inr ⟨fun other value otherVisible inside =>
          absent other value otherVisible (skip other value otherVisible inside), rfl⟩

theorem le_of_isVisible {st : TransactionState} (visible : st.isVisible version = true) :
    version ≤ st.version := by
  unfold TransactionState.isVisible at visible
  split at visible
  · cases visible
  · split at visible
    · exact Nat.le_of_lt (of_decide_eq_true visible)
    · exact of_decide_eq_true visible

/-- A read returns what the latest visible version holds and writes nothing. -/
theorem get_run (key : Bytes) :
    ∃ value, (get st key).run engine = ⟨[], .ok value⟩ ∧
      engine.Latest (fun version => st.isVisible version = true) key value := by
  have inside (version : Version) (stored : Option Bytes) :
      (⟨.version key version, stored⟩ : Sigma Key.Value) ∈
          (Store.scan engine (.version key 0) (.version key st.version)).reverse ↔
        version ≤ st.version ∧ Store.get engine (.version key version) = some stored := by
    rw [List.mem_reverse, mem_scan_version]
    constructor
    · rintro ⟨other, value, same, _, below, present⟩
      cases same
      exact ⟨below, present⟩
    · rintro ⟨below, present⟩
      exact ⟨version, stored, rfl, Nat.zero_le _, below, present⟩
  obtain ⟨value, ran, found⟩ := firstVisible_run engine st key
    (Store.scan engine (.version key 0) (.version key st.version)).reverse (by
      intro pair member
      obtain ⟨version, stored, same, _⟩ :=
        (mem_scan_version engine key _ _ pair).mp (List.mem_reverse.mp member)
      exact ⟨version, stored, same⟩)
    (List.pairwise_reverse.mpr (Store.sorted_scan engine _ _))
  refine ⟨value, by simpa only [get, bind_eq_andThen, view_andThen_run] using ran, ?_⟩
  simp only [inside] at found
  rcases found with ⟨version, visible, ⟨_, present⟩, highest⟩ | ⟨absent, rfl⟩
  · exact .inl ⟨version, visible, present, fun other stored otherVisible otherPresent =>
      highest other stored otherVisible ⟨le_of_isVisible otherVisible, otherPresent⟩⟩
  · exact .inr ⟨fun version stored visible present =>
      absent version stored visible ⟨le_of_isVisible visible, present⟩, rfl⟩

/-- The writes of one versioned write. -/
def versionWrites (st : TransactionState) (key : Bytes) (value : Option Bytes) :
    List (Store.Write Key.Value) :=
  [.set (.txnWrite st.version key) (), .set (.version key st.version) value]

/-- The highest version of a key from the conflict floor on is hidden. -/
def Obstructed (st : TransactionState) (engine : Engine) (key : Bytes) : Prop :=
  ∃ version stored, conflictFloor st ≤ version ∧ version ≤ versionMax ∧
    Store.get engine (.version key version) = some stored ∧ st.isVisible version = false ∧
    ∀ other value, conflictFloor st ≤ other → other ≤ versionMax →
      Store.get engine (.version key other) = some value → other ≤ version

/-- A read-write transaction's write is refused exactly if it is obstructed. If it is
not, every stored version from the conflict floor on is at most some visible one. -/
theorem writeVersion_cases (key : Bytes) (value : Option Bytes) (writable : st.readOnly = false) :
    ((writeVersion st key value).run engine = ⟨[], .error .serialization⟩ ∧
        Obstructed st engine key) ∨
      ((writeVersion st key value).run engine = ⟨versionWrites st key value, .ok ()⟩ ∧
        ¬ Obstructed st engine key ∧
        ∀ version stored, conflictFloor st ≤ version → version ≤ versionMax →
          Store.get engine (.version key version) = some stored →
            ∃ latest value, version ≤ latest ∧ st.isVisible latest = true ∧
              Store.get engine (.version key latest) = some value) := by
  let scanned := Store.scan engine (.version key (conflictFloor st)) (.version key versionMax)
  have unfolded : (writeVersion st key value).run engine =
      (andThen (conflicts st scanned.getLast?) fun conflict =>
        if conflict then fail .serialization
        else andThen (perform (.set (.txnWrite st.version key) ())) fun _ =>
          perform (.set (.version key st.version) value)).run engine := by
    simp only [writeVersion, writable, Bool.false_eq_true, ↓reduceIte, bind_eq_andThen,
      view_andThen_run, scanned]
  have inside (version : Version) (stored : Option Bytes) (above : conflictFloor st ≤ version)
      (below : version ≤ versionMax)
      (present : Store.get engine (.version key version) = some stored) :
      (⟨.version key version, stored⟩ : Sigma Key.Value) ∈ scanned :=
    (mem_scan_version engine key _ _ _).mpr ⟨version, stored, rfl, above, below, present⟩
  rcases last : scanned.getLast? with _ | pair
  · have absent (version : Version) (stored : Option Bytes) (above : conflictFloor st ≤ version)
        (below : version ≤ versionMax)
        (present : Store.get engine (.version key version) = some stored) : False := by
      have member := inside version stored above below present
      rw [List.getLast?_eq_none_iff.mp last] at member
      exact absurd member List.not_mem_nil
    refine .inr ⟨by rw [unfolded, last]; rfl, ?_, ?_⟩
    · rintro ⟨version, stored, above, below, present, _⟩
      exact absent version stored above below present
    · intro version stored above below present
      exact (absent version stored above below present).elim
  · have member : pair ∈ scanned := List.mem_of_getLast? last
    obtain ⟨latest, newest, rfl, above, below, present⟩ :=
      (mem_scan_version engine key _ _ pair).mp member
    have highest (other : Version) (stored : Option Bytes) (otherAbove : conflictFloor st ≤ other)
        (otherBelow : other ≤ versionMax)
        (otherPresent : Store.get engine (.version key other) = some stored) : other ≤ latest := by
      have found := inside other stored otherAbove otherBelow otherPresent
      obtain ⟨before, split⟩ : ∃ before, scanned = before ++ [⟨.version key latest, newest⟩] :=
        List.getLast?_eq_some_iff.mp last
      have ordered : scanned.Pairwise fun first second => first.1 < second.1 :=
        Store.sorted_scan engine _ _
      rw [split] at ordered found
      rcases List.mem_append.mp found with earlier | final
      · exact Nat.le_of_lt ((Key.version_lt_version key other latest).mp
          ((List.pairwise_append.mp ordered).2.2 _ earlier _ List.mem_cons_self))
      · cases List.mem_singleton.mp final
        exact Nat.le_refl _
    cases visible : st.isVisible latest with
    | true =>
      refine .inr ⟨?_, ?_, ?_⟩
      · rw [unfolded, last]
        simp only [conflicts, visible, Bool.not_true, ret_andThen, Bool.false_eq_true,
          ↓reduceIte, perform_andThen_run, perform_run, versionWrites]
      · rintro ⟨version, stored, otherAbove, otherBelow, otherPresent, hidden, top⟩
        have same : version = latest := Nat.le_antisymm
          (highest version stored otherAbove otherBelow otherPresent)
          (top latest newest above below present)
        rw [same, visible] at hidden
        cases hidden
      · intro version stored otherAbove otherBelow otherPresent
        exact ⟨latest, newest, highest version stored otherAbove otherBelow otherPresent, visible,
          present⟩
    | false =>
      refine .inl ⟨?_, latest, newest, above, below, present, visible, highest⟩
      rw [unfolded, last]
      simp only [conflicts, visible, Bool.not_false, ret_andThen, ↓reduceIte, fail_run]

/-- A read-write transaction's write either fails on a hidden version and writes
nothing, or it stores its version; then every stored version of the key from the
conflict floor on is at most some visible one. -/
theorem writeVersion_run (key : Bytes) (value : Option Bytes) (writable : st.readOnly = false) :
    ((writeVersion st key value).run engine = ⟨[], .error .serialization⟩ ∧
        ∃ version stored, st.isVisible version = false ∧
          Store.get engine (.version key version) = some stored) ∨
      ((writeVersion st key value).run engine = ⟨versionWrites st key value, .ok ()⟩ ∧
        ∀ version stored, conflictFloor st ≤ version → version ≤ versionMax →
          Store.get engine (.version key version) = some stored →
            ∃ latest value, version ≤ latest ∧ st.isVisible latest = true ∧
              Store.get engine (.version key latest) = some value) := by
  rcases writeVersion_cases engine st key value writable with
    ⟨failed, version, stored, _, _, present, hidden, _⟩ | ⟨wrote, _, latest⟩
  · exact .inl ⟨failed, version, stored, hidden, present⟩
  · exact .inr ⟨wrote, latest⟩

/-- A read-only transaction cannot write. -/
theorem writeVersion_readOnly (key : Bytes) (value : Option Bytes) (readOnly : st.readOnly = true) :
    (writeVersion st key value).run engine = ⟨[], .error .readOnly⟩ := by
  simp only [writeVersion, readOnly, ↓reduceIte, fail_run]

section Written

variable (engine : Engine) (st : TransactionState) (key : Bytes) (value : Option Bytes)

theorem get_written_self :
    Store.get (replayAll Store.replay engine (versionWrites st key value))
      (.version key st.version) = some value := by
  simp only [versionWrites, replayAll_cons, replayAll_nil, Store.get_set_self]

theorem get_written_record :
    Store.get (replayAll Store.replay engine (versionWrites st key value))
      (.txnWrite st.version key) = some () := by
  simp only [versionWrites, replayAll_cons, replayAll_nil]
  rw [Store.get_set_of_ne _ _ (by simp), Store.get_set_self]

theorem get_written_of_ne {other : Key} (record : other ≠ .txnWrite st.version key)
    (version : other ≠ .version key st.version) :
    Store.get (replayAll Store.replay engine (versionWrites st key value)) other =
      Store.get engine other := by
  apply Store.get_replayAll_of_ne
  intro write member
  rcases List.mem_cons.mp member with rfl | member
  · exact record
  · rw [List.mem_singleton.mp member]
    exact version

theorem active_written (version : Version) :
    Engine.Active (replayAll Store.replay engine (versionWrites st key value)) version ↔
      engine.Active version := by
  rw [Engine.Active, get_written_of_ne _ _ _ _ (by simp) (by simp), Engine.Active]

end Written

end Transaction

end Radb.Storage.Mvcc
