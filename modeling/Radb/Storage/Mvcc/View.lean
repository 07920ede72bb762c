import Radb.Storage.Mvcc.Programs

/-! # What a transaction sees

Prefix scans, and how a transaction's own writes change what it reads, what it scans
and which of its writes are refused.
-/

namespace Radb.Storage.Mvcc

open Foundation Foundation.Program

variable {among : Bytes → Prop} {engine : Engine} {st : TransactionState} {key : Bytes}

/-- The versions of the keys that start with given bytes. -/
def versionsUnder (lead : Bytes) : Key → Bool
  | .version key _ => lead.isPrefixOf key
  | _ => false

theorem Key.version_lt_iff (first second : Bytes) (older newer : Version) :
    Key.version first older < Key.version second newer ↔
      first < second ∨ first = second ∧ older < newer := by
  rw [← not_le, Key.le_iff]
  simp only [Key.fields, Prod.Lex.toLex_le_toLex, lt_irrefl, true_and, false_or, not_or, not_and,
    not_lt, not_le]
  constructor
  · rintro ⟨below, level⟩
    rcases below.lt_or_eq with strict | same
    · exact .inl strict
    · exact .inr ⟨same, level same.symm⟩
  · rintro (strict | ⟨rfl, below⟩)
    · exact ⟨strict.le, fun same => absurd same strict.ne'⟩
    · exact ⟨le_refl _, fun _ => below⟩

namespace Transaction

/-- Decode scanned versions, skipping the invisible ones. -/
def decodeVisible (st : TransactionState) :
    List (Sigma Key.Value) → Session (List (Bytes × Option Bytes))
  | [] => ret []
  | ⟨.version key version, value⟩ :: rest => do
    let later ← decodeVisible st rest
    ret (if st.isVisible version then (key, value) :: later else later)
  | _ :: _ => fail (.internal "Expected Key::Version")

/-- The live keys among visible versions: the last version of every key, unless it is
a tombstone. -/
def latestLive : List (Bytes × Option Bytes) → List (Bytes × Bytes)
  | [] => []
  | (key, value) :: rest =>
    if (rest.head?.map Prod.fst) = some key then latestLive rest
    else value.toList.map (fun live => (key, live)) ++ latestLive rest

/-- Scans keys under a given prefix. -/
def scanPrefix (st : TransactionState) (lead : Bytes) : Session (List (Bytes × Bytes)) := do
  let session ← view
  let versions ← decodeVisible st (session.scanGroup (versionsUnder lead))
  ret (latestLive versions)

/-- The visible versions among decoded ones. -/
def visibleVersions (st : TransactionState) (pairs : List (Bytes × Version × Option Bytes)) :
    List (Bytes × Option Bytes) :=
  (pairs.filter fun pair => st.isVisible pair.2.1).map fun pair => (pair.1, pair.2.2)

theorem decodeVisible_run (engine : Engine) (st : TransactionState)
    (pairs : List (Bytes × Version × Option Bytes)) :
    (decodeVisible st (pairs.map fun pair => ⟨.version pair.1 pair.2.1, pair.2.2⟩)).run engine =
      ⟨[], .ok (visibleVersions st pairs)⟩ := by
  induction pairs with
  | nil => rfl
  | cons pair rest ih =>
    simp only [List.map_cons, decodeVisible, bind_eq_andThen]
    rw [andThen_ret_of_run _ ih]
    by_cases visible : st.isVisible pair.2.1 = true <;>
      simp [visibleVersions, visible]

/-- In versions sorted by key and version, the live keys are those whose highest
version is not a tombstone. -/
theorem mem_latestLive (pairs : List (Bytes × Version × Option Bytes))
    (sorted : pairs.Pairwise fun first second =>
      first.1 < second.1 ∨ first.1 = second.1 ∧ first.2.1 < second.2.1)
    (key value : Bytes) :
    (key, value) ∈ latestLive (pairs.map fun pair => (pair.1, pair.2.2)) ↔
      ∃ version, (key, version, some value) ∈ pairs ∧
        ∀ other stored, (key, other, stored) ∈ pairs → other ≤ version := by
  induction pairs with
  | nil => simp [latestLive]
  | cons pair rest ih =>
    obtain ⟨first, stamp, stored⟩ := pair
    obtain ⟨after, sortedRest⟩ := List.pairwise_cons.mp sorted
    have ih := ih sortedRest
    have head : ((rest.map fun pair => (pair.1, pair.2.2)).head?.map Prod.fst) = some first ↔
        ∃ other ∈ rest, other.1 = first := by
      cases rest with
      | nil => simp
      | cons next later =>
        simp only [List.map_cons, List.head?_cons, Option.map_some, Option.some.injEq]
        refine ⟨fun same => ⟨next, List.mem_cons_self, same⟩, ?_⟩
        rintro ⟨other, member, same⟩
        rcases List.mem_cons.mp member with rfl | member
        · exact same
        · -- Keys do not descend, and the first and a later one are the same.
          rcases after next List.mem_cons_self with above | equal
          · rcases (List.pairwise_cons.mp sortedRest).1 other member with higher | level
            · exact absurd (above.trans higher) (same ▸ lt_irrefl _)
            · exact level.1.trans same
          · exact equal.1.symm
    simp only [List.map_cons, latestLive, head]
    by_cases again : ∃ other ∈ rest, other.1 = first
    · rw [if_pos again, ih]
      constructor
      · rintro ⟨version, member, highest⟩
        refine ⟨version, List.mem_cons_of_mem _ member, ?_⟩
        intro other value inside
        rcases List.mem_cons.mp inside with same | inside
        · cases same
          rcases after _ member with above | level
          · exact absurd above (lt_irrefl _)
          · exact level.2.le
        · exact highest other value inside
      · rintro ⟨version, member, highest⟩
        rcases List.mem_cons.mp member with same | member
        · cases same
          obtain ⟨⟨_, later, value⟩, inside, rfl⟩ := again
          rcases after _ inside with above | level
          · exact absurd above (lt_irrefl _)
          · exact absurd level.2 (Nat.not_lt.mpr
              (highest _ _ (List.mem_cons_of_mem _ inside)))
        · exact ⟨version, member, fun other value inside =>
            highest other value (List.mem_cons_of_mem _ inside)⟩
    · rw [if_neg again, List.mem_append, ih]
      constructor
      · rintro (here | ⟨version, member, highest⟩)
        · obtain ⟨live, present, same⟩ := List.mem_map.mp here
          cases same
          rw [Option.mem_toList] at present
          refine ⟨stamp, by rw [present]; exact List.mem_cons_self, ?_⟩
          intro other value inside
          rcases List.mem_cons.mp inside with same | inside
          · cases same
            exact Nat.le_refl _
          · exact (again ⟨_, inside, rfl⟩).elim
        · refine ⟨version, List.mem_cons_of_mem _ member, ?_⟩
          intro other value inside
          rcases List.mem_cons.mp inside with same | inside
          · cases same
            exact (again ⟨_, member, rfl⟩).elim
          · exact highest other value inside
      · rintro ⟨version, member, highest⟩
        rcases List.mem_cons.mp member with same | member
        · cases same
          exact .inl (List.mem_map.mpr ⟨value, by simp, rfl⟩)
        · exact .inr ⟨version, member, fun other value inside =>
            highest other value (List.mem_cons_of_mem _ inside)⟩

/-- Live keys come in strictly ascending order. -/
theorem sorted_latestLive (pairs : List (Bytes × Option Bytes))
    (sorted : pairs.Pairwise fun first second => first.1 ≤ second.1) :
    (latestLive pairs).Pairwise fun first second => first.1 < second.1 := by
  induction pairs with
  | nil => exact List.Pairwise.nil
  | cons pair rest ih =>
    obtain ⟨key, value⟩ := pair
    obtain ⟨after, sortedRest⟩ := List.pairwise_cons.mp sorted
    have kept : ∀ {list : List (Bytes × Option Bytes)} {live}, live ∈ latestLive list →
        ∃ other ∈ list, other.1 = live.1 := by
      intro list
      induction list with
      | nil => simp [latestLive]
      | cons head tail again =>
        intro live member
        simp only [latestLive] at member
        split at member
        · obtain ⟨other, inside, same⟩ := again member
          exact ⟨other, List.mem_cons_of_mem _ inside, same⟩
        · rcases List.mem_append.mp member with here | later
          · obtain ⟨found, _, rfl⟩ := List.mem_map.mp here
            exact ⟨head, List.mem_cons_self, rfl⟩
          · obtain ⟨other, inside, same⟩ := again later
            exact ⟨other, List.mem_cons_of_mem _ inside, same⟩
    simp only [latestLive]
    split
    · exact ih sortedRest
    · next last =>
      refine List.pairwise_append.mpr ⟨?_, ih sortedRest, ?_⟩
      · cases value <;> simp
      · intro first inside second member
        obtain ⟨live, _, rfl⟩ := List.mem_map.mp inside
        obtain ⟨other, present, same⟩ := kept member
        rw [← same]
        refine lt_of_le_of_ne (after other present) ?_
        intro equal
        cases rest with
        | nil => cases present
        | cons next later =>
          -- The next key lies between two equal ones.
          apply last
          simp only [List.head?_cons, Option.map_some, Option.some.injEq]
          have below := after next List.mem_cons_self
          rcases List.mem_cons.mp present with rfl | present
          · exact equal.symm
          · have above := (List.pairwise_cons.mp sortedRest).1 other present
            rw [← equal] at above
            exact le_antisymm above below

/-- Scanned versions, decoded. -/
theorem exists_versions (pairs : List (Sigma Key.Value))
    (versions : ∀ pair ∈ pairs, ∃ key version stored, pair = ⟨.version key version, stored⟩) :
    ∃ decoded : List (Bytes × Version × Option Bytes),
      pairs = decoded.map fun pair => ⟨.version pair.1 pair.2.1, pair.2.2⟩ := by
  induction pairs with
  | nil => exact ⟨[], rfl⟩
  | cons pair rest ih =>
    obtain ⟨key, version, stored, rfl⟩ := versions pair List.mem_cons_self
    obtain ⟨decoded, rfl⟩ := ih fun other member => versions other (List.mem_cons_of_mem _ member)
    exact ⟨(key, version, stored) :: decoded, rfl⟩

/-- The scanned versions of the user keys in a group, decoded, sorted, and complete. -/
theorem exists_decoded (engine : Engine) (group : Key → Bool)
    (grouped : ∀ key stored, Store.get engine key = some stored →
      (group key = true ↔ ∃ user version, key = .version user version ∧ among user)) :
    ∃ decoded : List (Bytes × Version × Option Bytes),
      Store.scanGroup engine group =
        (decoded.map fun pair => ⟨.version pair.1 pair.2.1, pair.2.2⟩) ∧
      (decoded.Pairwise fun first second =>
        first.1 < second.1 ∨ first.1 = second.1 ∧ first.2.1 < second.2.1) ∧
      ∀ key version stored, (key, version, stored) ∈ decoded ↔
        among key ∧ Store.get engine (.version key version) = some stored := by
  obtain ⟨decoded, scanned⟩ := exists_versions (Store.scanGroup engine group) (by
    rintro ⟨key, stored⟩ member
    obtain ⟨covered, present⟩ := (Store.mem_scanGroup engine _ key stored).mp member
    obtain ⟨user, version, rfl, _⟩ := (grouped key stored present).mp covered
    exact ⟨user, version, stored, rfl⟩)
  refine ⟨decoded, scanned, ?_, ?_⟩
  · have ordered := Store.sorted_scanGroup engine group
    rw [scanned, List.pairwise_map] at ordered
    exact ordered.imp fun below => (Key.version_lt_iff _ _ _ _).mp below
  · intro key version stored
    have scannedKey : (key, version, stored) ∈ decoded ↔
        (⟨.version key version, stored⟩ : Sigma Key.Value) ∈ Store.scanGroup engine group := by
      rw [scanned, List.mem_map]
      constructor
      · intro member
        exact ⟨_, member, rfl⟩
      · rintro ⟨⟨other, stamp, value⟩, member, same⟩
        cases same
        exact member
    rw [scannedKey, Store.mem_scanGroup, and_congr_left_iff]
    intro present
    rw [grouped _ stored present]
    simp

/-- The live keys among all versions of a group of user keys: in key order, those that a
read finds a value for. -/
theorem latestLive_visible (engine : Engine) (st : TransactionState)
    {decoded : List (Bytes × Version × Option Bytes)} (sorted : decoded.Pairwise fun first second =>
      first.1 < second.1 ∨ first.1 = second.1 ∧ first.2.1 < second.2.1)
    (inside : ∀ key version stored, (key, version, stored) ∈ decoded ↔
      among key ∧ Store.get engine (.version key version) = some stored) :
    ((latestLive (visibleVersions st decoded)).Pairwise fun first second =>
      first.1 < second.1) ∧
    ∀ key value, (key, value) ∈ latestLive (visibleVersions st decoded) ↔ among key ∧
      engine.Latest (fun version => st.isVisible version = true) key (some value) := by
  have visible := sorted.filter fun pair => st.isVisible pair.2.1
  refine ⟨?_, ?_⟩
  · refine sorted_latestLive _ (List.pairwise_map.mpr (visible.imp fun below => ?_))
    rcases below with above | level
    · exact above.le
    · exact level.1.le
  · intro key value
    rw [visibleVersions, mem_latestLive _ visible]
    simp only [List.mem_filter, inside]
    constructor
    · rintro ⟨version, ⟨⟨under, present⟩, seen⟩, highest⟩
      exact ⟨under, .inl ⟨version, seen, present, fun other stored otherSeen otherPresent =>
        highest other stored ⟨⟨under, otherPresent⟩, otherSeen⟩⟩⟩
    · rintro ⟨under, ⟨version, seen, present, highest⟩ | ⟨_, absent⟩⟩
      · exact ⟨version, ⟨⟨under, present⟩, seen⟩, fun other stored found =>
          highest other stored found.2 found.1.2⟩
      · cases absent

theorem versionsUnder_iff (lead : Bytes) (key : Key) :
    versionsUnder lead key = true ↔ ∃ user version, key = .version user version ∧ lead <+: user := by
  cases key with
  | version user version => simp [versionsUnder, List.isPrefixOf_iff_prefix]
  | _ => simp [versionsUnder]

/-- A scan returns, in key order, the keys with the given prefix that a read finds a
value for, and writes nothing. -/
theorem scanPrefix_run (engine : Engine) (st : TransactionState) (lead : Bytes) :
    ∃ pairs, (scanPrefix st lead).run engine = ⟨[], .ok pairs⟩ ∧
      (pairs.Pairwise fun first second => first.1 < second.1) ∧
      ∀ key value, (key, value) ∈ pairs ↔ lead <+: key ∧
        engine.Latest (fun version => st.isVisible version = true) key (some value) := by
  obtain ⟨decoded, scanned, sorted, inside⟩ := exists_decoded engine (versionsUnder lead)
    fun key _ _ => versionsUnder_iff lead key
  refine ⟨latestLive (visibleVersions st decoded), ?_, latestLive_visible engine st sorted inside⟩
  simp only [scanPrefix, bind_eq_andThen, view_andThen_run, scanned]
  rw [andThen_ret_of_run _ (decodeVisible_run engine st decoded)]

/-- Why a transaction's write of a key is refused, if it is. -/
def refusal (st : TransactionState) (engine : Engine) (key : Bytes) : Option Error :=
  match ((writeVersion st key none).run engine).result with
  | .ok _ => none
  | .error error => some error

theorem refusal_readOnly (engine : Engine) (st : TransactionState) (key : Bytes)
    (readOnly : st.readOnly = true) : refusal st engine key = some .readOnly := by
  rw [refusal, writeVersion_readOnly engine st key none readOnly]

theorem refusal_of_obstructed (writable : st.readOnly = false)
    (obstructed : Obstructed st engine key) :
    refusal st engine key = some .serialization := by
  rcases writeVersion_cases engine st key none writable with ⟨failed, _⟩ | ⟨_, free, _⟩
  · rw [refusal, failed]
  · exact absurd obstructed free

theorem refusal_of_free (writable : st.readOnly = false) (free : ¬ Obstructed st engine key) :
    refusal st engine key = none := by
  rcases writeVersion_cases engine st key none writable with ⟨_, obstructed⟩ | ⟨wrote, _, _⟩
  · exact absurd obstructed free
  · rw [refusal, wrote]

/-- What a write does is told by `refusal`, whatever value is written. -/
theorem writeVersion_run_refusal (engine : Engine) (st : TransactionState) (key : Bytes)
    (value : Option Bytes) :
    (writeVersion st key value).run engine =
      match refusal st engine key with
      | some error => ⟨[], .error error⟩
      | none => ⟨versionWrites st key value, .ok ()⟩ := by
  cases readOnly : st.readOnly with
  | true => rw [refusal_readOnly engine st key readOnly, writeVersion_readOnly _ _ _ _ readOnly]
  | false =>
    rcases writeVersion_cases engine st key value readOnly with
      ⟨failed, obstructed⟩ | ⟨wrote, free, _⟩
    · rw [failed, refusal_of_obstructed readOnly obstructed]
    · rw [wrote, refusal_of_free readOnly free]

section Own

variable {engine : Engine} {st : TransactionState} {key : Bytes}

theorem writable_of_refusal (allowed : refusal st engine key = none) : st.readOnly = false := by
  cases readOnly : st.readOnly with
  | true => rw [refusal_readOnly engine st key readOnly] at allowed; cases allowed
  | false => rfl

/-- A transaction that does not count itself as concurrent sees its own version. -/
theorem isVisible_own (writable : st.readOnly = false) (own : st.version ∉ st.active) :
    st.isVisible st.version = true := by
  simp [TransactionState.isVisible, writable, own]

/-- After a write, the transaction reads what it wrote. -/
theorem latest_written_self (writable : st.readOnly = false) (own : st.version ∉ st.active)
    (value : Option Bytes) :
    Engine.Latest (replayAll Store.replay engine (versionWrites st key value))
      (fun version => st.isVisible version = true) key value :=
  .inl ⟨st.version, isVisible_own writable own, get_written_self engine st key value,
    fun _ _ seen _ => le_of_isVisible seen⟩

/-- After a write, the transaction reads other keys as before. -/
theorem latest_written_of_ne {other : Bytes} {found : Option Bytes} (value : Option Bytes)
    (different : other ≠ key)
    (latest : engine.Latest (fun version => st.isVisible version = true) other found) :
    Engine.Latest (replayAll Store.replay engine (versionWrites st key value))
      (fun version => st.isVisible version = true) other found := by
  refine latest.congr fun version stored => ?_
  rw [get_written_of_ne _ _ _ _ (by simp) (by simp [different])]

/-- A transaction's own writes do not change which of its writes are refused. -/
theorem refusal_written (own : st.version ∉ st.active) (value : Option Bytes)
    (allowed : refusal st engine key = none) (other : Bytes) :
    refusal st (replayAll Store.replay engine (versionWrites st key value)) other =
      refusal st engine other := by
  have writable := writable_of_refusal allowed
  have free : ¬ Obstructed st engine key := fun obstructed => by
    rw [refusal_of_obstructed writable obstructed] at allowed
    cases allowed
  have others (user : Bytes) (version : Version) (different : user ≠ key ∨ version ≠ st.version) :
      Store.get (replayAll Store.replay engine (versionWrites st key value))
        (.version user version) = Store.get engine (.version user version) := by
    refine get_written_of_ne _ _ _ _ (by simp) ?_
    rw [ne_eq, Key.version.injEq]
    rintro ⟨rfl, rfl⟩
    rcases different with different | different <;> exact different rfl
  by_cases same : other = key
  · subst same
    rw [allowed, refusal_of_free writable]
    rintro ⟨version, stored, above, below, present, hidden, highest⟩
    have foreign : version ≠ st.version := by
      rintro rfl
      rw [isVisible_own writable own] at hidden
      cases hidden
    rw [others other version (.inr foreign)] at present
    refine free ⟨version, stored, above, below, present, hidden, ?_⟩
    intro rival found rivalAbove rivalBelow rivalPresent
    by_cases ours : rival = st.version
    · subst ours
      exact highest _ _ rivalAbove rivalBelow (get_written_self engine st other value)
    · rw [← others other rival (.inr ours)] at rivalPresent
      exact highest rival found rivalAbove rivalBelow rivalPresent
  · have unchanged : Obstructed st (replayAll Store.replay engine (versionWrites st key value))
        other ↔ Obstructed st engine other := by
      simp only [Obstructed, others other _ (.inl same)]
    by_cases obstructed : Obstructed st engine other
    · rw [refusal_of_obstructed writable obstructed,
        refusal_of_obstructed writable (unchanged.mpr obstructed)]
    · rw [refusal_of_free writable obstructed,
        refusal_of_free writable (fun found => obstructed (unchanged.mp found))]

end Own

end Transaction

end Radb.Storage.Mvcc
