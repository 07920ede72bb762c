import Mathlib
import Radb.Foundation.Program

/-! # Ordered key-value stores

A store keeps one value per key in key order, the value's type being fixed by
the key. It is the abstract counterpart of an ordered byte-string engine whose
keys and values are decoded: writes replace or remove one key, and scans return
the stored pairs of a key interval or of a key group in ascending key order.
-/

namespace Foundation

variable {Key : Type} [LinearOrder Key]

/-- An ordered store holding at most one value of type `Value key` per key. -/
abbrev Store (Value : Key → Type) := Std.ExtDTreeMap Key Value compare

/-- A single write: replace the value of a key, or remove the key. -/
inductive Store.Write (Value : Key → Type) where
  | set (key : Key) (value : Value key)
  | delete (key : Key)

namespace Store

variable {Value : Key → Type}

instance [∀ key, DecidableEq (Value key)] : DecidableEq (Write Value)
  | .set key value, .set other otherValue =>
    if same : key = other then
      decidable_of_iff (same ▸ value = otherValue) (by subst same; simp)
    else isFalse (by simp [same])
  | .delete key, .delete other => decidable_of_iff (key = other) (by simp)
  | .set .., .delete .. => isFalse (by simp)
  | .delete .., .set .. => isFalse (by simp)

/-- The value stored at a key. -/
def get (store : Store Value) (key : Key) : Option (Value key) := store.get? key

/-- Perform one write. -/
def replay (store : Store Value) : Write Value → Store Value
  | .set key value => store.insert key value
  | .delete key => store.erase key

/-- The stored pairs whose key satisfies `group`, in key order. -/
def scanGroup (store : Store Value) (group : Key → Bool) : List (Sigma Value) :=
  store.toList.filter fun pair => group pair.1

/-- The stored pairs between two keys, both included, in key order. -/
def scan (store : Store Value) (lower upper : Key) : List (Sigma Value) :=
  store.scanGroup fun key => decide (lower ≤ key ∧ key ≤ upper)

@[simp] theorem get_empty (key : Key) : get (∅ : Store Value) key = none :=
  Std.ExtDTreeMap.get?_empty

@[simp] theorem get_set_self (store : Store Value) (key : Key) (value : Value key) :
    (store.replay (.set key value)).get key = some value :=
  Std.ExtDTreeMap.get?_insert_self

theorem get_set_of_ne (store : Store Value) {key other : Key} (value : Value key)
    (different : other ≠ key) : (store.replay (.set key value)).get other = store.get other := by
  have unequal : compare key other ≠ .eq := fun same => different (compare_eq_iff_eq.mp same).symm
  simp only [replay, get, Std.ExtDTreeMap.get?_insert, unequal, ↓reduceDIte]

@[simp] theorem get_delete_self (store : Store Value) (key : Key) :
    (store.replay (.delete key)).get key = none :=
  Std.ExtDTreeMap.get?_erase_self

theorem get_delete_of_ne (store : Store Value) {key other : Key} (different : other ≠ key) :
    (store.replay (.delete key)).get other = store.get other := by
  have unequal : compare key other ≠ .eq := fun same => different (compare_eq_iff_eq.mp same).symm
  simp only [replay, get, Std.ExtDTreeMap.get?_erase, unequal, ↓reduceIte]

/-- The key a write touches. -/
def Write.key : Write Value → Key
  | .set key _ => key
  | .delete key => key

@[simp] theorem Write.key_set (key : Key) (value : Value key) : (Write.set key value).key = key :=
  rfl

@[simp] theorem Write.key_delete (key : Key) : (Write.delete key : Write Value).key = key := rfl

section

variable (store : Store Value)

theorem get_replay_of_ne (write : Write Value) {key : Key} (untouched : key ≠ write.key) :
    (store.replay write).get key = store.get key := by
  cases write with
  | set other value => exact store.get_set_of_ne value untouched
  | delete other => exact store.get_delete_of_ne untouched

/-- A key no write of a journal touches keeps its value. -/
theorem get_replayAll_of_ne (journal : List (Write Value)) {key : Key}
    (untouched : ∀ write ∈ journal, key ≠ write.key) :
    (Program.replayAll replay store journal).get key = store.get key := by
  induction journal generalizing store with
  | nil => rfl
  | cons write rest ih =>
    rw [Program.replayAll_cons, ih _ fun other member =>
      untouched other (List.mem_cons_of_mem _ member),
      get_replay_of_ne store write (untouched write List.mem_cons_self)]

/-- After deleting a list of keys, none of them is stored. -/
theorem get_replayAll_delete (keys : List Key) {key : Key} (member : key ∈ keys) :
    (Program.replayAll replay store (keys.map Write.delete)).get key = none := by
  induction keys generalizing store with
  | nil => exact absurd member List.not_mem_nil
  | cons first rest ih =>
    rw [List.map_cons, Program.replayAll_cons]
    by_cases later : key ∈ rest
    · exact ih _ later
    · have same : key = first := (List.mem_cons.mp member).resolve_right later
      subst same
      rw [get_replayAll_of_ne, get_delete_self]
      intro write inside
      obtain ⟨other, otherMember, rfl⟩ := List.mem_map.mp inside
      intro equal
      exact later (equal ▸ otherMember)

/-- Deleting a list of keys removes these keys only. -/
theorem get_replayAll_deletes (keys : List Key) (key : Key) :
    (Program.replayAll replay store (keys.map Write.delete)).get key =
      if key ∈ keys then none else store.get key := by
  split
  next member => exact get_replayAll_delete store keys member
  next absent =>
    apply get_replayAll_of_ne
    intro write inside same
    obtain ⟨other, member, rfl⟩ := List.mem_map.mp inside
    exact absent (same ▸ member)

end

/-- `next` is `store` without the keys satisfying `gone`. -/
def Removes (store next : Store Value) (gone : Key → Prop) : Prop :=
  ∀ key, (gone key → next.get key = none) ∧ (¬ gone key → next.get key = store.get key)

/-- What is stored after a removal was stored before and is not removed. -/
theorem Removes.get_eq_some {store next : Store Value} {gone : Key → Prop}
    (removed : store.Removes next gone) {key : Key} {value : Value key} :
    next.get key = some value ↔ store.get key = some value ∧ ¬ gone key := by
  by_cases leaves : gone key
  · simp [(removed key).1 leaves, leaves]
  · simp [(removed key).2 leaves, leaves]

/-- Deleting the stored keys among those to remove removes them all. -/
theorem removes_of_deletes (store : Store Value) (keys : List Key) {gone : Key → Prop}
    (only : ∀ key ∈ keys, gone key) (all : ∀ key, gone key → key ∉ keys → store.get key = none) :
    store.Removes (Program.replayAll replay store (keys.map Write.delete)) gone := by
  intro key
  rw [get_replayAll_deletes]
  by_cases member : key ∈ keys
  · rw [if_pos member]
    exact ⟨fun _ => rfl, fun stays => (stays (only key member)).elim⟩
  · rw [if_neg member]
    exact ⟨fun leaves => all key leaves member, fun _ => rfl⟩

/-- Two stores with the same values are the same store. -/
theorem ext_get {first second : Store Value}
    (same : ∀ key, first.get key = second.get key) : first = second :=
  Std.ExtDTreeMap.ext_get? same

/-- The chosen keys of one store together with the other keys of another. -/
def merge (chosen : Key → Bool) (first second : Store Value) : Store Value :=
  Std.ExtDTreeMap.filter (fun key _ => !chosen key) second ∪
    Std.ExtDTreeMap.filter (fun key _ => chosen key) first

theorem get_merge (chosen : Key → Bool) (first second : Store Value) (key : Key) :
    (merge chosen first second).get key =
      if chosen key then first.get key else second.get key := by
  simp only [merge, get, Std.ExtDTreeMap.get?_union, Std.ExtDTreeMap.get?_filter]
  cases chosen key <;> cases first.get? key <;> cases second.get? key <;> simp

section

variable (store : Store Value)

/-- A group scan returns exactly the stored pairs of the group. -/
theorem mem_scanGroup (group : Key → Bool) (key : Key) (value : Value key) :
    ⟨key, value⟩ ∈ store.scanGroup group ↔ group key = true ∧ store.get key = some value := by
  rw [scanGroup, List.mem_filter, Std.ExtDTreeMap.mem_toList_iff_get?_eq_some, and_comm]
  rfl

/-- An interval scan returns exactly the stored pairs of the interval. -/
theorem mem_scan (lower upper key : Key) (value : Value key) :
    ⟨key, value⟩ ∈ store.scan lower upper ↔
      lower ≤ key ∧ key ≤ upper ∧ store.get key = some value := by
  rw [scan, mem_scanGroup, decide_eq_true_eq, and_assoc]

/-- Scans return keys in strictly ascending order. -/
theorem sorted_scanGroup (group : Key → Bool) :
    (store.scanGroup group).Pairwise fun first second => first.1 < second.1 := by
  apply List.Pairwise.filter
  exact (Std.ExtDTreeMap.ordered_keys_toList (t := store)).imp fun before =>
    compare_lt_iff_lt.mp before

theorem sorted_scan (lower upper : Key) :
    (store.scan lower upper).Pairwise fun first second => first.1 < second.1 :=
  store.sorted_scanGroup _

/-! ## All pairs of a store -/

end

/-- A store whose values are those of another one under a function lists the same keys. -/
theorem toList_of_get_map {Other : Key → Type} {store : Store Value} {next : Store Other}
    (convert : ∀ key, Value key → Other key)
    (same : ∀ key, next.get key = (store.get key).map (convert key)) :
    next.toList = store.toList.map fun pair => ⟨pair.1, convert pair.1 pair.2⟩ := by
  have mapped : next = store.map convert :=
    ext_get fun key => (same key).trans Std.ExtDTreeMap.get?_map.symm
  rw [mapped, Std.ExtDTreeMap.toList_map]

section

variable (store : Store Value)

/-- The listed pairs are the stored ones. -/
theorem mem_toList (pair : Sigma Value) : pair ∈ store.toList ↔ store.get pair.1 = some pair.2 :=
  Std.ExtDTreeMap.mem_toList_iff_get?_eq_some

/-- The listed keys ascend. -/
theorem sorted_toList : store.toList.Pairwise fun first second => first.1 < second.1 :=
  (Std.ExtDTreeMap.ordered_keys_toList (t := store)).imp fun before => compare_lt_iff_lt.mp before

/-- What is stored after some writes was stored before them or is written by one of them. -/
theorem get_replayAll_eq_some (journal : List (Write Value)) {key : Key} {value : Value key}
    (found : (Program.replayAll replay store journal).get key = some value) :
    store.get key = some value ∨ .set key value ∈ journal := by
  induction journal generalizing store with
  | nil => exact .inl found
  | cons write rest ih =>
    rcases ih _ found with before | later
    · by_cases untouched : key = write.key
      · -- The key is the one written, so its value is the one written.
        cases write with
        | set other stored =>
          obtain rfl : key = other := untouched
          rw [get_set_self] at before
          cases before
          exact .inr List.mem_cons_self
        | delete other =>
          obtain rfl : key = other := untouched
          rw [get_delete_self] at before
          cases before
      · exact .inl ((get_replay_of_ne store write untouched).symm.trans before)
    · exact .inr (List.mem_cons_of_mem _ later)

/-- Setting pairs of different keys stores each of them. -/
theorem get_replayAll_sets (pairs : List (Sigma Value))
    (sorted : pairs.Pairwise fun first second => first.1 < second.1) {pair : Sigma Value}
    (member : pair ∈ pairs) :
    (Program.replayAll replay store (pairs.map fun pair => .set pair.1 pair.2)).get pair.1 =
      some pair.2 := by
  induction pairs generalizing store with
  | nil => exact absurd member List.not_mem_nil
  | cons first rest ih =>
    rw [List.map_cons, Program.replayAll_cons]
    obtain ⟨above, sorted⟩ := List.pairwise_cons.mp sorted
    rcases List.mem_cons.mp member with rfl | later
    · rw [get_replayAll_of_ne, get_set_self]
      intro write inside
      obtain ⟨other, otherMember, rfl⟩ := List.mem_map.mp inside
      exact (above other otherMember).ne
    · exact ih _ sorted later

/-- Setting all pairs of a store again gives the store. -/
theorem replayAll_toList :
    Program.replayAll replay ∅ (store.toList.map fun pair => .set pair.1 pair.2) = store := by
  apply ext_get
  intro key
  cases found : store.get key with
  | some value =>
    exact get_replayAll_sets ∅ store.toList store.sorted_toList
      ((store.mem_toList ⟨key, value⟩).mpr found)
  | none =>
    cases later : (Program.replayAll replay ∅
        (store.toList.map fun pair => Write.set pair.1 pair.2)).get key with
    | none => rfl
    | some value =>
      rcases get_replayAll_eq_some _ _ later with before | written
      · rw [get_empty] at before
        cases before
      · obtain ⟨pair, member, same⟩ := List.mem_map.mp written
        cases same
        rw [(store.mem_toList _).mp member] at found
        cases found

end

/-- A list without duplicates whose members all occur in another one is not heavier. -/
theorem sum_map_le_of_subset {Item : Type} (size : Item → Nat) {first second : List Item}
    (nodup : first.Nodup) (subset : first ⊆ second) :
    (first.map size).sum ≤ (second.map size).sum := by
  obtain ⟨middle, permuted, sublist⟩ := List.subperm_of_subset nodup subset
  rw [← (permuted.map size).sum_nat]
  exact (sublist.map size).sum_le_sum (by simp)

theorem nodup_toList (store : Store Value) : store.toList.Nodup :=
  store.sorted_toList.imp fun before same => before.ne (congrArg Sigma.fst same)

end Store

end Foundation
