import Mathlib
import Radb.Raft.Log

/-! # What the log operations do

The engine of a log stores a list of items, item `i` under entry key `i + 1`. One
specification per operation says what it returns and how it changes that list. Later
modules use these and never unfold an operation.
-/

namespace Radb.Raft.Log

open Foundation Foundation.Program

variable {index base : Nat} {items : List Item}

variable {lower : Nat} {log : Log} {item : Item}

/-- What is stored of an entry: its term and command. -/
abbrev Item := Nat × Option Bytes

/-- The item at an index; indexes start at 1. -/
def itemAt (items : List Item) : Nat → Option Item
  | 0 => none
  | index + 1 => items[index]?

/-- The term at an index, 0 if there is no item. -/
def termAt (items : List Item) (index : Nat) : Nat := ((itemAt items index).map Prod.fst).getD 0

/-- Items as entries, numbered from a first index. -/
def entriesFrom (first : Nat) : List Item → List Entry
  | [] => []
  | item :: rest => ⟨first, item.1, item.2⟩ :: entriesFrom (first + 1) rest

/-- The engine stores exactly these items. -/
def Stores (engine : Engine) (items : List Item) : Prop :=
  ∀ index, Store.get engine (.entry index) = itemAt items index

@[simp] theorem itemAt_zero (items : List Item) : itemAt items 0 = none := rfl

@[simp] theorem itemAt_succ (items : List Item) (index : Nat) :
    itemAt items (index + 1) = items[index]? := rfl

theorem itemAt_of_pos (items : List Item) (positive : 0 < index) :
    itemAt items index = items[index - 1]? := by
  obtain ⟨before, rfl⟩ := Nat.exists_eq_add_of_lt positive
  simp [Nat.add_comm]

theorem itemAt_eq_none (items : List Item) (index : Nat) :
    itemAt items index = none ↔ index = 0 ∨ items.length < index := by
  cases index with
  | zero => simp
  | succ index => simp [Nat.lt_succ_iff]

theorem itemAt_isSome (items : List Item) (index : Nat) :
    (itemAt items index).isSome ↔ 1 ≤ index ∧ index ≤ items.length := by
  cases index with
  | zero => simp
  | succ index => simp [Nat.succ_le_iff]

theorem itemAt_append_left (more : List Item) (below : index ≤ items.length) :
    itemAt (items ++ more) index = itemAt items index := by
  cases index with
  | zero => rfl
  | succ index => exact List.getElem?_append_left below

theorem itemAt_take (items : List Item) (count index : Nat) :
    itemAt (items.take count) index = if index ≤ count then itemAt items index else none := by
  cases index with
  | zero => simp
  | succ index => simp [List.getElem?_take, Nat.succ_le_iff]

@[simp] theorem length_entriesFrom (first : Nat) (items : List Item) :
    (entriesFrom first items).length = items.length := by
  induction items generalizing first with
  | nil => rfl
  | cons item rest ih => simp [entriesFrom, ih]

theorem ne_nil_of_entriesFrom {first : Nat} (some : entriesFrom first items ≠ []) :
    items ≠ [] := by
  intro empty
  rw [empty] at some
  exact some rfl

theorem entriesFrom_append (first : Nat) (items more : List Item) :
    entriesFrom first (items ++ more) =
      entriesFrom first items ++ entriesFrom (first + items.length) more := by
  induction items generalizing first with
  | nil => rfl
  | cons item rest ih =>
    simp [entriesFrom, ih, Nat.add_comm, Nat.add_left_comm]

theorem getLast?_entriesFrom_concat (first : Nat) (items : List Item) (item : Item) :
    (entriesFrom first (items ++ [item])).getLast? =
      some ⟨first + items.length, item.1, item.2⟩ := by
  rw [entriesFrom_append]
  exact List.getLast?_concat

theorem mem_entriesFrom (first : Nat) (items : List Item) (entry : Entry) :
    entry ∈ entriesFrom first items ↔
      first ≤ entry.index ∧ items[entry.index - first]? = some (entry.term, entry.command) := by
  induction items generalizing first with
  | nil => simp [entriesFrom]
  | cons item rest ih =>
    rw [entriesFrom, List.mem_cons, ih]
    constructor
    · rintro (rfl | ⟨later, found⟩)
      · simp
      · refine ⟨by omega, ?_⟩
        have shifted : entry.index - first = entry.index - (first + 1) + 1 := by omega
        rw [shifted, List.getElem?_cons_succ, found]
    · rintro ⟨later, found⟩
      rcases Nat.eq_or_lt_of_le later with same | strict
      · left
        rw [← same, Nat.sub_self, List.getElem?_cons_zero, Option.some.injEq] at found
        rw [found, same]
      · right
        refine ⟨strict, ?_⟩
        have shifted : entry.index - first = entry.index - (first + 1) + 1 := by omega
        rwa [shifted, List.getElem?_cons_succ] at found

theorem pairwise_entriesFrom (first : Nat) (items : List Item) :
    (entriesFrom first items).Pairwise fun left right => left.index < right.index := by
  induction items generalizing first with
  | nil => exact .nil
  | cons item rest ih =>
    refine List.pairwise_cons.mpr ⟨?_, ih _⟩
    intro entry member
    exact ((mem_entriesFrom _ _ _).mp member).1

/-- Lists of entries in index order are determined by their members. -/
theorem eq_of_index_pairwise {first second : List Entry}
    (left : first.Pairwise fun before after => before.index < after.index)
    (right : second.Pairwise fun before after => before.index < after.index)
    (members : ∀ entry, entry ∈ first ↔ entry ∈ second) : first = second := by
  have irreflexive : Std.Irrefl fun before after : Entry => before.index < after.index :=
    ⟨fun entry => Nat.lt_irrefl entry.index⟩
  have antisymmetric : Std.Antisymm fun before after : Entry => before.index < after.index :=
    ⟨fun before after below above => absurd below (Nat.lt_asymm above)⟩
  exact left.eq_of_mem_iff right members

/-- The entries of an index interval. -/
theorem filter_entriesFrom (items : List Item) (upper : Nat) (positive : 1 ≤ lower) :
    (entriesFrom 1 items).filter (fun entry => decide (lower ≤ entry.index ∧
      entry.index ≤ upper)) =
      entriesFrom lower ((items.drop (lower - 1)).take (upper + 1 - lower)) := by
  apply eq_of_index_pairwise ((pairwise_entriesFrom 1 items).filter _) (pairwise_entriesFrom _ _)
  intro entry
  rw [List.mem_filter, mem_entriesFrom, mem_entriesFrom, decide_eq_true_eq, List.getElem?_take,
    List.getElem?_drop]
  constructor
  · rintro ⟨⟨_, found⟩, above, below⟩
    refine ⟨above, ?_⟩
    rw [if_pos (by omega), show lower - 1 + (entry.index - lower) = entry.index - 1 by omega]
    exact found
  · rintro ⟨above, found⟩
    split at found
    · next below =>
        rw [show lower - 1 + (entry.index - lower) = entry.index - 1 by omega] at found
        exact ⟨⟨by omega, found⟩, above, by omega⟩
    · cases found

/-- The entries from an index on. -/
theorem filter_entriesFrom_unbounded (items : List Item) (positive : 1 ≤ lower) :
    (entriesFrom 1 items).filter (fun entry => decide (lower ≤ entry.index)) =
      entriesFrom lower (items.drop (lower - 1)) := by
  apply eq_of_index_pairwise ((pairwise_entriesFrom 1 items).filter _) (pairwise_entriesFrom _ _)
  intro entry
  rw [List.mem_filter, mem_entriesFrom, mem_entriesFrom, decide_eq_true_eq, List.getElem?_drop]
  constructor
  · rintro ⟨⟨_, found⟩, above⟩
    refine ⟨above, ?_⟩
    rw [show lower - 1 + (entry.index - lower) = entry.index - 1 by omega]
    exact found
  · rintro ⟨above, found⟩
    rw [show lower - 1 + (entry.index - lower) = entry.index - 1 by omega] at found
    exact ⟨⟨by omega, found⟩, above⟩

theorem decodeEntries_run (engine : Engine) (pairs : List (Sigma Key.Value))
    (grouped : ∀ pair ∈ pairs, ∃ index item, pair = ⟨.entry index, item⟩) :
    ∃ entries, (decodeEntries pairs).run engine = ⟨[], .ok entries⟩ ∧
      (∀ entry : Entry, entry ∈ entries ↔
        (⟨.entry entry.index, (entry.term, entry.command)⟩ : Sigma Key.Value) ∈ pairs) ∧
      (pairs.Pairwise (fun before after => before.1 < after.1) →
        entries.Pairwise fun before after => before.index < after.index) := by
  induction pairs with
  | nil => exact ⟨[], rfl, by simp, fun _ => .nil⟩
  | cons pair rest ih =>
    obtain ⟨index, item, rfl⟩ := grouped pair List.mem_cons_self
    obtain ⟨entries, ran, members, ordered⟩ := ih fun other member =>
      grouped other (List.mem_cons_of_mem _ member)
    refine ⟨⟨index, item.1, item.2⟩ :: entries, ?_, ?_, ?_⟩
    · simp only [decodeEntries, decodeEntry, bind_eq_andThen, ret_andThen]
      rw [andThen_of_run _ ran]
      rfl
    · intro entry
      rw [List.mem_cons, List.mem_cons, members]
      refine or_congr_left ?_
      constructor
      · rintro rfl
        rfl
      · intro same
        cases same
        rfl
    · intro sorted
      obtain ⟨later, sortedRest⟩ := List.pairwise_cons.mp sorted
      refine List.pairwise_cons.mpr ⟨?_, ordered sortedRest⟩
      intro entry member
      exact (Key.entry_lt_entry _ _).mp (later _ ((members entry).mp member))

section Reading

variable {engine : Engine} {items : List Item} (stores : Stores engine items)
include stores

/-- A scan returns the stored entries of the range in index order. -/
theorem scan_run (range : Nat → Bool) :
    (scan range).run engine =
      ⟨[], .ok ((entriesFrom 1 items).filter fun entry => range entry.index)⟩ := by
  obtain ⟨entries, ran, members, ordered⟩ := decodeEntries_run engine
    (Store.scanGroup engine (Key.inRange range)) (by
      rintro ⟨key, item⟩ member
      have covered := ((Store.mem_scanGroup engine _ key item).mp member).1
      cases key with
      | entry index => exact ⟨index, item, rfl⟩
      | _ => simp [Key.inRange] at covered)
  have same : entries = (entriesFrom 1 items).filter fun entry => range entry.index := by
    apply eq_of_index_pairwise (ordered (Store.sorted_scanGroup engine _))
      ((pairwise_entriesFrom 1 items).filter _)
    intro entry
    rw [members, Store.mem_scanGroup, List.mem_filter, mem_entriesFrom, stores, and_comm]
    refine and_congr_left fun _ => ?_
    cases entry.index with
    | zero => simp
    | succ index => simp
  rw [← same]
  simpa only [scan, bind_eq_andThen, view_andThen_run] using ran

theorem get_run (index : Nat) :
    (get index).run engine =
      ⟨[], .ok ((itemAt items index).map fun item => ⟨index, item.1, item.2⟩)⟩ := by
  simp only [get, bind_eq_andThen, view_andThen_run, ret_run, stores index]

/-- Opening a log reads its last and its committed position. -/
theorem new_run :
    new.run engine = ⟨[], .ok ⟨items.length, termAt items items.length,
      ((Store.get engine .commitIndex).getD (0, 0)).1,
      ((Store.get engine .commitIndex).getD (0, 0)).2⟩⟩ := by
  simp only [new, bind_eq_andThen, view_andThen_run]
  rw [andThen_of_run _ (scan_run stores fun _ => true), List.filter_true]
  rcases List.eq_nil_or_concat items with rfl | ⟨before, item, rfl⟩
  · rfl
  · rw [List.concat_eq_append, getLast?_entriesFrom_concat]
    simp [termAt, Nat.add_comm]

end Reading

/-- How many leading items are already stored, identified by their term. -/
def matched : List Item → List Item → Nat
  | stored :: scan, first :: rest => if stored.1 = first.1 then matched scan rest + 1 else 0
  | _, _ => 0

/-- The items after splicing new ones in behind `base` stored ones. -/
def spliced (items : List Item) (base : Nat) (new : List Item) : List Item :=
  items.take (base + matched (items.drop base) new) ++ new.drop (matched (items.drop base) new)

/-- The writes of a splice: the items not yet stored, then the removal of the rest. -/
def spliceWrites (items : List Item) (base : Nat) (new : List Item) : List Write :=
  (entriesFrom (base + 1 + matched (items.drop base) new)
    (new.drop (matched (items.drop base) new))).map
      (fun entry => .set (.entry entry.index) (entry.term, entry.command)) ++
  (List.range' (base + new.length + 1) (items.length - (base + new.length))).map
    fun index => .delete (.entry index)

theorem matched_le_right (stored new : List Item) : matched stored new ≤ new.length := by
  induction stored generalizing new with
  | nil => simp [matched]
  | cons item scan ih =>
    cases new with
    | nil => simp [matched]
    | cons first rest =>
      rw [matched, List.length_cons]
      split
      · exact Nat.succ_le_succ (ih rest)
      · exact Nat.zero_le _

theorem matched_le_left (stored new : List Item) : matched stored new ≤ stored.length := by
  induction stored generalizing new with
  | nil => simp [matched]
  | cons item scan ih =>
    cases new with
    | nil => simp [matched]
    | cons first rest =>
      rw [matched, List.length_cons]
      split
      · exact Nat.succ_le_succ (ih rest)
      · exact Nat.zero_le _

theorem matched_take (stored new : List Item) :
    matched (stored.take new.length) new = matched stored new := by
  induction stored generalizing new with
  | nil => simp
  | cons item scan ih =>
    cases new with
    | nil => simp [matched]
    | cons first rest => simp [matched, ih]

/-- The matched items have the same terms. -/
theorem matched_terms {stored new : List Item} {position : Nat}
    (below : position < matched stored new) :
    (stored[position]?).map Prod.fst = (new[position]?).map Prod.fst := by
  induction stored generalizing new position with
  | nil => simp [matched] at below
  | cons item scan ih =>
    cases new with
    | nil => simp [matched] at below
    | cons first rest =>
      rw [matched] at below
      split at below
      · next same =>
          cases position with
          | zero => simp [same]
          | succ position => exact ih (Nat.lt_of_succ_lt_succ below)
      · exact absurd below (Nat.not_lt_zero _)

/-- Whether the first of some numbered items is at or below an index. -/
theorem head?_entriesFrom_drop (first count limit : Nat) (items : List Item) :
    ((entriesFrom (first + count) (items.drop count)).head?.any fun next =>
      decide (next.index ≤ limit)) =
        decide (count < items.length ∧ first + count ≤ limit) := by
  rcases shape : items.drop count with _ | ⟨item, rest⟩
  · have short : ¬ count < items.length := Nat.not_lt.mpr (List.drop_eq_nil_iff.mp shape)
    simp [entriesFrom, short]
  · have long : count < items.length := by
      by_contra short
      rw [List.drop_eq_nil_iff.mpr (Nat.not_lt.mp short)] at shape
      cases shape
    simp [entriesFrom, long]

theorem skip_run (engine : Engine) (first : Nat) (stored new : List Item)
    (shorter : stored.length ≤ new.length) :
    (skip (entriesFrom first stored) (entriesFrom first new)).run engine =
      ⟨[], .ok (entriesFrom (first + matched stored new) (new.drop (matched stored new)))⟩ := by
  induction stored generalizing first new with
  | nil => simp [matched, entriesFrom, skip]
  | cons item scan ih =>
    cases new with
    | nil => simp at shorter
    | cons next rest =>
      simp only [entriesFrom, skip, matched]
      by_cases same : item.1 = next.1
      · simp only [same, ne_eq, not_true_eq_false, ↓reduceIte]
        rw [ih (first + 1) rest (Nat.le_of_succ_le_succ shorter), List.drop_succ_cons,
          Nat.add_right_comm, Nat.add_assoc]
      · simp [same, entriesFrom]

theorem length_spliced (within : base ≤ items.length) (new : List Item) :
    (spliced items base new).length = base + new.length := by
  have left := matched_le_left (items.drop base) new
  have right := matched_le_right (items.drop base) new
  rw [List.length_drop] at left
  rw [spliced, List.length_append, List.length_take, List.length_drop]
  omega

/-- A splice keeps the items in front of the first one it writes. -/
theorem itemAt_spliced (within : base ≤ items.length) (new : List Item)
    (kept : index ≤ base + matched (items.drop base) new) :
    itemAt (spliced items base new) index = itemAt items index := by
  have left := matched_le_left (items.drop base) new
  rw [List.length_drop] at left
  rw [spliced, itemAt_append_left _ (by rw [List.length_take]; omega), itemAt_take, if_pos kept]

/-- The spliced items have the terms of the new ones. -/
theorem termAt_spliced (within : base ≤ items.length) (new : List Item) {count : Nat}
    (positive : 1 ≤ count) :
    termAt (spliced items base new) (base + count) = termAt new count := by
  have left := matched_le_left (items.drop base) new
  rw [List.length_drop] at left
  obtain ⟨position, rfl⟩ := Nat.exists_eq_add_of_le' positive
  simp only [termAt, ← Nat.add_assoc, itemAt_succ]
  congr 1
  by_cases kept : position < matched (items.drop base) new
  · rw [← matched_terms kept, spliced, List.getElem?_append_left (by rw [List.length_take]; omega),
      List.getElem?_take, if_pos (by omega), List.getElem?_drop]
  · rw [spliced, List.getElem?_append_right (by rw [List.length_take]; omega), List.length_take,
      List.getElem?_drop]
    congr 2
    omega

theorem contiguous_entriesFrom (first : Nat) (items : List Item) :
    contiguous (entriesFrom first items) = true := by
  induction items generalizing first with
  | nil => rfl
  | cons item rest ih =>
    cases rest with
    | nil => rfl
    | cons next more =>
      have later := ih (first + 1)
      simp only [entriesFrom] at later ⊢
      simp [contiguous, later]

/-- Contiguous entries are numbered items. -/
theorem eq_entriesFrom_of_contiguous {first : Entry} {rest : List Entry}
    (consecutive : contiguous (first :: rest) = true) :
    first :: rest = entriesFrom first.index
      ((first :: rest).map fun entry => (entry.term, entry.command)) := by
  induction rest generalizing first with
  | nil => rfl
  | cons next more ih =>
    simp only [contiguous, Bool.and_eq_true, beq_iff_eq] at consecutive
    have later := ih consecutive.2
    rw [List.map_cons, entriesFrom, consecutive.1, ← later]

/-- What is stored after writing numbered items. -/
theorem get_replayAll_entries (engine : Engine) (first : Nat) (new : List Item) (index : Nat) :
    Store.get (replayAll Store.replay engine ((entriesFrom first new).map fun entry =>
        .set (.entry entry.index) (entry.term, entry.command))) (.entry index) =
      if first ≤ index ∧ index < first + new.length then new[index - first]?
      else Store.get engine (.entry index) := by
  induction new generalizing first engine with
  | nil => simp [entriesFrom, Nat.not_lt_of_le]
  | cons item rest ih =>
    rw [entriesFrom, List.map_cons, replayAll_cons, ih, List.length_cons]
    rcases Nat.lt_trichotomy index first with below | same | above
    · rw [if_neg (by omega), if_neg (by omega),
        Store.get_set_of_ne _ _ (by simp only [ne_eq, Key.entry.injEq]; omega)]
    · subst same
      rw [if_neg (by omega), if_pos (by omega), Store.get_set_self, Nat.sub_self,
        List.getElem?_cons_zero]
    · rw [Store.get_set_of_ne _ _ (by simp only [ne_eq, Key.entry.injEq]; omega),
        show index - first = index - (first + 1) + 1 by omega, List.getElem?_cons_succ]
      refine if_congr ?_ rfl rfl
      omega

section Splicing

variable {engine : Engine} {items : List Item} (stores : Stores engine items)
include stores

theorem stores_append (item : Item) :
    Stores (Store.replay engine (.set (.entry (items.length + 1)) item)) (items ++ [item]) := by
  intro index
  by_cases same : index = items.length + 1
  · subst same
    rw [Store.get_set_self, itemAt_succ]
    simp
  · rw [Store.get_set_of_ne engine _ (by simpa using same), stores index]
    cases index with
    | zero => rfl
    | succ index =>
      rw [itemAt_succ, itemAt_succ, List.getElem?_append]
      split
      · rfl
      · next above =>
          rw [List.getElem?_eq_none (by omega), List.getElem?_eq_none (by simp; omega)]

/-- The new items of a splice are stored and the old ones behind them removed. -/
theorem stores_splice (within : base ≤ items.length) (new : List Item) :
    Stores (replayAll Store.replay engine (spliceWrites items base new))
      (spliced items base new) := by
  have left := matched_le_left (items.drop base) new
  have right := matched_le_right (items.drop base) new
  rw [List.length_drop] at left
  intro index
  rw [spliceWrites, replayAll_append]
  have removals : (List.range' (base + new.length + 1) (items.length - (base + new.length))).map
      (fun index => (.delete (.entry index) : Write)) =
        ((List.range' (base + new.length + 1) (items.length - (base + new.length))).map
          Key.entry).map Store.Write.delete := by
    rw [List.map_map]
    rfl
  rw [removals]
  by_cases removed : base + new.length < index ∧ index ≤ items.length
  · rw [Store.get_replayAll_delete _ _ (List.mem_map_of_mem (by
      rw [List.mem_range'_1]
      omega)), eq_comm, itemAt_eq_none, length_spliced within]
    exact .inr removed.1
  · rw [Store.get_replayAll_of_ne _ _ (by
      intro write member same
      obtain ⟨key, inside, rfl⟩ := List.mem_map.mp member
      obtain ⟨other, range, rfl⟩ := List.mem_map.mp inside
      rw [List.mem_range'_1] at range
      simp only [Store.Write.key_delete, Key.entry.injEq] at same
      omega), get_replayAll_entries, stores index, spliced]
    cases index with
    | zero =>
      rw [if_neg (by omega)]
      rfl
    | succ index =>
      rw [itemAt_succ, itemAt_succ, List.getElem?_append, List.length_take, List.length_drop]
      by_cases kept : index < base + matched (items.drop base) new
      · rw [if_neg (by omega), if_pos (by omega), List.getElem?_take, if_pos kept]
      · by_cases fresh : index < base + new.length
        · rw [if_pos (by omega), if_neg (by omega), List.getElem?_drop, List.getElem?_drop]
          congr 1
          omega
        · rw [if_neg (by omega), if_neg (by omega), List.getElem?_eq_none (by omega),
            List.getElem?_eq_none (by rw [List.length_drop]; omega)]

/-- A splice of numbered items fails if the first one not yet stored is committed
already, and otherwise replaces everything behind `base`. -/
theorem splice_run {new : List Item} (cached : log.lastIndex = items.length)
    (within : base ≤ items.length) (some : new ≠ []) :
    (splice log (entriesFrom (base + 1) new)).run engine =
      if matched (items.drop base) new < new.length ∧
          base + 1 + matched (items.drop base) new ≤ log.commitIndex then
        ⟨[], .error (.error (.internal "Spliced entries must begin after commit index"))⟩
      else
        ⟨spliceWrites items base new, .ok ({ log with
          lastIndex := base + new.length
          lastTerm := termAt new new.length }, base + new.length)⟩ := by
  obtain ⟨before, final, rfl⟩ : ∃ before final, new = before ++ [final] :=
    (List.eq_nil_or_concat' new).resolve_left some
  have scanned : (items.drop base).take (before ++ [final]).length =
      (items.drop (base + 1 - 1)).take (base + 1 + before.length + 1 - (base + 1)) := by
    rw [List.length_append, List.length_singleton]
    congr 1
    omega
  have shorter : ((items.drop base).take (before ++ [final]).length).length ≤
      (before ++ [final]).length := List.length_take_le _ _
  have skipped := skip_run engine (base + 1) _ _ shorter
  rw [matched_take, scanned] at skipped
  have stored := scan_run stores fun index =>
    decide (base + 1 ≤ index ∧ index ≤ base + 1 + before.length)
  rw [filter_entriesFrom items (base + 1 + before.length) (Nat.le_add_left 1 base)] at stored
  have last := getLast?_entriesFrom_concat (base + 1) before final
  have consecutive := contiguous_entriesFrom (base + 1) (before ++ [final])
  have lastTerm : termAt (before ++ [final]) (before ++ [final]).length = final.1 := by
    simp [termAt]
  have total : base + 1 + before.length = base + (before ++ [final]).length := by
    rw [List.length_append, List.length_singleton]
    omega
  rcases shape : entriesFrom (base + 1) (before ++ [final]) with _ | ⟨first, rest⟩
  · rw [shape] at last
    cases last
  · have firstIndex : first.index = base + 1 := by
      cases before <;> · simp only [List.nil_append, List.cons_append, entriesFrom,
        List.cons.injEq] at shape; rw [← shape.1]
    rw [shape] at last consecutive skipped
    simp only [splice, last, firstIndex]
    rw [if_neg (by omega), if_neg (by simp [consecutive])]
    simp only [bind_eq_andThen]
    rw [andThen_of_run _ stored]
    simp only [replayAll_nil]
    rw [andThen_of_run _ skipped]
    simp only [replayAll_nil, List.nil_append, head?_entriesFrom_drop]
    split
    · next committed =>
        rw [if_pos (of_decide_eq_true committed)]
        rfl
    · next free =>
        rw [if_neg (fun committed => free (decide_eq_true committed)),
          andThen_of_run _ (each_perform_run _ _ _), andThen_of_run _ (each_perform_run _ _ _)]
        simp only [ret_run, List.append_nil, total, cached, lastTerm, spliceWrites]

/-- Committing an existing index at or after the commit index records it. -/
theorem commit_run (forward : log.commitIndex ≤ index) (found : itemAt items index = some item) :
    (commit log index).run engine = ⟨[.set .commitIndex (index, item.1)],
      .ok ({ log with commitIndex := index, commitTerm := item.1 }, index)⟩ := by
  simp only [commit, Nat.not_lt.mpr forward, ↓reduceIte, bind_eq_andThen]
  rw [andThen_of_run _ (get_run stores index), found]
  rfl

/-- Committing anything else fails. -/
theorem commit_stop (refused : index < log.commitIndex ∨ itemAt items index = none) :
    ∃ fault, (commit log index).run engine = ⟨[], .error fault⟩ := by
  by_cases regression : index < log.commitIndex
  · simp only [commit, regression, ↓reduceIte, fail_run]
    exact ⟨_, rfl⟩
  · simp only [commit, regression, ↓reduceIte, bind_eq_andThen]
    rw [andThen_of_run _ (get_run stores index), refused.resolve_left regression]
    exact ⟨_, rfl⟩

end Splicing

/-- A splice writes entries only. -/
theorem key_spliceWrites {new : List Item} {write : Write}
    (member : write ∈ spliceWrites items base new) : ∃ index, write.key = .entry index := by
  rcases List.mem_append.mp member with stored | removed
  · obtain ⟨entry, _, rfl⟩ := List.mem_map.mp stored
    exact ⟨_, rfl⟩
  · obtain ⟨index, _, rfl⟩ := List.mem_map.mp removed
    exact ⟨_, rfl⟩

theorem get_replayAll_splice (engine : Engine) (items : List Item) (base : Nat) (new : List Item)
    {key : Key} (other : ∀ index, key ≠ .entry index) :
    Store.get (replayAll Store.replay engine (spliceWrites items base new)) key =
      Store.get engine key := by
  apply Store.get_replayAll_of_ne
  intro write member
  obtain ⟨index, entry⟩ := key_spliceWrites member
  rw [entry]
  exact other index

/-- The engine stores these items, and the cached positions are the last and the
committed one. -/
structure Represents (log : Log) (engine : Engine) (items : List Item) : Prop where
  stores : Stores engine items
  lastIndex : log.lastIndex = items.length
  lastTerm : log.lastTerm = termAt items items.length
  commitIndex_le : log.commitIndex ≤ items.length
  commitTerm : log.commitTerm = termAt items log.commitIndex
  persisted : (Store.get engine .commitIndex).getD (0, 0) = (log.commitIndex, log.commitTerm)

namespace Represents

theorem empty : Represents ⟨0, 0, 0, 0⟩ ∅ [] where
  stores := by
    intro index
    cases index <;> simp
  lastIndex := rfl
  lastTerm := rfl
  commitIndex_le := Nat.le_refl 0
  commitTerm := rfl
  persisted := rfl

variable {log : Log} {engine : Engine} {items : List Item} (represents : Represents log engine items)
include represents

/-- Reopening a log yields the same positions. -/
theorem new_run : new.run engine = ⟨[], .ok log⟩ := by
  rw [Log.new_run represents.stores, represents.persisted]
  congr 3
  · exact represents.lastIndex.symm
  · exact represents.lastTerm.symm

/-- Writing another key than those of the log changes nothing. -/
theorem setTerm (term : Nat) (votedFor : Option NodeID) :
    Represents log (Store.replay engine (.set .termVote (term, votedFor))) items where
  stores index := by
    rw [Store.get_set_of_ne _ _ (by simp)]
    exact represents.stores index
  lastIndex := represents.lastIndex
  lastTerm := represents.lastTerm
  commitIndex_le := represents.commitIndex_le
  commitTerm := represents.commitTerm
  persisted := by
    rw [Store.get_set_of_ne _ _ (by simp)]
    exact represents.persisted

theorem append (item : Item) :
    Represents { log with lastIndex := log.lastIndex + 1, lastTerm := item.1 }
      (Store.replay engine (.set (.entry (log.lastIndex + 1)) item)) (items ++ [item]) where
  stores := by
    rw [represents.lastIndex]
    exact stores_append represents.stores item
  lastIndex := by simp [represents.lastIndex]
  lastTerm := by simp [termAt]
  commitIndex_le := by
    rw [List.length_append]
    exact Nat.le_add_right_of_le represents.commitIndex_le
  commitTerm := by
    change log.commitTerm = _
    rw [represents.commitTerm, termAt, termAt, itemAt_append_left _ represents.commitIndex_le]
  persisted := by
    rw [Store.get_set_of_ne _ _ (by simp)]
    exact represents.persisted

theorem commit (found : itemAt items index = some item) :
    Represents { log with commitIndex := index, commitTerm := item.1 }
      (Store.replay engine (.set .commitIndex (index, item.1))) items where
  stores other := by
    rw [Store.get_set_of_ne _ _ (by simp)]
    exact represents.stores other
  lastIndex := represents.lastIndex
  lastTerm := represents.lastTerm
  commitIndex_le := ((itemAt_isSome items index).mp (by simp [found])).2
  commitTerm := by simp [termAt, found]
  persisted := by
    rw [Store.get_set_self]
    rfl

/-- A splice that ends at or behind the commit index and keeps the committed items
leaves a well-formed log. -/
theorem splice {new : List Item} (within : base ≤ items.length) (some : new ≠ [])
    (free : ¬ (matched (items.drop base) new < new.length ∧
      base + 1 + matched (items.drop base) new ≤ log.commitIndex))
    (covers : log.commitIndex ≤ base + new.length) :
    Represents { log with lastIndex := base + new.length, lastTerm := termAt new new.length }
      (replayAll Store.replay engine (spliceWrites items base new))
      (spliced items base new) where
  stores := stores_splice represents.stores within new
  lastIndex := (length_spliced within new).symm
  lastTerm := by
    rw [length_spliced within, termAt_spliced within new (List.length_pos_iff.mpr some)]
  commitIndex_le := by
    rw [length_spliced within]
    exact covers
  commitTerm := by
    have right := matched_le_right (items.drop base) new
    change log.commitTerm = termAt _ log.commitIndex
    rw [represents.commitTerm, termAt, termAt, itemAt_spliced within new (by omega)]
  persisted := by
    rw [get_replayAll_splice _ _ _ _ (by simp)]
    exact represents.persisted

end Represents

end Radb.Raft.Log
