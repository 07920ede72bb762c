import Radb.Foundation.OrderedCodec
import Radb.Foundation.System
import Radb.Storage.Bitcask.Engine

/-! # The space of BitCask files

Every live key has an entry of its own in the file, whatever the file held when it was opened and
however large the keys and values are that were written since. So the entries of the live keys take
no more space than the file has, and all of it after a compaction.
-/

namespace Radb.Storage.Bitcask

open Foundation Foundation.Codec

variable {Item : Type} {start : Nat} {log key stored : Bytes}

/-- Parts of a file that do not overlap take no more space than the file. -/
theorem sum_le_of_apart [DecidableEq Item] {items : Finset Item} {start size : Item → Nat}
    {total : Nat} (inside : ∀ item ∈ items, start item + size item ≤ total)
    (apart : ∀ item ∈ items, ∀ other ∈ items, item ≠ other →
      start item + size item ≤ start other ∨ start other + size other ≤ start item) :
    ∑ item ∈ items, size item ≤ total := by
  let taken (item : Item) : Finset Nat := Finset.Ico (start item) (start item + size item)
  have separate : (items : Set Item).PairwiseDisjoint taken := by
    intro item member other otherMember different
    refine Finset.disjoint_left.mpr fun place first second => ?_
    have between := apart item member other otherMember different
    rw [Finset.mem_Ico] at first second
    omega
  have within : items.biUnion taken ⊆ Finset.range total := by
    intro place found
    obtain ⟨item, member, covered⟩ := Finset.mem_biUnion.mp found
    have bound := inside item member
    rw [Finset.mem_Ico] at covered
    exact Finset.mem_range.mpr (by omega)
  have counted := Finset.card_le_card within
  rw [Finset.card_biUnion separate, Finset.card_range] at counted
  simpa [taken] using counted

/-- An entry is appended to a file, unless its length overflows. -/
theorem writeEntry_cases (file key : Bytes) (value : Option Bytes) :
    (∃ halt, writeEntry file none key value = (.error halt, file)) ∨
      writeEntry file none key value = (.ok (file.length, 4 + 4 + key.length % 2 ^ 32 +
        (value.map List.length).getD 0 % 2 ^ 32), file ++ entry key value) := by
  unfold writeEntry
  dsimp only
  split
  · exact .inl ⟨_, rfl⟩
  · exact .inr rfl

/-- An entry of a key in a file: eight bytes of lengths, the key and the stored value. -/
def EntryAt (log key : Bytes) (start : Nat) (stored : Bytes) : Prop :=
  ∃ before lengths behind, log = before ++ (lengths ++ (key ++ stored)) ++ behind ∧
    before.length = start ∧ lengths.length = 8

theorem EntryAt.append (found : EntryAt log key start stored) (more : Bytes) :
    EntryAt (log ++ more) key start stored := by
  obtain ⟨before, lengths, behind, rfl, same, eight⟩ := found
  exact ⟨before, lengths, behind ++ more, by rw [List.append_assoc], same, eight⟩

theorem EntryAt.stop_le (found : EntryAt log key start stored) :
    start + (8 + key.length + stored.length) ≤ log.length := by
  obtain ⟨before, lengths, behind, rfl, rfl, eight⟩ := found
  simp only [List.length_append, eight]
  omega

/-- Where the entries of live keys are, and what they store. -/
abbrev Places := Bytes → Nat × Bytes

/-- The position behind the entry of a key. -/
def Places.stop (places : Places) (key : Bytes) : Nat :=
  (places key).1 + (8 + key.length + (places key).2.length)

/-- Every live key has an entry in the file, which its place in the keydir is computed from, and no
two of these entries overlap. -/
structure Laid (s : Bitcask) (places : Places) : Prop where
  entry : ∀ key pos len, s.keydir.get key = some (pos, len) →
    EntryAt s.log key (places key).1 (places key).2 ∧
      pos = (places key).1 + 8 + key.length % 2 ^ 32 ∧ len = (places key).2.length % 2 ^ 32
  apart : ∀ key other, key ≠ other → s.keydir.get key ≠ none → s.keydir.get other ≠ none →
    places.stop key ≤ (places other).1 ∨ places.stop other ≤ (places key).1

/-- The entries of the live keys are laid out somehow. -/
def Accounted (s : Bitcask) : Prop := ∃ places, Laid s places

namespace Laid

variable {s : Bitcask} {places : Places}

/-- Bytes behind the entries and the removal of a key change nothing for the others. -/
theorem delete (laid : Laid s places) (gone more : Bytes) :
    Laid ⟨s.log ++ more, s.keydir.replay (.delete gone)⟩ places := by
  have kept : ∀ key place, (s.keydir.replay (.delete gone)).get key = some place →
      s.keydir.get key = some place := fun key place found =>
    (Store.get_replayAll_eq_some s.keydir [.delete gone] found).resolve_right (by simp)
  constructor
  · intro key pos len found
    obtain ⟨entry, place⟩ := laid.entry key pos len (kept key _ found)
    exact ⟨entry.append more, place⟩
  · intro key other different first second
    obtain ⟨place, found⟩ := Option.ne_none_iff_exists'.mp first
    obtain ⟨next, foundNext⟩ := Option.ne_none_iff_exists'.mp second
    apply laid.apart key other different
    · simp [kept key place found]
    · simp [kept other next foundNext]

theorem stop_le (laid : Laid s places) (live : s.keydir.get key ≠ none) :
    places.stop key ≤ s.log.length := by
  obtain ⟨⟨pos, len⟩, found⟩ := Option.ne_none_iff_exists'.mp live
  exact (laid.entry key pos len found).1.stop_le

/-- An entry at the end of the file is apart from those before it. -/
theorem add (laid : Laid s places) {lengths : Bytes} (eight : lengths.length = 8)
    (key stored : Bytes) :
    Accounted ⟨s.log ++ (lengths ++ (key ++ stored)), s.keydir.replay (.set key
      (s.log.length + 8 + key.length % 2 ^ 32, stored.length % 2 ^ 32))⟩ := by
  have others : ∀ other, other ≠ key → (s.keydir.replay (.set key (s.log.length + 8 +
      key.length % 2 ^ 32, stored.length % 2 ^ 32))).get other = s.keydir.get other :=
    fun other different => Store.get_set_of_ne s.keydir _ different
  refine ⟨Function.update places key (s.log.length, stored), ?_, ?_⟩
  · intro other pos len found
    by_cases same : other = key
    · subst same
      rw [Store.get_set_self] at found
      cases found
      rw [Function.update_self]
      exact ⟨⟨s.log, lengths, [], (List.append_nil _).symm, rfl, eight⟩, rfl, rfl⟩
    · rw [others other same] at found
      obtain ⟨entry, place⟩ := laid.entry other pos len found
      rw [Function.update_of_ne same]
      exact ⟨entry.append _, place⟩
  · intro first second different firstLive secondLive
    unfold Places.stop
    by_cases same : first = key
    · subst same
      rw [Function.update_self, Function.update_of_ne different.symm]
      rw [others second different.symm] at secondLive
      exact .inr (laid.stop_le secondLive)
    · rw [others first same] at firstLive
      rw [Function.update_of_ne same]
      by_cases last : second = key
      · subst last
        rw [Function.update_self]
        exact .inl (laid.stop_le firstLive)
      · rw [others second last] at secondLive
        rw [Function.update_of_ne last]
        exact laid.apart first second different firstLive secondLive

end Laid

/-- The space of an entry as the keydir knows it. -/
def footprint (entry : Sigma fun _ : Bytes => Nat × Nat) : Nat := 8 + entry.1.length + entry.2.2

/-- The space of all live entries. -/
def live (s : Bitcask) : Nat := (s.keydir.toList.map footprint).sum

theorem foldl_size (keyLen valueLen : Item → Nat) (items : List Item) (start : Nat) :
    items.foldl (fun size item => size + keyLen item + valueLen item) start + 8 * items.length =
      start + (items.map fun item => 8 + keyLen item + valueLen item).sum := by
  induction items generalizing start with
  | nil => rfl
  | cons item items ih =>
    have later := ih (start + keyLen item + valueLen item)
    rw [List.foldl_cons, List.length_cons, List.map_cons, List.sum_cons]
    omega

theorem foldl_eq_live (s : Bitcask) :
    s.keydir.toList.foldl (fun size pair => size + pair.1.length + pair.2.2) 0 +
      8 * s.keydir.toList.length = s.live :=
  (foldl_size (fun entry : Sigma fun _ : Bytes => Nat × Nat => entry.1.length) _ _ 0).trans
    (Nat.zero_add _)

theorem status_of_live_le {s : Bitcask} (room : s.live ≤ s.log.length) :
    s.status = .ok
      { name := "bitcask"
        keys := s.keydir.toList.length
        size := s.keydir.toList.foldl (fun size pair => size + pair.1.length + pair.2.2) 0
        totalDiskSize := s.log.length
        liveDiskSize := s.keydir.toList.foldl (fun size pair => size + pair.1.length + pair.2.2) 0 +
          8 * s.keydir.toList.length
        garbageDiskSize := s.log.length -
          (s.keydir.toList.foldl (fun size pair => size + pair.1.length + pair.2.2) 0 +
            8 * s.keydir.toList.length) } := by
  rw [← foldl_eq_live] at room
  exact if_neg (Nat.not_lt.mpr room)

theorem accounted_empty : Accounted ⟨[], ∅⟩ := by
  refine ⟨fun _ => (0, []), ?_, ?_⟩
  · intro key pos len found
    rw [Store.get_empty] at found
    cases found
  · intro key other _ live
    exact absurd (Store.get_empty key) live

namespace Accounted

variable {s : Bitcask}

theorem live_le (accounted : Accounted s) : s.live ≤ s.log.length := by
  obtain ⟨places, laid⟩ := accounted
  have present : ∀ entry ∈ s.keydir.toList.toFinset, s.keydir.get entry.1 = some entry.2 :=
    fun entry member => (Store.mem_toList s.keydir entry).mp (List.mem_toFinset.mp member)
  have covered : ∀ entry ∈ s.keydir.toList.toFinset,
      (places entry.1).1 + footprint entry ≤ places.stop entry.1 := by
    rintro ⟨key, pos, len⟩ member
    have bound := Nat.mod_le (places key).2.length (2 ^ 32)
    rw [← (laid.entry key pos len (present _ member)).2.2] at bound
    simp only [footprint, Places.stop]
    omega
  rw [live, ← List.sum_toFinset footprint (Store.nodup_toList s.keydir)]
  refine @sum_le_of_apart _ _ _ (fun entry => (places entry.1).1) footprint _ ?_ ?_
  · intro entry member
    exact (covered entry member).trans (laid.stop_le (by simp [present entry member]))
  · intro entry member other otherMember different
    have keys : entry.1 ≠ other.1 := by
      intro same
      have stored := present entry member
      obtain ⟨key, place⟩ := entry
      obtain ⟨otherKey, next⟩ := other
      subst same
      rw [present _ otherMember] at stored
      cases stored
      exact different rfl
    exact (laid.apart _ _ keys (by simp [present entry member])
      (by simp [present other otherMember])).imp (covered entry member).trans
        (covered other otherMember).trans

/-- An entry that is read from a file and entered in the keydir. -/
theorem index (accounted : Accounted s) {bytes rest : Bytes} {write : Write}
    (found : format.decode bytes = some (write, rest)) :
    ∃ used, bytes = used ++ rest ∧ used.length = (format.encode write).length ∧
      Accounted ⟨s.log ++ used, index s.log.length s.keydir write⟩ := by
  have taken := format.length_decode found
  obtain ⟨places, laid⟩ := accounted
  obtain ⟨keyLen, valueLen, keyFour, valueFour, keySize, valueSize, rfl⟩ := decode_eq_some.mp found
  refine ⟨(keyLen ++ valueLen) ++ (write.key ++ (value write).getD []), by simp, ?_, ?_⟩
  · simp only [List.length_append] at taken ⊢
    omega
  · cases write with
    | set key stored =>
      obtain ⟨small, size⟩ := valueSize
      have bound := ofBigEndian_lt keyLen
      rw [keyFour, keySize] at bound
      have added := laid.add (show (keyLen ++ valueLen).length = 8 by simp [keyFour, valueFour])
        key stored
      rw [Nat.mod_eq_of_lt (show key.length < 2 ^ 32 from bound),
        Nat.mod_eq_of_lt (show stored.length < 2 ^ 32 by omega)] at added
      exact added
    | delete key =>
      exact ⟨places, laid.delete key _⟩

/-- Reading entries behind those of a database. -/
theorem indexAll (accounted : Accounted s) (bytes : Bytes) :
    Accounted ⟨s.log ++ bytes.take (format.encodeAll (format.recover bytes)).length,
      indexAll s.log.length s.keydir (format.recover bytes)⟩ := by
  generalize read : format.recover bytes = writes
  induction writes generalizing bytes s with
  | nil =>
    rw [RecordFormat.encodeAll_nil, List.length_nil, List.take_zero, List.append_nil]
    exact accounted
  | cons write writes ih =>
    cases found : format.decode bytes with
    | none =>
      rw [format.recover_of_none found] at read
      cases read
    | some pair =>
      obtain ⟨first, rest⟩ := pair
      rw [format.recover_of_decode found] at read
      cases read
      obtain ⟨used, rfl, size, next⟩ := accounted.index found
      have later := ih next rest rfl
      rw [RecordFormat.encodeAll_cons, List.length_append, ← size, List.take_length_add_append,
        ← List.append_assoc]
      rw [List.length_append, size] at later
      exact later

/-- Whatever a file holds, the entries that are found in it are accounted for. -/
theorem new (file : Bytes) : Accounted (new file) := by
  rw [Bitcask.new, buildKeydir_eq]
  exact accounted_empty.indexAll file

section

variable (accounted : Accounted s)

include accounted

theorem write (write : Write) : Accounted (s.write none write).2 := by
  obtain ⟨places, laid⟩ := accounted
  cases write with
  | set key stored =>
    rw [Bitcask.write, set]
    rcases writeEntry_cases s.log key (some stored) with ⟨halt, stopped⟩ | appended
    · rw [stopped]
      exact ⟨places, laid⟩
    · rw [appended]
      have added := laid.add (show (bigEndian 4 key.length ++ bigEndian 4 stored.length).length = 8
        by simp [length_bigEndian]) key stored
      simp only [Option.map_some, Option.getD_some]
      rw [Nat.add_sub_assoc (Nat.le_add_left _ _), Nat.add_sub_cancel, ← Nat.add_assoc]
      exact added
  | delete key =>
    rw [Bitcask.write, delete]
    rcases writeEntry_cases s.log key none with ⟨halt, stopped⟩ | appended
    · rw [stopped]
      exact ⟨places, laid⟩
    · rw [appended]
      exact ⟨places, laid.delete key _⟩

/-- A new log file has an entry for every one it is written from, of the same size, and no bytes
besides. -/
theorem writeLog {entries : List (Sigma fun _ : Bytes => Nat × Nat)} {written : Bitcask}
    (small : ∀ entry ∈ entries, entry.2.2 < 2 ^ 32) (ran : writeLog log entries s = .ok written) :
    Accounted written ∧ written.log.length = s.log.length + (entries.map footprint).sum ∧
      ∃ placed : List (Sigma fun _ : Bytes => Nat × Nat),
        placed.map (·.1) = entries.map (·.1) ∧ placed.map footprint = entries.map footprint ∧
          written.keydir = Program.replayAll Store.replay s.keydir
            (placed.map fun entry => .set entry.1 entry.2) := by
  induction entries generalizing s with
  | nil =>
    cases ran
    exact ⟨accounted, rfl, [], rfl, rfl, rfl⟩
  | cons entry entries ih =>
    obtain ⟨key, pos, len⟩ := entry
    rw [Bitcask.writeLog] at ran
    split at ran
    · cases ran
    next stored found =>
      have size : stored.length = len := by
        unfold readValue at found
        split at found
        next taken =>
          cases found
          exact (readExact_eq_some.mp taken).2
        next => cases found
      have exact : stored.length % 2 ^ 32 = len := by
        rw [size]
        exact Nat.mod_eq_of_lt (small _ List.mem_cons_self)
      have next := accounted.write (.set key stored)
      simp only [Bitcask.write, set] at next
      split at ran
      · cases ran
      next start total newLog appended =>
        have grown : newLog.length = s.log.length + footprint ⟨key, pos, len⟩ := by
          rcases writeEntry_cases s.log key (some stored) with ⟨halt, stopped⟩ | whole
          · cases stopped.symm.trans appended
          · cases whole.symm.trans appended
            rw [List.length_append, length_entry, ← size]
            rfl
        rw [appended] at next
        simp only [exact] at next
        obtain ⟨laid, length, placed, keys, sizes, keydir⟩ :=
          ih next (fun entry member => small entry (List.mem_cons_of_mem _ member)) ran
        refine ⟨laid, ?_, ⟨key, start + total - len, len⟩ :: placed, ?_, ?_, keydir⟩
        · rw [length, grown, List.map_cons, List.sum_cons, Nat.add_assoc]
        · rw [List.map_cons, keys, List.map_cons]
        · rw [List.map_cons, sizes, List.map_cons]
          rfl

theorem compact :
    Accounted s.compact.2 ∧
      (s.compact.1 = .ok () → s.compact.2.live = s.compact.2.log.length) := by
  have small : ∀ entry ∈ s.keydir.toList, entry.2.2 < 2 ^ 32 := by
    obtain ⟨places, laid⟩ := accounted
    rintro ⟨key, pos, len⟩ member
    rw [(laid.entry key pos len ((Store.mem_toList s.keydir _).mp member)).2.2]
    exact Nat.mod_lt _ (by decide)
  unfold Bitcask.compact
  split
  next => exact ⟨accounted, fun returned => by cases returned⟩
  next written ran =>
    obtain ⟨laid, length, placed, keys, sizes, keydir⟩ := accounted_empty.writeLog small ran
    refine ⟨laid, fun _ => le_antisymm laid.live_le ?_⟩
    -- The keys of the old keydir ascend, so no new entry replaces another.
    have sorted : placed.Pairwise fun first second => first.1 < second.1 := by
      have ascending := List.pairwise_map.mpr (Store.sorted_toList s.keydir)
      rw [← keys] at ascending
      exact List.pairwise_map.mp ascending
    have listed : placed ⊆ written.keydir.toList := by
      intro entry member
      rw [Store.mem_toList, keydir]
      exact Store.get_replayAll_sets ∅ placed sorted member
    have nodup : placed.Nodup := sorted.imp fun before same => before.ne (congrArg Sigma.fst same)
    have heavy := Store.sum_map_le_of_subset footprint nodup listed
    rw [sizes] at heavy
    rw [length, List.length_nil, Nat.zero_add]
    exact heavy

theorem respond (operation : Operation) : Accounted (s.respond operation).2 := by
  cases operation with
  | write write => exact accounted.write write
  | compact => exact accounted.compact.1
  | reopen garbage =>
    cases garbage with
    | none => exact Accounted.new s.log
    | some limits =>
      have opened := Accounted.new s.log
      simp only [Bitcask.respond, newCompact]
      split
      · exact opened
      · split
        · exact opened.compact.1
        · exact opened
  | _ => exact accounted

end

end Accounted

/-- Whatever a file holds when it is opened and whatever operations follow, the live keys have
entries of their own in the file, the status tells how much of it they take, and all of it is taken
after a compaction that returns. -/
theorem space_accounted (file : Bytes) (operations : List Operation) :
    let s := (serve respond (new file) operations).2
    Accounted s ∧
      (∃ status, s.status = .ok status ∧ status.totalDiskSize = s.log.length ∧
        status.liveDiskSize = (s.keydir.toList.map footprint).sum ∧
        status.liveDiskSize ≤ status.totalDiskSize ∧
        status.garbageDiskSize = status.totalDiskSize - status.liveDiskSize) ∧
      (s.compact.1 = .ok () → ∃ status, s.compact.2.status = .ok status ∧
        status.liveDiskSize = status.totalDiskSize) := by
  intro s
  have accounted : Accounted s := serve_invariant Accounted
    (fun _ operation accounted => accounted.respond operation) (Accounted.new file) operations
  obtain ⟨compacted, full⟩ := accounted.compact
  refine ⟨accounted, ?_, ?_⟩
  · refine ⟨_, status_of_live_le accounted.live_le, rfl, foldl_eq_live s, ?_, rfl⟩
    exact (foldl_eq_live s).trans_le accounted.live_le
  · intro returned
    exact ⟨_, status_of_live_le compacted.live_le, (foldl_eq_live _).trans (full returned)⟩

end Radb.Storage.Bitcask
