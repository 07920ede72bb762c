import Radb.Raft.Election

/-! # Quorum values

The quorum value of one number per member is reached by a majority of the members.
-/

namespace Radb.Raft

open Foundation Foundation.Consensus

variable {σ : Type} [State σ]

variable {leader : Leader}

/-- In descending order, the value at a position is the largest that more values than the position
reach. -/
theorem lt_length_filter_iff {sorted : List Nat} (descending : sorted.Pairwise (· ≥ ·))
    {position value : Nat} (found : sorted[position]? = some value) (least : Nat) :
    position < (sorted.filter (least ≤ ·)).length ↔ least ≤ value := by
  induction sorted generalizing position with
  | nil => simp at found
  | cons first rest ih =>
    obtain ⟨above, descending⟩ := List.pairwise_cons.mp descending
    by_cases reaches : least ≤ first
    · rw [List.filter_cons, if_pos (decide_eq_true reaches), List.length_cons]
      cases position with
      | zero =>
        cases found
        simp [reaches]
      | succ position =>
        rw [Nat.add_lt_add_iff_right]
        exact ih descending found
    · have small : ∀ other ∈ first :: rest, ¬ least ≤ other := by
        intro other member enough
        rcases List.mem_cons.mp member with rfl | behind
        · exact reaches enough
        · exact reaches (enough.trans (above other behind))
      have none : (first :: rest).filter (least ≤ ·) = [] :=
        List.filter_eq_nil_iff.mpr fun other member => by simpa using small other member
      rw [none, List.length_nil]
      exact iff_of_false (Nat.not_lt_zero _) (small value (List.mem_of_getElem? found))

namespace IsQuorumValue

variable {values : List Nat} {value : Nat} (quorum : IsQuorumValue values value)
include quorum

/-- The quorum value is the largest that a quorum of the values reaches. -/
theorem quorumSize_le_iff (least : Nat) :
    (quorumSize values.length.toUInt8).toNat ≤ (values.filter (least ≤ ·)).length ↔
      least ≤ value := by
  rw [← lt_length_filter_iff (List.pairwise_insertionSort _ _) quorum least,
    ((List.perm_insertionSort (· ≥ ·) values).filter _).length_eq, quorumSize_toNat]
  omega

/-- More than half of the values are at least the quorum value. -/
theorem lt_two_mul (small : values.length ≤ 255) :
    values.length < 2 * (values.filter (value ≤ ·)).length := by
  have reached := (quorum.quorumSize_le_iff value).mpr le_rfl
  rw [quorumSize_toNat, Nat.toUInt8_eq, UInt8.toNat_ofNat'] at reached
  omega

end IsQuorumValue

namespace RawNode

variable {R : Type}

/-- A quorum value is found for one value per member. -/
theorem exists_quorumValue {node : RawNode R} (small : node.peers.length < 255) {values : List Nat}
    (sized : values.length = node.peers.length + 1) (disk : Disk σ) :
    ∃ value, (node.quorumValue values).run disk = ⟨[], .ok value⟩ ∧ IsQuorumValue values value := by
  have inside : (quorumSize values.length.toUInt8).toNat - 1 <
      (values.insertionSort (· ≥ ·)).length := by
    rw [List.length_insertionSort, quorumSize_toNat, Nat.toUInt8_eq, UInt8.toNat_ofNat']
    omega
  have some : values ≠ [] := List.ne_nil_of_length_pos (by omega)
  refine ⟨_, ?_, List.getElem?_eq_getElem inside⟩
  simp only [quorumValue, Raft.quorumValue, assert, Program.require, Program.bind_eq_andThen]
  rw [if_pos (sized.trans (clusterSize_toNat small).symm), Program.ret_andThen, if_pos some,
    Program.ret_andThen, List.getElem?_eq_getElem inside]
  rfl

/-- The members of a node's cluster. -/
def members (node : RawNode R) : Finset NodeID := insert node.id node.peers.toFinset

/-- The quorums of a node's cluster meet, and the quorum value is the largest that a quorum of the
members reaches. No sum of 8 bits overflows. -/
structure Quorums (σ : Type) [State σ] (node : RawNode R) : Prop where
  size : node.clusterSize.toNat = node.members.card
  half : (quorumSize node.clusterSize).toNat = node.members.card / 2 + 1
  meet : ∀ first ⊆ node.members, ∀ second ⊆ node.members,
    (quorumSize node.clusterSize).toNat ≤ first.card →
      (quorumSize node.clusterSize).toNat ≤ second.card → ∃ member ∈ first, member ∈ second
  value : ∀ (values : List Nat) (disk : Disk σ), values.length = node.members.card →
    ∃ value, (node.quorumValue values).run disk = ⟨[], .ok value⟩ ∧
      IsGreatest {least | (quorumSize node.clusterSize).toNat ≤
        (values.filter (least ≤ ·)).length} value

/-- The quorum functions are right unless the cluster has a member for every node identifier. -/
theorem quorums_iff_length_peers_lt {node : RawNode R} (distinct : (node.id :: node.peers).Nodup) :
    node.Quorums σ ↔ node.peers.length < 255 := by
  have card : node.members.card = node.peers.length + 1 := by
    rw [members, ← List.toFinset_cons, List.toFinset_card_of_nodup distinct, List.length_cons]
  constructor
  · intro quorums
    have bound := node.clusterSize.toNat_lt
    rw [quorums.size, card] at bound
    omega
  · intro small
    have size : node.clusterSize.toNat = node.members.card := (clusterSize_toNat small).trans card.symm
    have half : (quorumSize node.clusterSize).toNat = node.members.card / 2 + 1 := by
      rw [quorumSize_toNat, size]
    refine ⟨size, half, ?_, ?_⟩
    · intro first left second right firstEnough secondEnough
      rw [half] at firstEnough secondEnough
      exact Majority.meet ⟨left, by omega⟩ ⟨right, by omega⟩
    · intro values disk sized
      obtain ⟨value, ran, quorum⟩ := exists_quorumValue small (sized.trans card) disk
      have same : values.length.toUInt8 = node.clusterSize := by
        rw [← UInt8.toNat_inj, size, ← sized, Nat.toUInt8_eq, UInt8.toNat_ofNat']
        omega
      have reaches := same ▸ quorum.quorumSize_le_iff
      exact ⟨value, ran, (reaches value).mpr le_rfl, fun least => (reaches least).mp⟩

/-- A cluster of three nodes. -/
theorem quorums_three : (⟨1, [2, 3], 0, ⟨0, 0, 0, 0⟩, ()⟩ : RawNode Unit).Quorums TestState :=
  (quorums_iff_length_peers_lt (by decide)).mpr (by decide)

/-- With all other identifiers as its peers, a node takes its cluster to be empty. -/
theorem not_quorums_of_all_peers :
    let node : RawNode Unit := ⟨0, (List.range 255).map fun peer => (peer + 1).toUInt8, 0,
      ⟨0, 0, 0, 0⟩, ()⟩
    node.clusterSize = 0 ∧ ¬ node.Quorums TestState := by
  intro node
  have empty : node.clusterSize = 0 := by
    rw [clusterSize, List.length_map, List.length_range]
    rfl
  refine ⟨empty, ?_⟩
  intro quorums
  have positive : 0 < node.members.card := Finset.card_pos.mpr ⟨_, Finset.mem_insert_self _ _⟩
  rw [← quorums.size, empty] at positive
  exact absurd positive (by decide)

end RawNode

namespace Leader

theorem mem_of_getProgress {peer : NodeID} {progress : Progress}
    (known : leader.getProgress peer = some progress) : (peer, progress) ∈ leader.progress := by
  obtain ⟨before, after, split, _⟩ := List.lookup_eq_some_iff.mp known
  rw [split]
  exact List.mem_append_right _ List.mem_cons_self

theorem getProgress_of_mem {peer : NodeID} {progress : Progress}
    (nodup : (leader.progress.map Prod.fst).Nodup) (known : (peer, progress) ∈ leader.progress) :
    leader.getProgress peer = some progress := by
  obtain ⟨before, after, split⟩ := List.append_of_mem known
  refine List.lookup_eq_some_iff.mpr ⟨before, after, split, ?_⟩
  intro other found
  rw [split, List.map_append, List.map_cons, List.nodup_append] at nodup
  simpa using (nodup.2.2 other.1 (List.mem_map_of_mem found) peer List.mem_cons_self).symm

/-- A majority of the members reaches the quorum value of what the leader knows of its
peers and of itself. -/
theorem majority_of_isQuorumValue {config : Config} {member : NodeID}
    (inside : member ∈ config.nodes) (peers : leader.progress.map Prod.fst = config.peers member)
    {measure : Progress → Nat} {own value : Nat}
    (quorum : IsQuorumValue (leader.progress.map (fun known => measure known.2) ++ [own]) value) :
    ∃ voters, Majority config.nodes voters ∧ ∀ voter ∈ voters, voter = member ∧ value ≤ own ∨
      ∃ progress, leader.getProgress voter = some progress ∧ value ≤ measure progress := by
  have nodup : (leader.progress.map Prod.fst).Nodup := peers ▸ config.nodup_peers member inside
  have length : leader.progress.length + 1 = config.nodes.card := by
    rw [config.card_eq inside, ← peers, List.length_map]
  have count := quorum.lt_two_mul (by
    rw [List.length_append, List.length_map, List.length_singleton, length]
    exact config.size)
  rw [List.filter_append, List.length_append, List.length_append, List.length_map,
    List.length_singleton, length, List.filter_map, List.length_map] at count
  generalize shape : leader.progress.filter ((fun other => decide (value ≤ other)) ∘
    fun known => measure known.2) = reached at count
  have present : ∀ voter ∈ reached.map Prod.fst, voter ∈ config.peers member ∧ ∃ progress,
      leader.getProgress voter = some progress ∧ value ≤ measure progress := by
    intro voter found
    obtain ⟨⟨id, progress⟩, kept, rfl⟩ := List.mem_map.mp found
    rw [← shape] at kept
    obtain ⟨known, above⟩ := List.mem_filter.mp kept
    exact ⟨peers ▸ List.mem_map_of_mem known, progress, getProgress_of_mem nodup known,
      of_decide_eq_true above⟩
  have card : (reached.map Prod.fst).toFinset.card = reached.length := by
    rw [List.toFinset_card_of_nodup, List.length_map]
    rw [← shape]
    exact nodup.sublist (List.filter_sublist.map _)
  have members : (reached.map Prod.fst).toFinset ⊆ config.nodes := by
    intro voter found
    exact ((config.mem_peers member inside voter).mp
      (present voter (List.mem_toFinset.mp found)).1).1
  by_cases reaches : value ≤ own
  · have outside : member ∉ (reached.map Prod.fst).toFinset := by
      intro found
      exact ((config.mem_peers member inside member).mp
        (present member (List.mem_toFinset.mp found)).1).2 rfl
    refine ⟨insert member (reached.map Prod.fst).toFinset,
      ⟨Finset.insert_subset inside members, ?_⟩, ?_⟩
    · rw [Finset.card_insert_of_notMem outside, card]
      simpa [reaches] using count
    · intro voter found
      rcases Finset.mem_insert.mp found with rfl | peer
      · exact .inl ⟨rfl, reaches⟩
      · exact .inr (present voter (List.mem_toFinset.mp peer)).2
  · refine ⟨(reached.map Prod.fst).toFinset, ⟨members, ?_⟩, ?_⟩
    · rw [card]
      simpa [reaches] using count
    · intro voter found
      exact .inr (present voter (List.mem_toFinset.mp found)).2

end Leader

end Radb.Raft
