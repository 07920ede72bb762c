import Mathlib

/-! # Joins

The nested-loop join of two lists, and the join that probes a table with at most one
right row for each left row. An outer join keeps a left row without a partner. When the
rows of a result show which left row they come from, the two joins agree exactly if
they agree on every left row.
-/

namespace Foundation

namespace Join

variable {Left Right Row : Type} (pair : Left → Right → Row) (pad : Left → Row) (outer : Bool)

variable {find : Left → Option Right} {left : List Left}

/-- What a nested loop makes of one left row. -/
def scanRow (hit : Left → Right → Bool) (right : List Right) (row : Left) : List Row :=
  if outer && !right.any (hit row) then [pad row] else (right.filter (hit row)).map (pair row)

/-- What a probe makes of one left row. -/
def probeRow (find : Left → Option Right) (row : Left) : List Row :=
  match find row with
  | some found => [pair row found]
  | none => if outer then [pad row] else []

/-- The nested-loop join. -/
def scan (hit : Left → Right → Bool) (left : List Left) (right : List Right) : List Row :=
  left.flatMap (scanRow pair pad outer hit right)

/-- The join by probing. -/
def probe (find : Left → Option Right) (left : List Left) : List Row :=
  left.flatMap (probeRow pair pad outer find)

section Rows

variable {pair pad outer} {hit : Left → Right → Bool} {right : List Right} {row : Left}

/-- A left row with partners is joined with each of them. -/
theorem scanRow_of_any (found : right.any (hit row) = true) :
    scanRow pair pad outer hit right row = (right.filter (hit row)).map (pair row) := by
  rw [scanRow, found, Bool.not_true, Bool.and_false, if_neg Bool.false_ne_true]

/-- A left row without a partner is kept by an outer join only. -/
theorem scanRow_of_none (unfound : right.any (hit row) = false) :
    scanRow pair pad outer hit right row = if outer then [pad row] else [] := by
  have missing : right.filter (hit row) = [] := by
    rw [List.filter_eq_nil_iff]
    intro partner member found
    exact absurd (List.any_eq_true.mpr ⟨partner, member, found⟩) (by simp [unfound])
  cases outer <;> simp [scanRow, unfound, missing]

/-- Partners are all that matters of a condition. -/
theorem scanRow_congr {other : Left → Right → Bool}
    (same : ∀ partner ∈ right, hit row partner = other row partner) :
    scanRow pair pad outer hit right row = scanRow pair pad outer other right row := by
  have filtered : right.filter (hit row) = right.filter (other row) :=
    List.filter_congr same
  have found : right.any (hit row) = right.any (other row) := by
    rw [Bool.eq_iff_iff, List.any_eq_true, List.any_eq_true]
    exact exists_congr fun partner => and_congr_right fun member => by rw [same partner member]
  rw [scanRow, scanRow, filtered, found]

/-- A probe finds what the nested loop finds exactly if no left row has two partners and
each partner is found. -/
theorem scanRow_perm_probeRow_iff
    (found : ∀ partner, find row = some partner → partner ∈ right ∧ hit row partner = true)
    (visible : ∀ partner ∈ right, hit row partner = true → pad row ≠ pair row partner) :
    (scanRow pair pad outer hit right row).Perm (probeRow pair pad outer find row) ↔
      (right.filter (hit row)).length ≤ 1 ∧
        ∀ partner ∈ right, hit row partner = true → find row ≠ none := by
  have partners : ∀ partner, partner ∈ right.filter (hit row) ↔
      partner ∈ right ∧ hit row partner = true := fun partner => List.mem_filter
  by_cases any : right.any (hit row) = true
  · rw [scanRow_of_any any, probeRow]
    obtain ⟨partner, member, hits⟩ := List.any_eq_true.mp any
    match matched : right.filter (hit row) with
    | [] => exact absurd ((partners partner).mpr ⟨member, hits⟩) (by simp [matched])
    | [only] =>
      have inside : only ∈ right ∧ hit row only = true := (partners only).mp (by simp [matched])
      cases probed : find row with
      | none =>
        cases outer with
        | false => simpa using ⟨only, inside⟩
        | true => simpa [(visible only inside.1 inside.2).symm] using ⟨only, inside⟩
      | some other =>
        have same : other = only := by
          have listed := (partners other).mpr (found other probed)
          rwa [matched, List.mem_singleton] at listed
        simp [same]
    | one :: two :: rest =>
      constructor
      · intro agree
        have lengths := agree.length_eq
        cases probed : find row with
        | some other => simp [probed] at lengths
        | none => cases outer <;> simp [probed] at lengths
      · intro ⟨short, _⟩
        simp at short
  · rw [Bool.not_eq_true] at any
    have unfound : find row = none := by
      by_contra probed
      obtain ⟨partner, probed⟩ := Option.ne_none_iff_exists'.mp probed
      obtain ⟨member, hits⟩ := found partner probed
      exact absurd (List.any_eq_true.mpr ⟨partner, member, hits⟩) (by simp [any])
    have missing : ∀ partner ∈ right, hit row partner = false := by simpa using any
    rw [scanRow_of_none any, probeRow, unfound]
    simp only [List.Perm.refl, true_iff]
    constructor
    · rw [List.filter_eq_nil_iff.mpr fun partner member => by simp [missing partner member]]
      exact Nat.zero_le _
    · intro partner member hits
      exact absurd hits (by simp [missing partner member])

end Rows

section Agreement

variable {pair pad outer} [DecidableEq Left] [DecidableEq Row]

/-- A row that comes from one left row only is counted once for each of its copies. -/
theorem count_flatMap_of_origin {rows : Left → List Row} {origin : Left} {row : Row}
    (elsewhere : ∀ other ∈ left, other ≠ origin → row ∉ rows other) :
    (left.flatMap rows).count row = left.count origin * (rows origin).count row := by
  induction left with
  | nil => simp
  | cons first left ih =>
    have rest := ih fun other member => elsewhere other (List.mem_cons_of_mem _ member)
    rw [List.flatMap_cons, List.count_append, rest]
    by_cases same : first = origin
    · rw [same, List.count_cons_self, Nat.succ_mul, Nat.add_comm]
    · rw [List.count_cons_of_ne same, List.count_eq_zero_of_not_mem
        (elsewhere first List.mem_cons_self same), Nat.zero_add]

/-- Two ways to expand left rows agree as multisets exactly if they do so on every left
row, when a result row shows its left row. -/
theorem flatMap_perm_iff {first second : Left → List Row}
    (origin : ∀ one ∈ left, ∀ other ∈ left, ∀ row,
      row ∈ first one ++ second one → row ∈ first other ++ second other → one = other) :
    (left.flatMap first).Perm (left.flatMap second) ↔
      ∀ row ∈ left, (first row).Perm (second row) := by
  constructor
  · intro agree source member
    rw [List.perm_iff_count]
    intro row
    by_cases occurs : row ∈ first source ++ second source
    · have elsewhere : ∀ other ∈ left, other ≠ source → row ∉ first other ++ second other :=
        fun other inside different found =>
          different (origin source member other inside row occurs found).symm
      have counts := agree.count_eq row
      rw [count_flatMap_of_origin fun other inside different found =>
          elsewhere other inside different (List.mem_append_left _ found),
        count_flatMap_of_origin fun other inside different found =>
          elsewhere other inside different (List.mem_append_right _ found)] at counts
      exact Nat.eq_of_mul_eq_mul_left (List.count_pos_iff.mpr member) counts
    · rw [List.mem_append, not_or] at occurs
      rw [List.count_eq_zero_of_not_mem occurs.1, List.count_eq_zero_of_not_mem occurs.2]
  · intro agree
    induction left with
    | nil => exact List.Perm.refl _
    | cons first left ih =>
      rw [List.flatMap_cons, List.flatMap_cons]
      apply (agree first List.mem_cons_self).append
      apply ih
      · intro one inside other within
        exact origin one (List.mem_cons_of_mem _ inside) other (List.mem_cons_of_mem _ within)
      · exact fun row member => agree row (List.mem_cons_of_mem _ member)

/-- The probing join returns the rows of the nested-loop join exactly if no left row has
two partners and each partner is found. -/
theorem scan_perm_probe_iff {hit : Left → Right → Bool} {right : List Right}
    (found : ∀ row ∈ left, ∀ partner, find row = some partner →
      partner ∈ right ∧ hit row partner = true)
    (visible : ∀ row ∈ left, ∀ partner ∈ right, hit row partner = true →
      pad row ≠ pair row partner) (origin : ∀ one ∈ left, ∀ other ∈ left, ∀ row,
      row = pad one ∨ (∃ partner ∈ right, row = pair one partner) →
      row = pad other ∨ (∃ partner ∈ right, row = pair other partner) → one = other) :
    (scan pair pad outer hit left right).Perm (probe pair pad outer find left) ↔
      ∀ row ∈ left, (right.filter (hit row)).length ≤ 1 ∧
        ∀ partner ∈ right, hit row partner = true → find row ≠ none := by
  have from_scan : ∀ source row, row ∈ scanRow pair pad outer hit right source →
      row = pad source ∨ ∃ partner ∈ right, row = pair source partner := by
    intro source row member
    rw [scanRow] at member
    split at member
    · exact .inl (List.mem_singleton.mp member)
    · obtain ⟨partner, inside, rfl⟩ := List.mem_map.mp member
      exact .inr ⟨partner, (List.mem_filter.mp inside).1, rfl⟩
  have from_probe : ∀ source ∈ left, ∀ row, row ∈ probeRow pair pad outer find source →
      row = pad source ∨ ∃ partner ∈ right, row = pair source partner := by
    intro source inside row member
    rw [probeRow] at member
    split at member
    · next partner probed =>
      exact .inr ⟨partner, (found source inside partner probed).1, List.mem_singleton.mp member⟩
    · split at member
      · exact .inl (List.mem_singleton.mp member)
      · exact absurd member List.not_mem_nil
  rw [scan, probe, flatMap_perm_iff]
  · exact forall_congr' fun row => forall_congr' fun member =>
      scanRow_perm_probeRow_iff (found row member) (visible row member)
  · intro one inside other within row first second
    apply origin one inside other within row
    · exact (List.mem_append.mp first).elim (from_scan one row) (from_probe one inside row)
    · exact (List.mem_append.mp second).elim (from_scan other row) (from_probe other within row)

end Agreement

end Join

end Foundation
