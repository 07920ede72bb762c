import Radb.Foundation.Join
import Radb.Sql.Execution.Source

/-! # Join executors

The nested-loop join is an iterator over the left rows with a cursor into the right
ones; it yields one joined row at a time. The hash join looks every left row up in a
table of the right rows.
-/

namespace Radb.Sql

open Foundation Foundation.Script

variable {rows : NestedLoopRows} {predicate : Option Expression} {leftRow row : Row}
  {right : List Row} {fault : Fault} {outer : Bool} {field : Nat} {map : HashMap}

/-- The state of a nested-loop join. -/
structure NestedLoopRows where
  /-- The left rows after the current one. -/
  left : Rows
  /-- The current left row. -/
  leftRow : Option (Except Fault Row)
  /-- The right rows that the current left row was not compared with yet. -/
  right : List Row
  /-- All right rows. -/
  rightVec : List Row
  /-- The right side of a left row without a match. -/
  rightEmpty : Row
  /-- Whether the current left row had a match. -/
  rightHit : Bool
  predicate : Option Expression
  outer : Bool

namespace NestedLoopRows

variable {rightEmpty : Row}

/-- A join before its first row. -/
def new (left : Rows) (right : List Row) (rightWidth : Nat) (predicate : Option Expression)
    (outer : Bool) : NestedLoopRows where
  left := left.tail
  leftRow := left.head?
  right := right
  rightVec := right
  rightEmpty := List.replicate rightWidth .null
  rightHit := false
  predicate := predicate
  outer := outer

/-- What a join predicate makes of a joined row: nothing, the row, or an error. -/
def check (predicate : Option Expression) (row : Row) : Option (Except Fault Row) :=
  match predicate with
  | none => some (.ok row)
  | some predicate =>
    match predicate.evaluate row with
    | .ok (.boolean true) => some (.ok row)
    | .ok (.boolean false) => none
    | .ok .null => none
    | .ok value => some (.error (.value s!"Join predicate returned {value}, expected boolean"))
    | .error fault => some (.error fault)

/-- The next combined row that matches the predicate in the remaining right rows, and
the right rows after it. -/
def tryNextHit (predicate : Option Expression) (leftRow : Row) :
    List Row → Option (Except Fault Row) × List Row
  | [] => (none, [])
  | rightRow :: right =>
    match check predicate (leftRow ++ rightRow) with
    | some item => (some item, right)
    | none => tryNextHit predicate leftRow right

/-- How far the left side is from its end. -/
def remaining (rows : NestedLoopRows) : Nat :=
  rows.left.length + if rows.leftRow.isSome then 1 else 0

/-- The state with the next left row. -/
def advance (rows : NestedLoopRows) : NestedLoopRows :=
  { rows with left := rows.left.tail, leftRow := rows.left.head?, right := rows.rightVec }

theorem remaining_advance (present : rows.leftRow.isSome = true) :
    rows.advance.remaining + 1 = rows.remaining := by
  obtain ⟨left, leftRow⟩ := rows
  cases left <;> simp_all [remaining, advance]

/-- The next joined row, if any, and the state after it. -/
def next (rows : NestedLoopRows) : Option (Except Fault Row) × NestedLoopRows :=
  match current : rows.leftRow with
  | some (.ok leftRow) =>
    match tryNextHit rows.predicate leftRow rows.right with
    | (some (.ok row), right) => (some (.ok row), { rows with right := right, rightHit := true })
    | (some (.error fault), right) => (some (.error fault), { rows with right := right })
    | (none, _) =>
      if rows.outer && !rows.rightHit then
        (some (.ok (leftRow ++ rows.rightEmpty)), rows.advance)
      else { rows.advance with rightHit := false }.next
  | some (.error fault) => (some (.error fault), rows)
  | none => (none, rows)
termination_by rows.remaining
decreasing_by
  have less := @remaining_advance rows (by rw [current]; rfl)
  simp only [remaining, advance] at less ⊢
  omega

/-- How far a join is from its end. -/
def distance (rows : NestedLoopRows) : Nat :=
  rows.remaining * (rows.rightVec.length + 1) + rows.right.length

theorem distance_advance_lt (present : rows.leftRow.isSome = true) (hit : Bool) :
    { rows.advance with rightHit := hit }.distance < rows.distance := by
  have less := remaining_advance present
  change rows.advance.remaining * (rows.rightVec.length + 1) + rows.rightVec.length < _
  rw [distance, ← less, Nat.succ_mul]
  omega

/-- A match is found further on in the right rows. -/
theorem length_tryNextHit {rest : List Row} {item : Except Fault Row}
    (found : tryNextHit predicate leftRow right = (some item, rest)) :
    rest.length < right.length := by
  induction right with
  | nil => cases found
  | cons rightRow right ih =>
    rw [tryNextHit] at found
    split at found
    · cases found
      exact Nat.lt_succ_self _
    · exact (ih found).trans (Nat.lt_succ_self _)

/-- A join without a current left row is at its end. -/
theorem next_of_none (current : rows.leftRow = none) :
    rows.next = (none, rows) := by
  rw [next]
  split
  · next same => cases current.symm.trans same
  · next same => cases current.symm.trans same
  · rfl

/-- An error of the left side is returned again and again. -/
theorem next_of_error (current : rows.leftRow = some (.error fault)) :
    rows.next = (some (.error fault), rows) := by
  rw [next]
  split
  · next same => cases current.symm.trans same
  · next same =>
    cases current.symm.trans same
    rfl
  · next same => cases current.symm.trans same

/-- With a current left row, the next match is sought in the right rows. -/
theorem next_of_ok (current : rows.leftRow = some (.ok leftRow)) :
    rows.next =
      match tryNextHit rows.predicate leftRow rows.right with
      | (some (.ok row), right) => (some (.ok row), { rows with right := right, rightHit := true })
      | (some (.error fault), right) => (some (.error fault), { rows with right := right })
      | (none, _) =>
        if rows.outer && !rows.rightHit then
          (some (.ok (leftRow ++ rows.rightEmpty)), rows.advance)
        else { rows.advance with rightHit := false }.next := by
  rw [next]
  split
  · next same =>
    cases current.symm.trans same
    rfl
  · next same => cases current.symm.trans same
  · next same => cases current.symm.trans same

/-- A join that does not stop at an error of its left side comes closer to its end. -/
theorem distance_next {rest : NestedLoopRows} {item : Except Fault Row}
    (produced : rows.next = (some item, rest)) :
    rest.distance < rows.distance ∨ ∃ fault, item = .error fault ∧ rest.leftRow = some item := by
  induction left : rows.distance using Nat.strong_induction_on generalizing rows with
  | _ total ih =>
    cases current : rows.leftRow with
    | none =>
      rw [next_of_none current] at produced
      cases produced
    | some leftItem =>
      cases leftItem with
      | error fault =>
        rw [next_of_error current] at produced
        cases produced
        exact .inr ⟨fault, rfl, current⟩
      | ok leftRow =>
        rcases found : tryNextHit rows.predicate leftRow rows.right with ⟨_ | fault | row, right⟩
        · rw [next_of_ok current, found] at produced
          have present : rows.leftRow.isSome = true := by rw [current]; rfl
          dsimp only at produced
          split at produced
          · cases produced
            exact .inl (left ▸ distance_advance_lt present rows.rightHit)
          · have less := distance_advance_lt present false
            exact (ih _ (left ▸ less) produced rfl).imp (fun closer => left ▸ closer.trans less) id
        · rw [next_of_ok current, found] at produced
          cases produced
          exact .inl (left ▸ Nat.add_lt_add_left (length_tryNextHit found) _)
        · rw [next_of_ok current, found] at produced
          cases produced
          exact .inl (left ▸ Nat.add_lt_add_left (length_tryNextHit found) _)

/-- The items of a join, up to the first error of its left side. -/
def items (rows : NestedLoopRows) : Rows :=
  match produced : rows.next with
  | (none, _) => []
  | (some (.ok row), rest) => .ok row :: rest.items
  | (some (.error fault), rest) =>
    if rest.leftRow = some (.error fault) then [.error fault] else .error fault :: rest.items
termination_by rows.distance
decreasing_by
  · exact (distance_next produced).resolve_right fun ⟨_, wrong, _⟩ => by cases wrong
  · exact (distance_next produced).resolve_right fun ⟨_, _, stuck⟩ => absurd stuck ‹_›

section Items

variable {rows rest : NestedLoopRows}

theorem items_of_end (produced : rows.next = (none, rest)) : rows.items = [] := by
  rw [items]
  split <;> simp_all

theorem items_of_row (produced : rows.next = (some (.ok row), rest)) :
    rows.items = .ok row :: rest.items := by
  rw [items]
  split <;> simp_all

theorem items_of_fault (produced : rows.next = (some (.error fault), rest)) :
    rows.items =
      if rest.leftRow = some (.error fault) then [.error fault] else .error fault :: rest.items := by
  rw [items]
  split <;> simp_all

/-- Only the next step matters. -/
theorem items_congr (same : rows.next = rest.next) : rows.items = rest.items := by
  rw [items, items, same]

end Items

/-- The matches of a left row. -/
def hits (predicate : Option Expression) (right : List Row) (leftRow : Row) : Rows :=
  right.filterMap fun rightRow => check predicate (leftRow ++ rightRow)

/-- What a left row contributes to a join that found a match for it already, or not. -/
def block (predicate : Option Expression) (outer : Bool) (rightEmpty : Row) (hit : Bool)
    (right : List Row) (leftRow : Row) : Rows :=
  let found := hits predicate right leftRow
  found ++ if outer && !hit && !found.any Except.isOk then [.ok (leftRow ++ rightEmpty)] else []

/-- What left rows contribute, up to the first error. -/
def blocks (predicate : Option Expression) (outer : Bool) (rightEmpty : Row) (right : List Row) :
    Rows → Rows
  | [] => []
  | .error fault :: _ => [.error fault]
  | .ok leftRow :: left =>
    block predicate outer rightEmpty false right leftRow ++
      blocks predicate outer rightEmpty right left

/-- What a state of a join still yields. -/
def outlook (rows : NestedLoopRows) : Rows :=
  match rows.leftRow with
  | none => []
  | some (.error fault) => [.error fault]
  | some (.ok leftRow) =>
    block rows.predicate rows.outer rows.rightEmpty rows.rightHit rows.right leftRow ++
      blocks rows.predicate rows.outer rows.rightEmpty rows.rightVec rows.left

theorem outlook_advance (rows : NestedLoopRows) :
    { rows.advance with rightHit := false }.outlook =
      blocks rows.predicate rows.outer rows.rightEmpty rows.rightVec rows.left := by
  obtain ⟨left, leftRow⟩ := rows
  cases left with
  | nil => rfl
  | cons item left => cases item <;> rfl

/-- A match is the first one among the matches of the remaining right rows. -/
theorem hits_of_tryNextHit {rest : List Row} {found : Option (Except Fault Row)}
    (sought : tryNextHit predicate leftRow right = (found, rest)) :
    hits predicate right leftRow = found.elim [] (· :: hits predicate rest leftRow) := by
  induction right with
  | nil =>
    cases sought
    rfl
  | cons rightRow right ih =>
    rw [tryNextHit] at sought
    rw [hits, List.filterMap_cons]
    split at sought
    · next item checked =>
      cases sought
      rw [checked]
      rfl
    · next checked =>
      rw [checked]
      exact ih sought

section Block

variable {predicate : Option Expression} {outer hit : Bool} {rightEmpty leftRow : Row}
  {right rest : List Row}

/-- Without a further match, only an outer join adds a row. -/
theorem block_of_miss (missed : tryNextHit predicate leftRow right = (none, rest)) :
    block predicate outer rightEmpty hit right leftRow =
      if outer && !hit then [.ok (leftRow ++ rightEmpty)] else [] := by
  simp [block, hits_of_tryNextHit missed]

theorem block_of_hit (found : tryNextHit predicate leftRow right = (some (.ok row), rest)) :
    block predicate outer rightEmpty hit right leftRow =
      .ok row :: block predicate outer rightEmpty true rest leftRow := by
  simp [block, hits_of_tryNextHit found, Except.isOk, Except.toBool]

theorem block_of_fault (found : tryNextHit predicate leftRow right = (some (.error fault), rest)) :
    block predicate outer rightEmpty hit right leftRow =
      .error fault :: block predicate outer rightEmpty hit rest leftRow := by
  simp [block, hits_of_tryNextHit found, Except.isOk, Except.toBool]

end Block

/-- The items of a join are what its state promises. -/
theorem items_eq (rows : NestedLoopRows) : rows.items = rows.outlook := by
  -- every step either yields an item or goes on to the next left row
  induction left : rows.distance using Nat.strong_induction_on generalizing rows with
  | _ total ih =>
    subst left
    cases current : rows.leftRow with
    | none => rw [items_of_end (next_of_none current), outlook, current]
    | some leftItem =>
      cases leftItem with
      | error fault => rw [items_of_fault (next_of_error current), if_pos current, outlook, current]
      | ok leftRow =>
        have present : rows.leftRow.isSome = true := by rw [current]; rfl
        have step := next_of_ok current
        rcases found : tryNextHit rows.predicate leftRow rows.right with ⟨_ | fault | row, right⟩
        · rw [found] at step
          dsimp only at step
          have rest := ih _ (distance_advance_lt present false) _ rfl
          rw [outlook_advance] at rest
          rw [outlook, current]
          dsimp only
          rw [block_of_miss found, ← rest]
          split at step
          · next padded =>
            have unmatched : rows.rightHit = false := by simp_all
            have same : { rows.advance with rightHit := false } = rows.advance := by
              simp [advance, unmatched]
            rw [if_pos padded, items_of_row step, same]
            rfl
          · next full =>
            rw [if_neg full, items_congr step]
            rfl
        · rw [found] at step
          rw [items_of_fault step, if_neg (by simp [current]),
            ih _ (Nat.add_lt_add_left (length_tryNextHit found) _) _ rfl]
          simp only [outlook, current, block_of_fault found, List.cons_append]
        · rw [found] at step
          rw [items_of_row step, ih _ (Nat.add_lt_add_left (length_tryNextHit found) _) _ rfl]
          simp only [outlook, current, block_of_hit found, List.cons_append]

/-- A nested-loop join yields the blocks of its left rows. -/
theorem items_new (left : Rows) (right : List Row) (rightWidth : Nat)
    (predicate : Option Expression) (outer : Bool) :
    (new left right rightWidth predicate outer).items =
      blocks predicate outer (List.replicate rightWidth .null) right left := by
  rw [items_eq]
  cases left with
  | nil => rfl
  | cons item left => cases item <;> rfl

/-- Whether a join predicate lets a joined row pass. -/
def passes (predicate : Option Expression) (row : Row) : Bool :=
  match predicate with
  | none => true
  | some predicate => predicate.holds row

/-- A predicate that raises no error lets exactly the rows pass on which it is TRUE. -/
theorem check_of_settled (settled : ∀ fault, check predicate row ≠ some (.error fault)) :
    check predicate row = if passes predicate row then some (.ok row) else none := by
  cases predicate with
  | none => rfl
  | some predicate =>
    simp only [check, passes, Expression.holds] at settled ⊢
    split at settled <;> simp_all

/-- The matches of a left row on which the predicate raises no error. -/
theorem hits_of_settled (settled : ∀ rightRow ∈ right, ∀ fault,
      check predicate (leftRow ++ rightRow) ≠ some (.error fault)) :
    hits predicate right leftRow =
      ((right.filter fun rightRow => passes predicate (leftRow ++ rightRow)).map
        (leftRow ++ ·)).map .ok := by
  induction right with
  | nil => rfl
  | cons rightRow right ih =>
    have rest := ih fun other member => settled other (List.mem_cons_of_mem _ member)
    have here := check_of_settled (settled rightRow List.mem_cons_self)
    rw [hits] at rest ⊢
    rw [List.filterMap_cons, here, rest, List.filter_cons]
    split
    · next missed => simp_all
    · next found => simp_all

/-- Without errors, a left row contributes what it contributes to the join by the
predicate. -/
theorem block_of_settled (settled : ∀ rightRow ∈ right, ∀ fault,
      check predicate (leftRow ++ rightRow) ≠ some (.error fault)) :
    block predicate outer rightEmpty false right leftRow =
      (Join.scanRow (· ++ ·) (· ++ rightEmpty) outer
        (fun leftRow rightRow => passes predicate (leftRow ++ rightRow)) right leftRow).map .ok := by
  have found := hits_of_settled settled
  by_cases any : right.any (fun rightRow => passes predicate (leftRow ++ rightRow)) = true
  · have matched : (hits predicate right leftRow).any Except.isOk = true := by
      obtain ⟨rightRow, member, hit⟩ := List.any_eq_true.mp any
      rw [found, List.any_map, List.any_map]
      exact List.any_eq_true.mpr ⟨rightRow, List.mem_filter.mpr ⟨member, hit⟩, rfl⟩
    rw [Join.scanRow_of_any any, ← found]
    simp only [block, matched, Bool.not_true, Bool.and_false, Bool.false_eq_true, if_false,
      List.append_nil]
  · rw [Bool.not_eq_true] at any
    have missed : hits predicate right leftRow = [] := by
      rw [found, List.filter_eq_nil_iff.mpr fun rightRow member => by simp_all]
      rfl
    rw [Join.scanRow_of_none any]
    cases outer <;> simp [block, missed]

/-- Without errors, a nested-loop join is the join by its predicate. -/
theorem blocks_of_settled {left : List Row}
    (settled : ∀ leftRow ∈ left, ∀ rightRow ∈ right, ∀ fault,
      check predicate (leftRow ++ rightRow) ≠ some (.error fault)) :
    blocks predicate outer rightEmpty right (left.map .ok) =
      (Join.scan (· ++ ·) (· ++ rightEmpty) outer
        (fun leftRow rightRow => passes predicate (leftRow ++ rightRow)) left right).map .ok := by
  induction left with
  | nil => rfl
  | cons leftRow left ih =>
    have rest := ih fun other member => settled other (List.mem_cons_of_mem _ member)
    rw [List.map_cons, blocks, rest, block_of_settled (settled leftRow List.mem_cons_self),
      ← List.map_append]
    rfl

/-- What the calls of an iterator return, from the next one on. -/
def calls (rows : NestedLoopRows) : Nat → Option (Except Fault Row)
  | 0 => rows.next.1
  | count + 1 => rows.next.2.calls count

/-- A join that has ended stays at its end. -/
theorem next_of_end {rest : NestedLoopRows} (produced : rows.next = (none, rest)) :
    rest.next = (none, rest) := by
  induction left : rows.remaining using Nat.strong_induction_on generalizing rows with
  | _ total ih =>
    cases current : rows.leftRow with
    | none =>
      rw [next_of_none current] at produced
      cases produced
      exact next_of_none current
    | some leftItem =>
      cases leftItem with
      | error fault =>
        rw [next_of_error current] at produced
        cases produced
      | ok leftRow =>
        have less := @remaining_advance rows (by rw [current]; rfl)
        rw [next_of_ok current] at produced
        split at produced
        · cases produced
        · cases produced
        · split at produced
          · cases produced
          · refine ih rows.advance.remaining ?_ produced rfl
            omega

theorem calls_of_end {rest : NestedLoopRows} (produced : rows.next = (none, rest)) (count : Nat) :
    rows.calls count = none := by
  induction count generalizing rows with
  | zero => rw [calls, produced]
  | succ count ih =>
    rw [calls, produced]
    exact ih (next_of_end produced)

/-- A join without errors returns its rows call by call, and then nothing. -/
theorem calls_of_items {results : List Row} (yields : rows.items = results.map .ok) (count : Nat) :
    rows.calls count = results[count]?.map .ok := by
  induction results generalizing rows count with
  | nil =>
    rcases produced : rows.next with ⟨_ | fault | row, rest⟩
    · exact calls_of_end produced count
    · rw [items_of_fault produced] at yields
      split at yields <;> cases yields
    · rw [items_of_row produced] at yields
      cases yields
  | cons first results ih =>
    rcases produced : rows.next with ⟨_ | fault | row, rest⟩
    · rw [items_of_end produced] at yields
      cases yields
    · rw [items_of_fault produced] at yields
      split at yields <;> cases yields
    · rw [items_of_row produced] at yields
      obtain ⟨same, yields⟩ := List.cons.inj yields
      cases count with
      | zero => rw [calls, produced, same]; rfl
      | succ count =>
        rw [calls, produced]
        exact ih yields count

/-- **The iterator enumerates the join.** On rows whose predicate is a truth value or NULL, the
calls return the joined rows in the order of the left rows, for each of them in the order of the
right rows, and a left row without a match padded with NULLs if the join is outer. All further
calls return nothing. -/
theorem enumerates (left right : List Row) (rightWidth : Nat) (predicate : Option Expression)
    (outer : Bool) (decided : ∀ row ∈ left, ∀ partner ∈ right, ∀ condition ∈ predicate,
      ∃ value, condition.evaluate (row ++ partner) = .ok value ∧
        (value = .null ∨ ∃ truth, value = .boolean truth)) (count : Nat) :
    (new (left.map .ok) right rightWidth predicate outer).calls count =
      (left.flatMap fun row =>
        let partners := right.filter fun partner => passes predicate (row ++ partner)
        if outer && partners.isEmpty then [row ++ List.replicate rightWidth .null]
        else partners.map (row ++ ·))[count]?.map .ok := by
  have settled : ∀ row ∈ left, ∀ partner ∈ right, ∀ fault,
      check predicate (row ++ partner) ≠ some (.error fault) := by
    intro row inside partner isIn fault
    cases predicate with
    | none => simp [check]
    | some condition =>
      obtain ⟨value, evaluated, rfl | ⟨truth, rfl⟩⟩ := decided row inside partner isIn condition rfl
      · simp [check, evaluated]
      · cases truth <;> simp [check, evaluated]
  apply calls_of_items
  rw [items_new, blocks_of_settled settled, Join.scan]
  congr 2
  funext row
  have same : (right.filter fun partner => passes predicate (row ++ partner)).isEmpty =
      !right.any fun partner => passes predicate (row ++ partner) := by
    rw [Bool.eq_iff_iff]
    simp
  dsimp only
  rw [Join.scanRow, same]

/-- An outer join on `#0 = #1`. -/
theorem enumerates_outer : (new ([[.integer 1], [.integer 2]].map .ok) [[.integer 2]] 1
      (some (.equal (.field 0 none) (.field 1 none))) true).calls 1 =
    some (.ok [.integer 2, .integer 2]) := by
  rw [enumerates]
  · decide +kernel
  · intro row inside partner isIn condition isCondition
    cases List.mem_singleton.mp isIn
    cases isCondition
    simp only [List.mem_cons, List.not_mem_nil, or_false] at inside
    obtain rfl | rfl := inside
    · exact ⟨.boolean false, by decide +kernel, .inr ⟨false, rfl⟩⟩
    · exact ⟨.boolean true, by decide +kernel, .inr ⟨true, rfl⟩⟩

end NestedLoopRows

/-- Items are collected if all of them are rows. -/
theorem collect_eq_ok {items : Rows} {rows : List Row} :
    items.mapM id = .ok rows ↔ items = rows.map .ok := by
  induction items generalizing rows with
  | nil =>
    rw [List.mapM_nil]
    cases rows <;> simp [pure, Except.pure]
  | cons item items ih =>
    rw [List.mapM_cons]
    simp only [bind_eq_ok, id_eq]
    constructor
    · intro ⟨row, here, rest, collected, whole⟩
      cases whole
      rw [here, ih.mp collected]
      rfl
    · intro same
      cases rows with
      | nil => cases same
      | cons row rows =>
        obtain ⟨here, rest⟩ := List.cons.inj same
        exact ⟨row, here, rows, ih.mpr rest, rfl⟩

namespace NestedLoopJoin

def apply (predicate : Option Expression) (outer : Bool) : ResultSet → ResultSet →
    Except Fault ResultSet
  | .query columns rows, .query rightColumns rightRows => do
    let right ← rightRows.mapM id
    let joined := NestedLoopRows.new rows right rightColumns.length predicate outer
    .ok (.query (columns ++ rightColumns) joined.items)
  | _, _ => .error (.error (.internal "Unexpected result set"))

/-- A nested-loop join, which checks each row in the left source against every row in
the right source. -/
def execute (left right : Executor) (predicate : Option Expression) (outer : Bool) : Executor := do
  match ← left with
  | .query columns rows =>
    lift (apply predicate outer (.query columns rows) (← right))
  | _ => stop (.error (.internal "Unexpected result set"))

end NestedLoopJoin

/-- A hash table of rows by a value, in the order in which it is iterated. -/
abbrev HashMap := List (Value × Row)

namespace HashMap

/-- Store a row, in place of the one found under its key. Hashing NULL never returns. -/
def insert (map : HashMap) (key : Value) (row : Row) : Except Fault HashMap :=
  match key with
  | .null => .error (.panic "stack overflow")
  | key =>
    .ok (if map.any fun entry => entry.1.finds key then
      map.map fun entry => if entry.1.finds key then (entry.1, row) else entry
    else map ++ [(key, row)])

/-- Find a row. The key is hashed unless the table is empty. -/
def get (map : HashMap) (key : Value) : Except Fault (Option Row) :=
  match map, key with
  | [], _ => .ok none
  | _, .null => .error (.panic "stack overflow")
  | map, key => .ok ((map.find? fun entry => entry.1.finds key).map Prod.snd)

/-- The row found under a key. -/
def lookup (map : HashMap) (key : Value) : Option Row :=
  (map.find? fun entry => entry.1.finds key).map Prod.snd

variable {map next : HashMap} {key : Value} {row : Row}

theorem insert_eq (inserted : map.insert key row = .ok next) :
    next = if map.any fun entry => entry.1.finds key then
        map.map fun entry => if entry.1.finds key then (entry.1, row) else entry
      else map ++ [(key, row)] := by
  cases key <;> simp_all [insert]

/-- Replacing the row under a key replaces what is found under it. -/
theorem lookup_replace (map : HashMap) (key sought : Value) (row : Row) :
    lookup (map.map fun entry => if entry.1.finds key then (entry.1, row) else entry) sought =
      if key.finds sought then (map.lookup sought).map fun _ => row else map.lookup sought := by
  induction map with
  | nil => simp [lookup]
  | cons entry map ih =>
    simp only [lookup] at ih ⊢
    by_cases found : entry.1.finds sought = true
    · have same := (Value.finds_iff.mp found)
      by_cases replaced : entry.1.finds key = true
      · have equal := Value.finds_iff.mp replaced
        simp_all
      · have other : key.finds sought ≠ true := fun wrong => replaced (by
          rw [Value.finds_iff] at wrong ⊢
          exact ⟨same.1.trans wrong.1.symm, wrong.1 ▸ wrong.2⟩)
        simp_all
    · by_cases replaced : entry.1.finds key = true <;> simp_all

/-- A stored row is found under its key, and other keys are not affected. -/
theorem lookup_insert (inserted : map.insert key row = .ok next) (sought : Value) :
    next.lookup sought = if key.finds sought then some row else map.lookup sought := by
  rw [insert_eq inserted]
  split
  · next known =>
    rw [lookup_replace]
    split
    · next found =>
      obtain ⟨entry, member, hit⟩ := List.any_eq_true.mp known
      have present : (map.find? fun entry => entry.1.finds sought).isSome = true := by
        rw [List.find?_isSome]
        refine ⟨entry, member, ?_⟩
        rw [Value.finds_iff] at hit found ⊢
        exact ⟨hit.1.trans found.1, found.2⟩
      obtain ⟨hit, here⟩ := Option.isSome_iff_exists.mp present
      simp [lookup, here]
    · rfl
  · next unknown =>
    rw [lookup, List.find?_append]
    cases here : map.find? fun entry => entry.1.finds sought with
    | none => by_cases found : key.finds sought = true <;> simp [lookup, here, found]
    | some entry =>
      have listed := List.find?_some here
      have member := List.mem_of_find?_eq_some here
      have other : key.finds sought ≠ true := fun wrong => unknown (List.any_eq_true.mpr
        ⟨entry, member, by
          rw [Value.finds_iff] at listed wrong ⊢
          exact ⟨listed.1.trans wrong.1.symm, wrong.1 ▸ wrong.2⟩⟩)
      simp [lookup, here, other]

theorem insert_ne_nil (inserted : map.insert key row = .ok next) : next ≠ [] := by
  rw [insert_eq inserted]
  split
  · next known =>
    obtain ⟨entry, member, _⟩ := List.any_eq_true.mp known
    exact List.ne_nil_of_mem (List.mem_map_of_mem member)
  · simp

theorem insert_eq_ok : (∃ next, map.insert key row = .ok next) ↔ key ≠ .null := by
  cases key <;> simp [insert]

theorem get_of_ne_null (present : key ≠ .null) : map.get key = .ok (map.lookup key) := by
  unfold get
  split
  · rfl
  · exact absurd rfl present
  · rfl

theorem get_null (filled : map ≠ []) : map.get .null = .error (.panic "stack overflow") := by
  cases map with
  | nil => exact absurd rfl filled
  | cons entry map => rfl

end HashMap

namespace HashJoin

variable {rows : List Row} {empty : Row}

/-- The table of the right rows by their join field; a later row replaces an earlier one. -/
def table (field : Nat) : Rows → HashMap → Except Fault HashMap
  | [], map => .ok map
  | .error fault :: _, _ => .error fault
  | .ok row :: rows, map => do
    match row[field]? with
    | none => .error (.error (.internal s!"Right index {field} out of bounds"))
    | some key => table field rows (← map.insert key row)

/-- What a left item is joined with. -/
def item (map : HashMap) (field : Nat) (outer : Bool) (empty : Row) :
    Except Fault Row → Option (Except Fault Row)
  | .error fault => some (.error fault)
  | .ok row =>
    match row[field]? with
    | none => some (.error (.value s!"Left index {field} out of bounds"))
    | some key =>
      match map.get key with
      | .error fault => some (.error fault)
      | .ok (some hit) => some (.ok (row ++ hit))
      | .ok none => if outer then some (.ok (row ++ empty)) else none

/-- The last row with a join key. -/
def lastWith (field : Nat) (rows : List Row) (key : Value) : Option Row :=
  rows.reverse.find? fun row => (row[field]?.getD .null).finds key

theorem table_cons {next : HashMap} :
    table field ((row :: rows).map .ok) map = .ok next ↔
      ∃ key extended, row[field]? = some key ∧ map.insert key row = .ok extended ∧
        table field (rows.map .ok) extended = .ok next := by
  rw [List.map_cons, table]
  cases row[field]? with
  | none => simp
  | some key => simp [bind_eq_ok]

/-- The table of the right rows exists exactly if their join keys do and none is NULL. -/
theorem exists_table_iff :
    (∃ next, table field (rows.map .ok) map = .ok next) ↔
      ∀ row ∈ rows, ∃ key, row[field]? = some key ∧ key ≠ .null := by
  induction rows generalizing map with
  | nil => simp [table]
  | cons row rows ih =>
    simp only [table_cons, List.forall_mem_cons]
    constructor
    · intro ⟨next, key, extended, here, inserted, rest⟩
      exact ⟨⟨key, here, HashMap.insert_eq_ok.mp ⟨extended, inserted⟩⟩, ih.mp ⟨next, rest⟩⟩
    · intro ⟨⟨key, here, present⟩, others⟩
      obtain ⟨extended, inserted⟩ := HashMap.insert_eq_ok.mpr present
      obtain ⟨next, rest⟩ := ih.mpr others
      exact ⟨next, key, extended, here, inserted, rest⟩

/-- The table finds the last right row with a key. -/
theorem lookup_table {next : HashMap} (built : table field (rows.map .ok) map = .ok next)
    (key : Value) :
    next.lookup key = (lastWith field rows key).or (map.lookup key) := by
  induction rows generalizing map with
  | nil =>
    cases built
    rfl
  | cons row rows ih =>
    obtain ⟨stored, extended, here, inserted, rest⟩ := table_cons.mp built
    rw [ih rest, HashMap.lookup_insert inserted, lastWith, lastWith, List.reverse_cons,
      List.find?_append, Option.or_assoc]
    congr 1
    by_cases found : stored.finds key = true <;> simp [here, found]

/-- The table of some rows is not empty. -/
theorem table_ne_nil {next : HashMap} (built : table field ((row :: rows).map .ok) map = .ok next) :
    next ≠ [] := by
  induction rows generalizing row map with
  | nil =>
    obtain ⟨key, extended, _, inserted, rest⟩ := table_cons.mp built
    cases rest
    exact HashMap.insert_ne_nil inserted
  | cons later rows ih =>
    obtain ⟨key, extended, _, inserted, rest⟩ := table_cons.mp built
    exact ih rest

/-- What a left row with a join key that can be looked up is joined with. -/
theorem item_ok {key : Value} (here : row[field]? = some key) (hashable : map = [] ∨ key ≠ .null) :
    (item map field outer empty (.ok row)).toList =
      (Join.probeRow (· ++ ·) (· ++ empty) outer
        (fun row => map.lookup (row[field]?.getD .null)) row).map .ok := by
  have got : map.get key = .ok (map.lookup key) := by
    rcases hashable with rfl | present
    · rfl
    · exact HashMap.get_of_ne_null present
  rw [item, Join.probeRow]
  simp only [here, got, Option.getD_some]
  cases map.lookup key with
  | some hit => rfl
  | none => cases outer <;> rfl

/-- Without errors, a hash join is the join by probing its table. -/
theorem items_ok {left : List Row}
    (hashable : ∀ row ∈ left, ∃ key, row[field]? = some key ∧ (map = [] ∨ key ≠ .null)) :
    (left.map .ok).filterMap (item map field outer empty) =
      (Join.probe (· ++ ·) (· ++ empty) outer
        (fun row => map.lookup (row[field]?.getD .null)) left).map .ok := by
  rw [List.filterMap_eq_flatMap_toList, List.flatMap_map, Join.probe, List.map_flatMap]
  apply List.flatMap_congr
  intro row member
  obtain ⟨key, here, present⟩ := hashable row member
  exact item_ok here present

def apply (leftField rightField : Nat) (outer : Bool) : ResultSet → ResultSet →
    Except Fault ResultSet
  | .query columns rows, .query rightColumns rightRows => do
    let map ← table rightField rightRows []
    let empty := List.replicate rightColumns.length .null
    .ok (.query (columns ++ rightColumns) (rows.filterMap (item map leftField outer empty)))
  | _, _ => .error (.error (.internal "Unexpected result set"))

/-- A hash join, which finds the right row of each left row in a hash table. -/
def execute (left : Executor) (leftField : Nat) (right : Executor) (rightField : Nat)
    (outer : Bool) : Executor := do
  match ← left with
  | .query columns rows =>
    lift (apply leftField rightField outer (.query columns rows) (← right))
  | _ => stop (.error (.internal "Unexpected result set"))

end HashJoin

end Radb.Sql
