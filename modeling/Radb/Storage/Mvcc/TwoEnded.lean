import Radb.Storage.Mvcc.Scan

/-! # Scans from both ends

Calls of `next` and `next_back` on one iterator. The back leaves the older versions of the key it
returns, and the front takes the last of them for the latest. Both ends agree on what is left
between them exactly if no key has two live versions last.
-/

namespace Radb.Storage.Mvcc

namespace ScanIterator

open Transaction

/-- The end that is called. -/
inductive End where
  | front
  | back
  deriving DecidableEq

/-- Makes calls at either end: what the front and the back have returned, each in the order of its
calls, and the iterator they leave. -/
def serve : List End → ScanIterator →
    Except Error (List (Bytes × Bytes) × List (Bytes × Bytes) × ScanIterator)
  | [], iterator => .ok ([], [], iterator)
  | .front :: calls, iterator =>
    match iterator.next with
    | (.error error, _) => .error error
    | (.ok item, rest) => (serve calls rest).map fun (front, back, last) =>
      (item.toList ++ front, back, last)
  | .back :: calls, iterator =>
    match iterator.nextBack with
    | (.error error, _) => .error error
    | (.ok item, rest) => (serve calls rest).map fun (front, back, last) =>
      (front, item.toList ++ back, last)

/-- Both ends return none. -/
def Exhausted (iterator : ScanIterator) : Prop :=
  iterator.next.1 = .ok none ∧ iterator.nextBack.1 = .ok none

/-- The last two versions of a key are live. -/
def Doubled (items : List (Except Error Versioned)) : Prop :=
  ∃ (before after : List (Except Error Versioned)) (key : Bytes) (older newer : Version)
    (first second : Bytes),
    items = before ++ .ok (key, older, some first) :: .ok (key, newer, some second) :: after ∧
      ∀ version stored, after.head? ≠ some (.ok (key, version, stored))

/-- The last two versions of no key are live, given the key behind the versions. -/
def Clear (items : List Versioned) (last : Option Bytes) : Prop :=
  ∀ (before after : List Versioned) (key : Bytes) (older newer : Version) (first second : Bytes),
    items = before ++ (key, older, some first) :: (key, newer, some second) :: after →
      (after.head?.map Prod.fst).or last = some key

/-- The last version is not a live one of the key behind it. -/
def Coherent (items : List Versioned) (last : Option Bytes) : Prop :=
  ∀ item ∈ items.getLast?, last = some item.1 → item.2.2 = none

theorem liveBefore_of_coherent {items : List Versioned} {last : Option Bytes}
    (coherent : Coherent items last) :
    liveBefore (contents items) last = latestLive (contents items) := by
  rw [← liveBefore_none]
  cases items using List.reverseRecOn with
  | nil => rfl
  | append_singleton items item =>
    rw [contents, List.map_append, List.map_singleton, liveBefore_append, liveBefore_append]
    split
    · next same => simp [coherent item (by simp) same]
    · rfl

variable {items : List Versioned} {last : Option Bytes}

/-- If both ends agree on what is left, the front and the back share it. -/
theorem serve_ok (clear : Clear items last) (coherent : Coherent items last) (calls : List End) :
    ∃ (front back : List (Bytes × Bytes)) (rest : List Versioned) (met : Option Bytes),
      serve calls ⟨items.map .ok, last⟩ = .ok (front, back, ⟨rest.map .ok, met⟩) ∧
      latestLive (contents items) = front ++ latestLive (contents rest) ++ back.reverse := by
  induction calls generalizing items last with
  | nil => exact ⟨[], [], items, last, rfl, by simp⟩
  | cons call calls ih =>
    cases call with
    | front =>
      obtain ⟨between, found, live, ⟨gone, split⟩, _⟩ := tryNext_ok items
      have clearer : Clear between last := by
        rintro before after key older newer first second rfl
        exact clear (gone ++ before) after key older newer first second
          (by rw [← split, List.append_assoc])
      have coherent' : Coherent between last := by
        intro item inside
        refine coherent item ?_
        rw [← split, List.getLast?_append, Option.mem_def.mp inside]
        rfl
      obtain ⟨front, back, rest, met, served, shared⟩ := ih clearer coherent'
      refine ⟨(latestLive (contents items)).head?.toList ++ front, back, rest, met, ?_, ?_⟩
      · simp only [serve, next, found, served]
        rfl
      · rw [List.append_assoc, List.append_assoc, ← List.append_assoc front, ← shared, live]
        cases latestLive (contents items) <;> rfl
    | back =>
      obtain ⟨between, met, found, live, place⟩ := nextBack_ok items last
      rw [liveBefore_of_coherent coherent] at found live
      have clearer : Clear between met ∧ Coherent between met := by
        obtain rfl | ⟨key, version, value, taken, rfl, rfl, differs⟩ := place
        · exact ⟨fun before _ _ _ _ _ _ wrong => by simp at wrong, fun _ inside => by cases inside⟩
        · refine ⟨?_, ?_⟩
          · rintro before after key' older newer first second rfl
            have same := clear before (after ++ (key, version, some value) :: taken) key' older
              newer first second (by simp)
            cases after <;> exact same
          · intro item inside same
            by_contra alive
            obtain ⟨stored, isStored⟩ := Option.ne_none_iff_exists'.mp alive
            obtain ⟨init, rfl⟩ := List.getLast?_eq_some_iff.mp inside
            refine differs (clear init taken key item.2.1 version stored value ?_)
            cases Option.some.inj same
            rw [← isStored]
            simp
      obtain ⟨front, back, rest, last', served, shared⟩ := ih clearer.1 clearer.2
      rw [liveBefore_of_coherent clearer.2] at live
      refine ⟨front, (latestLive (contents items)).getLast?.toList ++ back, rest, last', ?_, ?_⟩
      · simp only [serve, found, served]
        rfl
      · rw [List.reverse_append, ← List.append_assoc, ← shared, live]
        cases latestLive (contents items) using List.reverseRecOn <;> simp

theorem serve_append {first second : List End} {iterator middle final : ScanIterator}
    {front back front' back' : List (Bytes × Bytes)}
    (left : serve first iterator = .ok (front, back, middle))
    (right : serve second middle = .ok (front', back', final)) :
    serve (first ++ second) iterator = .ok (front ++ front', back ++ back', final) := by
  induction first generalizing iterator front back with
  | nil =>
    cases left
    exact right
  | cons call first ih =>
    cases call <;>
    · unfold serve at left
      split at left
      · cases left
      · next item rest called =>
        cases served : serve first rest with
        | error error =>
          rw [served] at left
          cases left
        | ok result =>
          rw [served] at left
          cases left
          simp only [List.cons_append, serve, called, ih served, List.append_assoc]
          rfl

/-- The front can take all that seems to be left. -/
theorem exists_serve_front (items : List Versioned) (last : Option Bytes) :
    ∃ calls final, serve calls ⟨items.map .ok, last⟩ =
      .ok (latestLive (contents items), [], final) ∧ final.Exhausted := by
  induction count : items.length using Nat.strong_induction_on generalizing items with
  | _ count ih =>
    subst count
    obtain ⟨rest, found, live, _, shorter⟩ := tryNext_ok items
    cases pairs : latestLive (contents items) with
    | nil =>
      rw [pairs, if_pos rfl] at shorter
      subst shorter
      refine ⟨[.front], ⟨[], last⟩, ?_, rfl, rfl⟩
      simp only [serve, next, found, pairs]
      rfl
    | cons pair pairs' =>
      rw [pairs, if_neg (List.cons_ne_nil _ _)] at shorter
      obtain ⟨calls, final, served, exhausted⟩ := ih _ shorter rest rfl
      refine ⟨.front :: calls, final, ?_, exhausted⟩
      simp only [serve, next, found, pairs, served, live]
      rfl

/-- The back can stop behind the older versions of a key. -/
theorem exists_serve_back (items after : List Versioned) {key : Bytes} (version : Version)
    (value : Bytes) (differs : (after.head?.map Prod.fst).or last ≠ some key) :
    ∃ calls back, serve (.back :: calls)
        ⟨(items ++ (key, version, some value) :: after).map .ok, last⟩ =
      .ok ([], back, ⟨items.map .ok, some key⟩) ∧ (key, value) ∈ back := by
  induction after using List.reverseRecOn generalizing last with
  | nil =>
    refine ⟨[], [(key, value)], ?_, List.mem_singleton_self _⟩
    simp only [serve, nextBack_append, if_neg (show last ≠ some key by simpa using differs)]
    rfl
  | append_singleton after item ih =>
    obtain ⟨other, version', stored⟩ := item
    have differs' : (after.head?.map Prod.fst).or (some other) ≠ some key := by
      cases after <;> exact differs
    obtain ⟨calls, back, served, inside⟩ := ih differs'
    rw [← List.cons_append, ← List.append_assoc]
    by_cases older : last = some other
    · refine ⟨calls, back, ?_, inside⟩
      rw [← served]
      simp only [serve, nextBack_append, older, ↓reduceIte]
    · cases stored with
      | none =>
        refine ⟨calls, back, ?_, inside⟩
        rw [← served]
        simp only [serve, nextBack_append, older, ↓reduceIte]
      | some stored =>
        refine ⟨.back :: calls, (other, stored) :: back, ?_, List.mem_cons_of_mem _ inside⟩
        rw [serve, nextBack_append, if_neg older]
        simp only [served]
        rfl

theorem clear_iff : Clear items none ↔ ¬Doubled (items.map .ok) := by
  constructor
  · rintro clear ⟨before, after, key, older, newer, first, second, split, differs⟩
    obtain ⟨before, rest, rfl, rfl, behind⟩ := List.map_eq_append_iff.mp split
    obtain ⟨_, rest, rfl, same, behind⟩ := List.map_eq_cons_iff.mp behind
    obtain ⟨_, after, rfl, same', rfl⟩ := List.map_eq_cons_iff.mp behind
    cases same
    cases same'
    have next := clear before after key older newer first second rfl
    cases after with
    | nil => cases next
    | cons item after =>
      cases Option.some.inj next
      exact differs item.2.1 item.2.2 rfl
  · intro single before after key older newer first second split
    by_contra differs
    refine single ⟨before.map .ok, after.map .ok, key, older, newer, first, second, ?_, ?_⟩
    · rw [split]
      simp
    · intro version stored next
      cases after with
      | nil => cases next
      | cons item after =>
        cases Except.ok.inj (Option.some.inj next)
        exact differs rfl

end ScanIterator

open ScanIterator

/-- In every run of interleaved transactions, the calls at both ends of a scan, until both return
none, return what the scan returns forwards, exactly if the last two visible versions of no key are
live. -/
theorem two_ended_iff {schedule : List Operation} (bounded : begins schedule < 2 ^ 64 - 2)
    {last : Database} {events : List Event}
    (ran : Database.empty.run schedule = some (last, events)) {st : TransactionState}
    {param : ScanType} {iterator : ScanIterator}
    (opened : Transaction.scan st param last.engine = .ok iterator) :
    ∃ pairs, Transaction.scanForward st param last.engine = .ok pairs ∧
      (pairs.Pairwise fun first second => first.1 < second.1) ∧
      (∀ key value, (key, value) ∈ pairs ↔ param.holds key ∧
        (Transaction.get st key).run last.engine = ⟨[], .ok (some value)⟩) ∧
      ((∀ calls, ∃ front back final, iterator.serve calls = .ok (front, back, final) ∧
        (final.Exhausted → front ++ back.reverse = pairs)) ↔ ¬Doubled iterator.inner) := by
  have straight : param.inverted = false := by
    by_contra inverted
    obtain ⟨message, panics⟩ :=
      Transaction.scan_inverted st last.engine (Bool.eq_true_of_not_eq_false inverted)
    cases opened.symm.trans panics
  obtain ⟨items, again, ascending, members⟩ :=
    Transaction.scan_opens (Database.run_fits bounded ran) st straight
  cases opened.symm.trans again
  refine ⟨_, ?_, ascending, members, ?_⟩
  · simp only [Transaction.scanForward, again, bind, Except.bind, (toVec_ok items).1]
    rfl
  rw [← clear_iff]
  constructor
  · intro agree before after key older newer first second split
    by_contra differs
    -- The back returns the newest version, and the front the one before it.
    obtain ⟨backCalls, back, backServed, isBack⟩ := exists_serve_back
      (before ++ [(key, older, some first)]) after newer second differs
    obtain ⟨frontCalls, final, frontServed, exhausted⟩ := exists_serve_front
      (before ++ [(key, older, some first)]) (some key)
    rw [List.append_assoc, List.singleton_append, ← split] at backServed
    obtain ⟨front', back', final', served, ends⟩ := agree (.back :: backCalls ++ frontCalls)
    cases served.symm.trans (serve_append backServed frontServed)
    rw [← ends exhausted, List.append_nil, List.nil_append] at ascending
    have isFront : (key, first) ∈
        Transaction.latestLive (contents (before ++ [(key, older, some first)])) := by
      rw [← Transaction.liveBefore_none, contents, List.map_append, List.map_singleton,
        Transaction.liveBefore_append]
      simp
    have less := (List.pairwise_append.mp ascending).2.2 _ isFront _ (List.mem_reverse.mpr isBack)
    exact lt_irrefl key less
  · intro clear calls
    obtain ⟨front, back, rest, met, served, shared⟩ := serve_ok clear (fun _ _ wrong => by cases wrong) calls
    refine ⟨front, back, _, served, ?_⟩
    rintro ⟨none, _⟩
    obtain ⟨_, found, _⟩ := tryNext_ok rest
    rw [next, found] at none
    rw [shared, List.head?_eq_none_iff.mp (Except.ok.inj none), List.append_nil]

theorem two_ended_pruning : ∃ last events iterator,
    Database.empty.run pruning = some (last, events) ∧
      Transaction.scan ⟨2, true, ∅⟩ (.range .unbounded .unbounded) last.engine = .ok iterator ∧
      ∀ calls, ∃ front back final, iterator.serve calls = .ok (front, back, final) ∧
        (final.Exhausted → front ++ back.reverse = [([2], [20])]) := by
  have scanned : ((Database.empty.run pruning).bind fun final =>
      (Transaction.scan ⟨2, true, ∅⟩ (.range .unbounded .unbounded) final.1.engine).toOption).map
        (fun iterator => iterator.inner.map Except.toOption) =
        some [some ([1], 1, none), some ([2], 1, some [20])] := by
    decide +kernel
  have forward : (Database.empty.run pruning).map (fun final =>
      Transaction.scanForward ⟨2, true, ∅⟩ (.range .unbounded .unbounded) final.1.engine) =
        some (.ok [([2], [20])]) := by
    decide +kernel
  obtain ⟨iterator, opened, listed⟩ := Option.map_eq_some_iff.mp scanned
  obtain ⟨⟨last, events⟩, ran, opened⟩ := Option.bind_eq_some_iff.mp opened
  cases result : Transaction.scan ⟨2, true, ∅⟩ (.range .unbounded .unbounded) last.engine with
  | error halt =>
    rw [result] at opened
    cases opened
  | ok other =>
  rw [result] at opened
  cases opened
  rw [ran] at forward
  obtain ⟨pairs, same, _, _, ends⟩ := two_ended_iff (by decide) ran result
  cases same.symm.trans (Option.some.inj forward)
  refine ⟨last, events, iterator, ran, result, ends.mpr ?_⟩
  rintro ⟨before, after, key, older, newer, first, second, split, _⟩
  rw [split] at listed
  rcases before with _ | ⟨_, _ | ⟨_, _⟩⟩ <;> simp [Except.toOption] at listed

/-- A key is set twice. -/
def overwriting : List Operation :=
  [.begin, .use 0 .handle (.set [1] [10]), .use 0 .handle .commit,
    .begin, .use 1 .handle (.set [1] [11]), .use 1 .handle .commit]

/-- The back returns the second value of the key, the front then returns the first one, and both
are at their ends. -/
theorem two_ended_overwriting :
    (Database.empty.run overwriting).map (fun final =>
      Transaction.scanForward ⟨3, true, ∅⟩ (.range .unbounded .unbounded) final.1.engine) =
        some (.ok [([1], [11])]) ∧
    (((Database.empty.run overwriting).bind fun final =>
      (Transaction.scan ⟨3, true, ∅⟩ (.range .unbounded .unbounded) final.1.engine).toOption).bind
        fun iterator => (iterator.serve [.back, .front, .back, .front]).toOption).map
          (fun served => [served.1, served.2.1]) =
      some [[([1], [10])], [([1], [11])]] := by
  decide +kernel

end Radb.Storage.Mvcc
