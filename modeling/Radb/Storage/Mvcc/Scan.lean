import Radb.Encoding.Keys
import Radb.Storage.Mvcc.Bookkeeping
import Radb.Storage.Mvcc.View

/-! # Scans

Scans of a range or of a prefix, forwards and backwards. The engine returns the pairs of
a range of encoded keys; a version iterator decodes them and skips the invisible ones; a
scan iterator finds the latest version of every key from either end. An iterator is
represented by the results it has yet to return.
-/

namespace Radb.Storage.Mvcc

open Foundation Foundation.Program

variable {held : Version} {param : ScanType}

/-- The pairs of a range of encoded keys, in key order. -/
def Engine.range (engine : Engine) (range : Bound Bytes × Bound Bytes) :
    Except Halt (List (Sigma Key.Value)) :=
  if Bound.inverted range.1 range.2 then
    .error (Bound.panic range.1 range.2)
  else
    .ok (engine.scanGroup fun key => range.1.starts key.encode && range.2.stops key.encode)

/-- A decoded version: the user key, the version and what is stored there. -/
abbrev Versioned := Bytes × Version × Option Bytes

/-- Decodes raw engine pairs into versions and skips invisible ones. -/
def versionIterator (st : TransactionState) (pairs : List (Sigma Key.Value)) :
    List (Except Error Versioned) :=
  pairs.filterMap fun
    | ⟨.version key version, value⟩ =>
      if st.isVisible version then some (.ok (key, version, value)) else none
    | _ => some (.error (.internal "Expected Key::Version"))

/-- An iterator over the latest live and visible key/value pairs. -/
structure ScanIterator where
  /-- The versions between both ends. -/
  inner : List (Except Error Versioned)
  /-- The previous key met from the back. -/
  lastBack : Option Bytes

namespace ScanIterator

/-- The first live key and what is left behind it. A version is not the latest if the
next one has the same key. -/
def tryNext : List (Except Error Versioned) →
    Except Error (Option (Bytes × Bytes)) × List (Except Error Versioned)
  | [] => (.ok none, [])
  | .error error :: rest => (.error error, rest)
  | .ok (key, _, value) :: rest =>
    match rest.head? with
    | some (.error error) => (.error error, rest)
    | some (.ok (next, _, _)) =>
      if next = key then tryNext rest
      else
        match value with
        | some value => (.ok (some (key, value)), rest)
        | none => tryNext rest
    | none =>
      match value with
      | some value => (.ok (some (key, value)), rest)
      | none => tryNext rest

/-- The last live key, what is left before it, and the last key met; the versions come
in reverse. A version is not the latest if the last one met has the same key. -/
def tryNextBack : List (Except Error Versioned) → Option Bytes →
    Except Error (Option (Bytes × Bytes)) × List (Except Error Versioned) × Option Bytes
  | [], last => (.ok none, [], last)
  | .error error :: rest, last => (.error error, rest, last)
  | .ok (key, _, value) :: rest, last =>
    if last = some key then tryNextBack rest last
    else
      match value with
      | some value => (.ok (some (key, value)), rest, some key)
      | none => tryNextBack rest (some key)

/-- The next item from the front, or none if exhausted. -/
def next (iterator : ScanIterator) : Except Error (Option (Bytes × Bytes)) × ScanIterator :=
  let found := tryNext iterator.inner
  (found.1, { iterator with inner := found.2 })

/-- The next item from the back, or none if exhausted. -/
def nextBack (iterator : ScanIterator) : Except Error (Option (Bytes × Bytes)) × ScanIterator :=
  let found := tryNextBack iterator.inner.reverse iterator.lastBack
  (found.1, ⟨found.2.1.reverse, found.2.2⟩)

/-- Collects items until there are none, in at most `fuel` steps. -/
def collect (advance : ScanIterator → Except Error (Option (Bytes × Bytes)) × ScanIterator) :
    Nat → ScanIterator → Except Error (List (Bytes × Bytes))
  | 0, _ => .ok []
  | fuel + 1, iterator =>
    match advance iterator with
    | (.error error, _) => .error error
    | (.ok none, _) => .ok []
    | (.ok (some pair), rest) => (collect advance fuel rest).map (pair :: ·)

/-- Collects the result to a vector. Every item takes a version, so there are no more
items than versions. -/
def toVec (iterator : ScanIterator) : Except Error (List (Bytes × Bytes)) :=
  collect next (iterator.inner.length + 1) iterator

/-- Collects the result of the reversed iterator. -/
def toVecRev (iterator : ScanIterator) : Except Error (List (Bytes × Bytes)) :=
  collect nextBack (iterator.inner.length + 1) iterator

end ScanIterator

/-- The parameter of a scan. -/
inductive ScanType where
  | range (start stop : Bound Bytes)
  | lead (bytes : Bytes)
  deriving DecidableEq

namespace Transaction

/-- The encoded start of a scan: in front of the first or behind the last version. -/
def scanStart : Bound Bytes → Bound Bytes
  | .excluded key => .excluded (Key.version key versionMax).encode
  | .included key => .included (Key.version key 0).encode
  | .unbounded => .included (Key.version [] 0).encode

/-- The encoded end of a scan. -/
def scanEnd : Bound Bytes → Bound Bytes
  | .excluded key => .excluded (Key.version key 0).encode
  | .included key => .included (Key.version key versionMax).encode
  | .unbounded => .excluded KeyPrefix.unversioned.encode

/-- The encoded keys of a scan. -/
def scanBounds : ScanType → Bound Bytes × Bound Bytes
  | .range start stop => (scanStart start, scanEnd stop)
  | .lead bytes => prefixRange (KeyPrefix.scanLead bytes)

/-- An iterator over the latest visible key/value pairs at the transaction's version. -/
def scan (st : TransactionState) (param : ScanType) (engine : Engine) :
    Except Halt ScanIterator :=
  (engine.range (scanBounds param)).map fun pairs => ⟨versionIterator st pairs, none⟩

/-- The items of a scan, forwards. -/
def scanForward (st : TransactionState) (param : ScanType) (engine : Engine) :
    Except Halt (List (Bytes × Bytes)) := do
  let iterator ← scan st param engine
  iterator.toVec.mapError .error

/-- The items of a scan, backwards. -/
def scanBackward (st : TransactionState) (param : ScanType) (engine : Engine) :
    Except Halt (List (Bytes × Bytes)) := do
  let iterator ← scan st param engine
  iterator.toVecRev.mapError .error

end Transaction

/-- The user keys a scan is about. -/
def ScanType.holds : ScanType → Bytes → Prop
  | .range start stop, key => start.starts key = true ∧ stop.stops key = true
  | .lead bytes, key => bytes <+: key

/-- Whether a scan asks for a range that ends before it starts. -/
def ScanType.inverted : ScanType → Bool
  | .range start stop => Bound.inverted start stop
  | .lead _ => false

namespace Transaction

/-- Live keys, as the first of two parts of a list, given the first key of the second. -/
def liveBefore : List (Bytes × Option Bytes) → Option Bytes → List (Bytes × Bytes)
  | [], _ => []
  | (key, value) :: rest, later =>
    if (rest.head?.map Prod.fst).or later = some key then liveBefore rest later
    else value.toList.map (fun live => (key, live)) ++ liveBefore rest later

theorem liveBefore_none (pairs : List (Bytes × Option Bytes)) :
    liveBefore pairs none = latestLive pairs := by
  induction pairs with
  | nil => rfl
  | cons pair rest ih => rw [liveBefore, latestLive, Option.or_none, ih]

theorem liveBefore_append (pairs : List (Bytes × Option Bytes)) (key : Bytes)
    (value : Option Bytes) (later : Option Bytes) :
    liveBefore (pairs ++ [(key, value)]) later = liveBefore pairs (some key) ++
      if later = some key then [] else value.toList.map fun live => (key, live) := by
  induction pairs with
  | nil => simp [liveBefore]
  | cons pair rest ih =>
    have head : (((rest ++ [(key, value)]).head?.map Prod.fst).or later) =
        (rest.head?.map Prod.fst).or (some key) := by
      cases rest <;> rfl
    rw [List.cons_append, liveBefore, liveBefore, head, ih]
    split
    · rfl
    · rw [List.append_assoc]

end Transaction

namespace ScanIterator

open Transaction

/-- The keys and the contents of versions. -/
def contents (items : List Versioned) : List (Bytes × Option Bytes) :=
  items.map fun item => (item.1, item.2.2)

/-- One step of the search from the front. -/
theorem tryNext_cons (key : Bytes) (version : Version) (value : Option Bytes)
    (rest : List Versioned) :
    tryNext (.ok (key, version, value) :: rest.map .ok) =
      if ((contents rest).head?.map Prod.fst) = some key then tryNext (rest.map .ok)
      else
        match value with
        | some value => (.ok (some (key, value)), rest.map .ok)
        | none => tryNext (rest.map .ok) := by
  cases rest with
  | nil => cases value <;> simp [tryNext, contents]
  | cons => simp [tryNext, contents]

/-- The search from the front finds the first live key, or takes all versions. -/
theorem tryNext_ok (items : List Versioned) :
    ∃ rest : List Versioned,
      tryNext (items.map .ok) = (.ok (latestLive (contents items)).head?, rest.map .ok) ∧
      latestLive (contents rest) = (latestLive (contents items)).tail ∧ rest <:+ items ∧
      (if latestLive (contents items) = [] then rest = [] else rest.length < items.length) := by
  induction items with
  | nil => exact ⟨[], rfl, rfl, List.suffix_refl _, rfl⟩
  | cons item items ih =>
    obtain ⟨key, version, value⟩ := item
    obtain ⟨rest, found, live, inside, shorter⟩ := ih
    have skipped : ∃ rest : List Versioned, tryNext (items.map .ok) =
        (.ok (latestLive (contents items)).head?, rest.map .ok) ∧
        latestLive (contents rest) = (latestLive (contents items)).tail ∧
        rest <:+ (key, version, value) :: items ∧ (if latestLive (contents items) = [] then
          rest = [] else rest.length < items.length + 1) := by
      refine ⟨rest, found, live, inside.trans (List.suffix_cons ..), ?_⟩
      split
      · next dead => rwa [if_pos dead] at shorter
      · next alive =>
        rw [if_neg alive] at shorter
        exact Nat.lt_succ_of_lt shorter
    have step : latestLive (contents ((key, version, value) :: items)) =
        if ((contents items).head?.map Prod.fst) = some key then latestLive (contents items)
        else value.toList.map (fun live => (key, live)) ++ latestLive (contents items) := rfl
    rw [List.map_cons, tryNext_cons, step]
    by_cases older : ((contents items).head?.map Prod.fst) = some key
    · rw [if_pos older, if_pos older]
      exact skipped
    · rw [if_neg older, if_neg older]
      cases value with
      | some => exact ⟨items, rfl, rfl, List.suffix_cons .., by simp⟩
      | none => exact skipped

/-- One step of the search from the back. -/
theorem tryNextBack_cons (key : Bytes) (version : Version) (value : Option Bytes)
    (rest : List (Except Error Versioned)) (last : Option Bytes) :
    tryNextBack (.ok (key, version, value) :: rest) last =
      if last = some key then tryNextBack rest last
      else
        match value with
        | some value => (.ok (some (key, value)), rest, some key)
        | none => tryNextBack rest (some key) := by
  cases value <;> simp [tryNextBack]

section

variable (items : List Versioned)

theorem nextBack_append (key : Bytes) (version : Version) (value : Option Bytes)
    (last : Option Bytes) :
    nextBack ⟨(items ++ [(key, version, value)]).map .ok, last⟩ =
      if last = some key then nextBack ⟨items.map .ok, last⟩
      else
        match value with
        | some value => (.ok (some (key, value)), ⟨items.map .ok, some key⟩)
        | none => nextBack ⟨items.map .ok, some key⟩ := by
  simp only [nextBack, List.map_append, List.map_cons, List.map_nil, List.reverse_append,
    List.reverse_singleton, List.singleton_append, tryNextBack_cons]
  split
  · rfl
  · cases value with
    | some => simp
    | none => rfl

/-- The search from the back finds the last live key. It stops behind the latest version of that
key, or takes all versions. -/
theorem nextBack_ok (last : Option Bytes) :
    ∃ (rest : List Versioned) (met : Option Bytes),
      nextBack ⟨items.map .ok, last⟩ =
        (.ok (liveBefore (contents items) last).getLast?, ⟨rest.map .ok, met⟩) ∧
      liveBefore (contents rest) met = (liveBefore (contents items) last).dropLast ∧
      (rest = [] ∨ ∃ (key : Bytes) (version : Version) (value : Bytes) (taken : List Versioned),
        items = rest ++ (key, version, some value) :: taken ∧ met = some key ∧
        (taken.head?.map Prod.fst).or last ≠ some key) := by
  induction items using List.reverseRecOn generalizing last with
  | nil => exact ⟨[], last, rfl, rfl, .inl rfl⟩
  | append_singleton items item ih =>
    obtain ⟨key, version, value⟩ := item
    have split : contents (items ++ [(key, version, value)]) = contents items ++ [(key, value)] :=
      List.map_append
    rw [nextBack_append, split, liveBefore_append]
    -- A version that is skipped stands between both ends of the rest.
    have behind : ∀ {rest met}, (rest = [] ∨ ∃ (key' : Bytes) (version' : Version) (value' : Bytes)
          (taken : List Versioned), items = rest ++ (key', version', some value') :: taken ∧
          met = some key' ∧ (taken.head?.map Prod.fst).or (some key) ≠ some key') →
        (rest = [] ∨ ∃ (key' : Bytes) (version' : Version) (value' : Bytes)
          (taken : List Versioned), items ++ [(key, version, value)] =
            rest ++ (key', version', some value') :: taken ∧
          met = some key' ∧ (taken.head?.map Prod.fst).or last ≠ some key') := by
      rintro rest met (none | ⟨key', version', value', taken, rfl, rfl, differs⟩)
      · exact .inl none
      · refine .inr ⟨key', version', value', taken ++ [(key, version, value)], by simp, rfl, ?_⟩
        cases taken <;> exact differs
    by_cases older : last = some key
    · subst older
      obtain ⟨rest, met, found, live, place⟩ := ih (some key)
      rw [if_pos rfl, if_pos rfl, List.append_nil]
      exact ⟨rest, met, found, live, behind place⟩
    · rw [if_neg older, if_neg older]
      cases value with
      | some value =>
        refine ⟨items, some key, by simp, by simp, .inr ⟨key, version, value, [], rfl, rfl, ?_⟩⟩
        simpa using older
      | none =>
        obtain ⟨rest, met, found, live, place⟩ := ih (some key)
        refine ⟨rest, met, ?_, ?_, behind place⟩
        · simpa using found
        · simpa using live

theorem collect_next (last : Option Bytes) (fuel : Nat) (enough : items.length < fuel) :
    collect next fuel ⟨items.map .ok, last⟩ = .ok (latestLive (contents items)) := by
  induction fuel generalizing items with
  | zero => cases enough
  | succ fuel ih =>
    obtain ⟨rest, found, live, _, shorter⟩ := tryNext_ok items
    simp only [collect, next, found]
    cases pairs : latestLive (contents items) with
    | nil => rfl
    | cons =>
      rw [pairs] at live shorter
      rw [if_neg (List.cons_ne_nil _ _)] at shorter
      simp only [List.head?_cons]
      rw [ih rest (by omega), live]
      rfl

theorem collect_nextBack (last : Option Bytes) (fuel : Nat) (enough : items.length < fuel) :
    collect nextBack fuel ⟨items.map .ok, last⟩ =
      .ok (liveBefore (contents items) last).reverse := by
  induction fuel generalizing items last with
  | zero => cases enough
  | succ fuel ih =>
    obtain ⟨rest, met, found, live, place⟩ := nextBack_ok items last
    simp only [collect, found]
    cases pairs : liveBefore (contents items) last using List.reverseRecOn with
    | nil => rfl
    | append_singleton =>
      have shorter : rest.length < fuel := by
        obtain rfl | ⟨_, _, _, _, rfl, _⟩ := place
        · cases items with
          | nil => simp [contents, liveBefore] at pairs
          | cons =>
            rw [List.length_cons] at enough
            exact Nat.zero_lt_of_lt (Nat.lt_of_succ_lt_succ enough)
        · rw [List.length_append, List.length_cons] at enough
          omega
      rw [pairs, List.dropLast_concat] at live
      simp only [List.getLast?_concat]
      rw [ih rest met shorter, live, List.reverse_concat]
      rfl

/-- Both ways of collecting, for versions that decode. -/
theorem toVec_ok :
    toVec ⟨items.map .ok, none⟩ = .ok (latestLive (contents items)) ∧
      toVecRev ⟨items.map .ok, none⟩ = .ok (latestLive (contents items)).reverse := by
  refine ⟨collect_next items none _ (by simp), ?_⟩
  rw [toVecRev, collect_nextBack items none _ (by simp), liveBefore_none]

end

end ScanIterator

theorem versionIterator_decoded (st : TransactionState) (decoded : List Versioned) :
    versionIterator st (decoded.map fun item => ⟨.version item.1 item.2.1, item.2.2⟩) =
      (decoded.filter fun item => st.isVisible item.2.1).map .ok := by
  induction decoded with
  | nil => rfl
  | cons item rest ih =>
    rw [versionIterator] at ih ⊢
    by_cases visible : st.isVisible item.2.1 = true
    · rw [List.map_cons, List.filterMap_cons_some (b := .ok item) (by simp [visible]), ih,
        List.filter_cons_of_pos (by exact visible), List.map_cons]
    · rw [List.map_cons, List.filterMap_cons_none (by simp [visible]), ih,
        List.filter_cons_of_neg (by exact visible)]

namespace Key

theorem fits_version (small : held < 2 ^ 64) (user : Bytes) :
    (version user held).Fits := by
  intro other same
  cases same
  exact small

theorem encode_lt_encode {first second : Key} (left : first.Fits) (right : second.Fits) :
    first.encode < second.encode ↔ first < second :=
  encode_lt_iff left right

theorem encode_version_lt {first second : Bytes} {older newer : Version} (left : older < 2 ^ 64)
    (right : newer < 2 ^ 64) :
    (version first older).encode < (version second newer).encode ↔
      first < second ∨ first = second ∧ older < newer := by
  rw [encode_lt_encode (fits_version left first) (fits_version right second), version_lt_iff]

theorem encode_version_lt_unversioned (user : Bytes) (held : Version) :
    (version user held).encode < KeyPrefix.unversioned.encode :=
  List.cons_lt_cons_iff.mpr (.inl (by decide))

end Key

namespace Transaction

theorem zero_lt_word : (0 : Version) < 2 ^ 64 := by decide

theorem versionMax_lt_word : versionMax < 2 ^ 64 := by decide

/-- The encoded range is inverted exactly if the given one is. -/
theorem inverted_scanBounds (param : ScanType) :
    Bound.inverted (scanBounds param).1 (scanBounds param).2 = param.inverted := by
  have zero := zero_lt_word
  have top := versionMax_lt_word
  cases param with
  | lead => exact not_inverted_prefixRange _
  | range start stop =>
    rw [Bool.eq_iff_iff]
    cases start with
    | included first =>
      cases stop with
      | included =>
        simp [scanBounds, scanStart, scanEnd, ScanType.inverted, Bound.inverted,
          Key.encode_version_lt top zero]
      | excluded =>
        simp [scanBounds, scanStart, scanEnd, ScanType.inverted, Bound.inverted,
          Key.encode_version_lt zero zero]
      | unbounded =>
        simpa [scanBounds, scanStart, scanEnd, ScanType.inverted, Bound.inverted] using
          (Key.encode_version_lt_unversioned first 0).le
    | excluded first =>
      cases stop with
      | included =>
        simp [scanBounds, scanStart, scanEnd, ScanType.inverted, Bound.inverted,
          Key.encode_version_lt top top]
      | excluded =>
        rw [scanBounds, scanStart, scanEnd, ScanType.inverted, Bound.inverted,
          Bound.inverted, decide_eq_true_eq, decide_eq_true_eq, ← not_lt, ← not_lt,
          Key.encode_version_lt top zero]
        simp
      | unbounded =>
        simpa [scanBounds, scanStart, scanEnd, ScanType.inverted, Bound.inverted] using
          Key.encode_version_lt_unversioned first versionMax
    | unbounded =>
      cases stop with
      | included second =>
        simp [scanBounds, scanStart, scanEnd, ScanType.inverted, Bound.inverted,
          Key.encode_version_lt top zero]
      | excluded second =>
        simp [scanBounds, scanStart, scanEnd, ScanType.inverted, Bound.inverted,
          Key.encode_version_lt zero zero]
      | unbounded =>
        simpa [scanBounds, scanStart, scanEnd, ScanType.inverted, Bound.inverted] using
          (Key.encode_version_lt_unversioned [] 0).le

theorem starts_scanStart (start : Bound Bytes) {user : Bytes} (small : held < 2 ^ 64) :
    (scanStart start).starts (Key.version user held).encode = start.starts user := by
  have last : ¬ versionMax < held := Nat.not_lt.mpr (Nat.le_of_lt_succ small)
  rw [Bool.eq_iff_iff]
  cases start with
  | included =>
    rw [scanStart, Bound.starts, Bound.starts, decide_eq_true_eq, decide_eq_true_eq, ← not_lt,
      ← not_lt, Key.encode_version_lt small zero_lt_word]
    simp
  | excluded => simp [scanStart, Bound.starts, Key.encode_version_lt versionMax_lt_word small, last]
  | unbounded =>
    rw [scanStart, Bound.starts, Bound.starts, decide_eq_true_eq, ← not_lt,
      Key.encode_version_lt small zero_lt_word]
    simp

theorem stops_scanEnd (stop : Bound Bytes) {user : Bytes} (small : held < 2 ^ 64) :
    (scanEnd stop).stops (Key.version user held).encode = stop.stops user := by
  have last : ¬ versionMax < held := Nat.not_lt.mpr (Nat.le_of_lt_succ small)
  rw [Bool.eq_iff_iff]
  cases stop with
  | included =>
    rw [scanEnd, Bound.stops, Bound.stops, decide_eq_true_eq, decide_eq_true_eq, ← not_lt,
      ← not_lt, Key.encode_version_lt versionMax_lt_word small]
    simp [last]
  | excluded => simp [scanEnd, Bound.stops, Key.encode_version_lt small zero_lt_word]
  | unbounded =>
    simpa [scanEnd, Bound.stops] using Key.encode_version_lt_unversioned user held

theorem not_starts_of_lt (start : Bound Bytes) {tag : UInt8} (earlier : tag < 4) (rest : Bytes) :
    (scanStart start).starts (tag :: rest) = false := by
  have before (body : Bytes) : tag :: rest < 4 :: body := List.cons_lt_cons_iff.mpr (.inl earlier)
  cases start with
  | included | unbounded =>
    simp only [scanStart, Bound.starts, decide_eq_false_iff_not, not_le]
    exact before _
  | excluded =>
    simp only [scanStart, Bound.starts, decide_eq_false_iff_not, not_lt]
    exact (before _).le

/-- A scan ends before the keys of the last variant. -/
theorem not_stops_unversioned (stop : Bound Bytes) (rest : Bytes) :
    (scanEnd stop).stops (5 :: rest) = false := by
  have behind (body : Bytes) : 4 :: body < (5 :: rest : Bytes) :=
    List.cons_lt_cons_iff.mpr (.inl (by decide))
  cases stop with
  | included =>
    simp only [scanEnd, Bound.stops, decide_eq_false_iff_not, not_le]
    exact behind _
  | excluded =>
    simp only [scanEnd, Bound.stops, decide_eq_false_iff_not, not_lt]
    exact (behind _).le
  | unbounded => simp [scanEnd, Bound.stops, KeyPrefix.encode]

/-- A stored key is in the encoded range exactly if it is a version of a user key in the
given one. -/
theorem scanBounds_iff (param : ScanType) {key : Key} (fits : key.Fits) :
    ((scanBounds param).1.starts key.encode && (scanBounds param).2.stops key.encode) = true ↔
      ∃ user held, key = .version user held ∧ param.holds user := by
  cases param with
  | lead bytes =>
    rw [scanBounds, mem_prefixRange]
    exact KeyPrefix.scanLead_isPrefix_iff bytes key
  | range start stop =>
    cases key with
    | version user held =>
      have small := fits held rfl
      simp [scanBounds, starts_scanStart start small, stops_scanEnd stop small,
        ScanType.holds]
    | nextVersion | txnActive | txnActiveSnapshot | txnWrite =>
      simp [scanBounds, Key.encode, not_starts_of_lt]
    | unversioned user => simp [scanBounds, Key.encode, not_stops_unversioned]

theorem scan_inverted (st : TransactionState) (engine : Engine) (inverted : param.inverted = true) :
    ∃ message, scan st param engine = .error (.panic message) := by
  obtain ⟨message, panics⟩ := Bound.exists_panic (scanBounds param).1 (scanBounds param).2
  rw [scan, Engine.range, inverted_scanBounds, if_pos inverted, panics]
  exact ⟨message, rfl⟩

end Transaction

/-- The versions of all stored keys are 64-bit words. -/
def Engine.Fits (engine : Engine) : Prop :=
  ∀ key stored, Store.get engine key = some stored → key.Fits

theorem Database.run_fits {schedule : List Operation} (bounded : begins schedule < 2 ^ 64 - 2)
    {last : Database} {events : List Event} (ran : empty.run schedule = some (last, events)) :
    last.engine.Fits := by
  obtain ⟨consistent, room, snapshots⟩ := run_snapshots bounded ran
  intro key stored present held stamped
  have below := stamp_lt_of_stored consistent snapshots stamped (by simp [present])
  exact Nat.lt_of_lt_of_le below (Nat.le_trans room (Nat.le_of_lt Transaction.versionMax_lt_word))

/-- A scan that does not panic opens an iterator over visible versions. Their live keys are, in
ascending order, the keys the scan is about that a read finds a value for. -/
theorem Transaction.scan_opens {engine : Engine} (fits : engine.Fits) (st : TransactionState)
    (straight : param.inverted = false) :
    ∃ items : List Versioned, scan st param engine = .ok ⟨items.map .ok, none⟩ ∧
      ((latestLive (ScanIterator.contents items)).Pairwise fun first second =>
        first.1 < second.1) ∧
      ∀ key value, (key, value) ∈ latestLive (ScanIterator.contents items) ↔
        param.holds key ∧ (get st key).run engine = ⟨[], .ok (some value)⟩ := by
  obtain ⟨decoded, scanned, sorted, inside⟩ := exists_decoded engine
    (fun key => (scanBounds param).1.starts key.encode &&
      (scanBounds param).2.stops key.encode)
    fun key stored present => scanBounds_iff param (fits key stored present)
  obtain ⟨ascending, members⟩ := latestLive_visible engine st sorted inside
  refine ⟨decoded.filter fun item => st.isVisible item.2.1, ?_, ascending, ?_⟩
  · rw [scan, Engine.range, inverted_scanBounds, straight,
      if_neg Bool.false_ne_true, scanned, ← versionIterator_decoded]
    rfl
  · intro key value
    refine (members key value).trans (and_congr_right fun _ => ?_)
    obtain ⟨read, ran, latest⟩ := get_run engine st key
    rw [ran]
    constructor
    · intro found
      rw [latest.unique found]
    · intro same
      cases same
      exact latest

/-- Scans that do not panic return the keys they are about that a read finds a value for, and
backwards the same in reverse. -/
theorem Transaction.scan_straight {engine : Engine} (fits : engine.Fits) (st : TransactionState)
    (straight : param.inverted = false) :
    ∃ pairs, scanForward st param engine = .ok pairs ∧
      scanBackward st param engine = .ok pairs.reverse ∧
      (pairs.Pairwise fun first second => first.1 < second.1) ∧
      ∀ key value, (key, value) ∈ pairs ↔
        param.holds key ∧ (get st key).run engine = ⟨[], .ok (some value)⟩ := by
  obtain ⟨items, opened, ascending, members⟩ := scan_opens fits st straight
  obtain ⟨forward, backward⟩ := ScanIterator.toVec_ok items
  refine ⟨latestLive (ScanIterator.contents items), ?_, ?_, ascending, members⟩
  · simp only [scanForward, opened, bind, Except.bind, forward]
    rfl
  · simp only [scanBackward, opened, bind, Except.bind, backward]
    rfl

/-- Two keys are written, one of them is deleted again, and the transaction commits. -/
def pruning : List Operation :=
  [.begin, .use 0 .handle (.set [1] [10]), .use 0 .handle (.set [2] [20]),
    .use 0 .handle (.delete [1]), .use 0 .handle .commit]

end Radb.Storage.Mvcc
