import Radb.Foundation.Store

/-! # Client programs

A script is a program of a client that reads and writes a keyed store one key or one
group of keys at a time. What a script does is independent of how the store is
implemented: it can be run on an ordered store, where some writes may be refused, or
interpreted by the operations of another store.
-/

namespace Foundation

variable {Fault First Second : Type} {function : First → Except Fault Second}
  {results : List Second}

/-- A computation that returns does so step by step. -/
theorem bind_eq_ok {step : Except Fault First} {next : First → Except Fault Second}
    {result : Second} :
    (step >>= next) = .ok result ↔ ∃ value, step = .ok value ∧ next value = .ok result := by
  cases step with
  | error | ok => simp [bind, Except.bind]

/-- A list is mapped without a fault if every element is. -/
theorem mapM_eq_ok {items : List First} : items.mapM function = .ok results ↔
      List.Forall₂ (fun item result => function item = .ok result) items results := by
  induction items generalizing results with
  | nil =>
    rw [List.mapM_nil, List.forall₂_nil_left_iff]
    exact ⟨fun same => (Except.ok.inj same).symm, fun same => congrArg Except.ok same.symm⟩
  | cons first rest ih =>
    rw [List.mapM_cons, List.forall₂_cons_left_iff, bind_eq_ok]
    constructor
    · intro ⟨image, here, mapped⟩
      obtain ⟨images, there, mapped⟩ := bind_eq_ok.mp mapped
      cases mapped
      exact ⟨image, images, here, ih.mp there, rfl⟩
    · intro ⟨image, images, here, there, same⟩
      rw [same]
      exact ⟨image, here, bind_eq_ok.mpr ⟨images, ih.mpr there, rfl⟩⟩

/-- Every element of a list that is mapped without a fault has its image in the result. -/
theorem mem_of_mapM_eq_ok {items : List First} (mapped : items.mapM function = .ok results)
    {item : First} (member : item ∈ items) : ∃ result ∈ results, function item = .ok result := by
  induction mapM_eq_ok.mp mapped with
  | nil => cases member
  | cons here rest ih =>
    rcases List.mem_cons.mp member with rfl | later
    · exact ⟨_, List.mem_cons_self, here⟩
    · obtain ⟨result, found, same⟩ := ih (mapM_eq_ok.mpr rest) later
      exact ⟨result, List.mem_cons_of_mem _ found, same⟩

/-- A program of a client of a store. -/
inductive Script {Key : Type} (Value : Key → Type) (Group Fault Result : Type) where
  | done (result : Result)
  | stop (fault : Fault)
  | get (key : Key) (next : Option (Value key) → Script Value Group Fault Result)
  | scan (group : Group) (next : List (Sigma Value) → Script Value Group Fault Result)
  | write (write : Store.Write Value) (next : Script Value Group Fault Result)

namespace Script

variable {Key : Type} {Value : Key → Type} {Group Fault First Second Result : Type}

variable {effect : Store.Write Value}

variable {script : Script Value Group Fault Result} {next : First → Script Value Group Fault Second}
  {Item : Type} {action : Item → Script Value Group Fault Unit} {items : List Item}

/-- Run a script and, if it returns, the next one. -/
def andThen : Script Value Group Fault First → (First → Script Value Group Fault Second) →
    Script Value Group Fault Second
  | done result, next => next result
  | stop fault, _ => stop fault
  | get key rest, next => get key fun value => (rest value).andThen next
  | scan group rest, next => scan group fun pairs => (rest pairs).andThen next
  | write effect rest, next => write effect (rest.andThen next)

instance : Monad (Script Value Group Fault) where
  pure := done
  bind := andThen

@[simp] theorem pure_eq_done (result : Result) :
    (pure result : Script Value Group Fault Result) = done result := rfl

@[simp] theorem bind_eq_andThen (script : Script Value Group Fault First)
    (next : First → Script Value Group Fault Second) : script >>= next = script.andThen next := rfl

@[simp] theorem done_andThen (result : First) (next : First → Script Value Group Fault Second) :
    (done result).andThen next = next result := rfl

@[simp] theorem stop_andThen (fault : Fault) (next : First → Script Value Group Fault Second) :
    (stop fault).andThen next = stop fault := rfl

/-- Fetch the value of a key. -/
def read (key : Key) : Script Value Group Fault (Option (Value key)) := get key done

/-- Fetch the stored pairs of a group. -/
def readGroup (group : Group) : Script Value Group Fault (List (Sigma Value)) := scan group done

/-- Perform one write. -/
def perform (effect : Store.Write Value) : Script Value Group Fault Unit := write effect (done ())

/-- Return a computed result, or stop. -/
def lift : Except Fault Result → Script Value Group Fault Result
  | .ok result => done result
  | .error fault => stop fault

/-- Run a script for every element of a list, in order. -/
def each {Item : Type} (action : Item → Script Value Group Fault Unit) :
    List Item → Script Value Group Fault Unit
  | [] => done ()
  | item :: rest => (action item).andThen fun _ => each action rest

/-- Run a script for every element of a list, in order, and keep what they find. -/
def gather {Item : Type} (action : Item → Script Value Group Fault (Option Result)) :
    List Item → Script Value Group Fault (List Result)
  | [] => done []
  | item :: rest => do
    let found ← action item
    let others ← gather action rest
    done (found.toList ++ others)

/-- Stop with a fault unless a condition holds. -/
def require (condition : Prop) [Decidable condition] (fault : Fault) :
    Script Value Group Fault Unit :=
  if condition then done () else stop fault

/-- A script that never writes. -/
def Reads : Script Value Group Fault Result → Prop
  | done _ => True
  | stop _ => True
  | get _ next => ∀ value, (next value).Reads
  | scan _ next => ∀ pairs, (next pairs).Reads
  | write _ _ => False

theorem Reads.andThen {script : Script Value Group Fault First} (first : script.Reads)
    (second : ∀ result, (next result).Reads) : (script.andThen next).Reads := by
  induction script with
  | done result => exact second result
  | stop => trivial
  | get key rest ih => exact fun value => ih value (first value)
  | scan group rest ih => exact fun pairs => ih pairs (first pairs)
  | write => exact first.elim

theorem reads_read (key : Key) : (read key : Script Value Group Fault _).Reads := fun _ => trivial

theorem reads_readGroup (group : Group) : (readGroup group : Script Value Group Fault _).Reads :=
  fun _ => trivial

theorem reads_lift (result : Except Fault Result) :
    (lift result : Script Value Group Fault Result).Reads := by
  cases result <;> trivial

theorem reads_require (condition : Prop) [Decidable condition] (fault : Fault) :
    (require condition fault : Script Value Group Fault Unit).Reads := by
  rw [require]
  split <;> trivial

theorem reads_each (reads : ∀ item, (action item).Reads) (items : List Item) :
    (each action items).Reads := by
  induction items with
  | nil => trivial
  | cons item rest ih => exact (reads item).andThen fun _ => ih

/-- A script whose writes are all of certain keys. -/
def Writes (allowed : Key → Prop) : Script Value Group Fault Result → Prop
  | done _ => True
  | stop _ => True
  | get _ next => ∀ value, (next value).Writes allowed
  | scan _ next => ∀ pairs, (next pairs).Writes allowed
  | write effect next => allowed effect.key ∧ next.Writes allowed

variable {allowed : Key → Prop}

theorem Writes.andThen {script : Script Value Group Fault First} (first : script.Writes allowed)
    (second : ∀ result, (next result).Writes allowed) : (script.andThen next).Writes allowed := by
  induction script with
  | done result => exact second result
  | stop fault => trivial
  | get key rest ih => exact fun value => ih value (first value)
  | scan group rest ih => exact fun pairs => ih pairs (first pairs)
  | write effect rest ih => exact ⟨first.1, ih first.2⟩

/-- A script that never writes writes only what is allowed. -/
theorem Reads.writes (reads : script.Reads) :
    script.Writes allowed := by
  induction script with
  | done => trivial
  | stop fault => trivial
  | get key rest ih => exact fun value => ih value (reads value)
  | scan group rest ih => exact fun pairs => ih pairs (reads pairs)
  | write => exact reads.elim

theorem writes_perform (permitted : allowed effect.key) :
    (perform effect : Script Value Group Fault Unit).Writes allowed := ⟨permitted, trivial⟩

theorem writes_each (writes : ∀ item, (action item).Writes allowed) (items : List Item) :
    (each action items).Writes allowed := by
  induction items with
  | nil => trivial
  | cons item rest ih => exact (writes item).andThen fun _ => ih

/-- A script that stops of its own accord with certain faults only. -/
def Stops (expected : Fault → Prop) : Script Value Group Fault Result → Prop
  | done _ => True
  | stop fault => expected fault
  | get _ next => ∀ value, (next value).Stops expected
  | scan _ next => ∀ pairs, (next pairs).Stops expected
  | write _ next => next.Stops expected

variable {expected : Fault → Prop}

theorem Stops.andThen {script : Script Value Group Fault First} (first : script.Stops expected)
    (second : ∀ result, (next result).Stops expected) : (script.andThen next).Stops expected := by
  induction script with
  | done result => exact second result
  | stop => exact first
  | get key rest ih => exact fun value => ih value (first value)
  | scan group rest ih => exact fun pairs => ih pairs (first pairs)
  | write effect rest ih => exact ih first

theorem stops_lift {result : Except Fault Result}
    (faults : ∀ fault, result = .error fault → expected fault) :
    (lift result : Script Value Group Fault Result).Stops expected := by
  cases result with
  | ok => trivial
  | error fault => exact faults fault rfl

theorem stops_each (stops : ∀ item, (action item).Stops expected) (items : List Item) :
    (each action items).Stops expected := by
  induction items with
  | nil => trivial
  | cons item rest ih => exact (stops item).andThen fun _ => ih

section Run

variable [LinearOrder Key] (covers : Group → Key → Bool) (refuses : Key → Option Fault)

/-- Run a script on an ordered store that refuses the writes of some keys. -/
def program : Script Value Group Fault Result →
    Program (Store.replay : Store Value → Store.Write Value → Store Value) Fault Result
  | done result => .ret result
  | stop fault => .fail fault
  | get key next => .andThen .view fun store => (next (store.get key)).program
  | scan group next => .andThen .view fun store => (next (store.scanGroup (covers group))).program
  | write effect next =>
    match refuses effect.key with
    | some fault => .fail fault
    | none => .andThen (.perform effect) fun _ => next.program

/-- What a script returns when its writes are left out. -/
def answer (store : Store Value) : Script Value Group Fault Result → Except Fault Result
  | done result => .ok result
  | stop fault => .error fault
  | get key next => (next (store.get key)).answer store
  | scan group next => (next (store.scanGroup (covers group))).answer store
  | write _ next => next.answer store

/-- Running one script after the other is running their programs so. -/
theorem program_andThen (script : Script Value Group Fault First)
    (next : First → Script Value Group Fault Second) :
    (script.andThen next).program covers refuses =
      (script.program covers refuses).andThen fun result =>
        (next result).program covers refuses := by
  induction script with
  | done => rfl
  | stop => rfl
  | get key rest ih | scan group rest ih =>
    simp only [andThen, program, Program.andThen_assoc]
    congr 1
    funext store
    exact ih _
  | write effect rest ih =>
    simp only [andThen, program]
    split
    · rfl
    · simp only [ih, Program.andThen_assoc]

theorem answer_andThen (store : Store Value) (script : Script Value Group Fault First)
    (next : First → Script Value Group Fault Second) :
    (script.andThen next).answer covers store =
      (script.answer covers store >>= fun result => (next result).answer covers store) := by
  induction script with
  | done result => rfl
  | stop fault => rfl
  | get key rest ih => exact ih _
  | scan group rest ih => exact ih _
  | write effect rest ih => exact ih

@[simp] theorem answer_read (store : Store Value) (key : Key) :
    (read key : Script Value Group Fault _).answer covers store = .ok (store.get key) := rfl

@[simp] theorem answer_readGroup (store : Store Value) (group : Group) :
    (readGroup group : Script Value Group Fault _).answer covers store =
      .ok (store.scanGroup (covers group)) := rfl

@[simp] theorem answer_done (store : Store Value) (result : Result) :
    (done result : Script Value Group Fault _).answer covers store = .ok result := rfl

@[simp] theorem answer_stop (store : Store Value) (fault : Fault) :
    (stop fault : Script Value Group Fault Result).answer covers store = .error fault := rfl

@[simp] theorem answer_lift (store : Store Value) (result : Except Fault Result) :
    (lift result : Script Value Group Fault Result).answer covers store = result := by
  cases result <;> rfl

/-- What is kept of scripts that all return. -/
theorem answer_gather {action : Item → Script Value Group Fault (Option Result)}
    {find : Item → Option Result} {store : Store Value}
    (found : ∀ item ∈ items, (action item).answer covers store = .ok (find item)) :
    (gather action items).answer covers store = .ok (items.filterMap find) := by
  induction items with
  | nil => rfl
  | cons item rest ih =>
    have later := ih fun other member => found other (List.mem_cons_of_mem _ member)
    rw [gather, bind_eq_andThen, answer_andThen, found item List.mem_cons_self]
    change (((gather action rest).andThen fun others =>
      done ((find item).toList ++ others)).answer covers store) = _
    rw [answer_andThen, later]
    cases here : find item with
    | none | some => simp [here, bind, Except.bind]

/-- A script that never writes leaves no journal, whatever would be refused. -/
theorem Reads.run (reads : script.Reads) (store : Store Value) :
    (script.program covers refuses).run store = ⟨[], script.answer covers store⟩ := by
  induction script with
  | done result => rfl
  | stop fault => rfl
  | get key rest ih => exact ih _ (reads _)
  | scan group rest ih => exact ih _ (reads _)
  | write effect rest ih => exact reads.elim

theorem perform_run (effect : Store.Write Value) (store : Store Value) :
    ((perform effect : Script Value Group Fault Unit).program covers refuses).run store =
      match refuses effect.key with
      | some fault => ⟨[], .error fault⟩
      | none => ⟨[effect], .ok ()⟩ := by
  simp only [perform, program]
  split <;> rfl

/-- The writes in a journal were not refused. -/
theorem refuses_of_mem_journal (script : Script Value Group Fault Result) (store : Store Value)
    (member : effect ∈ ((script.program covers refuses).run store).journal) :
    refuses effect.key = none := by
  induction script generalizing store with
  | done | stop => cases member
  | get key rest ih => exact ih _ _ member
  | scan group rest ih => exact ih _ _ member
  | write other rest ih =>
    simp only [program] at member
    split at member
    · cases member
    · next allowed =>
      rw [Program.perform_andThen_run] at member
      rcases List.mem_cons.mp member with rfl | later
      · exact allowed
      · exact ih _ later

/-- What holds of the result of a script and of the store it leaves. -/
def Ensures (script : Script Value Group Fault Result) (store : Store Value)
    (post : Except Fault Result → Store Value → Prop) : Prop :=
  post ((script.program covers refuses).run store).result
    ((script.program covers refuses).after store)

/-- What holds if a script returns, and what holds if it stops. -/
def Ends (returned : Result → Store Value → Prop) (stopped : Fault → Store Value → Prop) :
    Except Fault Result → Store Value → Prop
  | .ok result, store => returned result store
  | .error fault, store => stopped fault store

variable {covers refuses} {store : Store Value}

theorem Ensures.mono {post weaker : Except Fault Result → Store Value → Prop}
    (ensures : script.Ensures covers refuses store post)
    (weaken : ∀ result after, post result after → weaker result after) :
    script.Ensures covers refuses store weaker :=
  weaken _ _ ensures

theorem Ensures.and {first second : Except Fault Result → Store Value → Prop}
    (left : script.Ensures covers refuses store first)
    (right : script.Ensures covers refuses store second) :
    script.Ensures covers refuses store fun result after =>
      first result after ∧ second result after := ⟨left, right⟩

theorem Ensures.outcome {post : Except Fault Result → Store Value → Prop}
    (ensures : script.Ensures covers refuses store post) : ∃ result after, post result after :=
  ⟨_, _, ensures⟩

theorem ensures_andThen {script : Script Value Group Fault First}
    {post : Except Fault Second → Store Value → Prop} :
    (script.andThen next).Ensures covers refuses store post ↔
      script.Ensures covers refuses store
        (Ends (fun value after => (next value).Ensures covers refuses after post)
          fun fault after => post (.error fault) after) := by
  rcases ran : (script.program covers refuses).run store with ⟨journal, fault | value⟩
  · simp only [Ensures, Ends, Program.after, program_andThen, Program.andThen_of_stop _ ran, ran]
  · simp only [Ensures, Ends, Program.after, program_andThen, Program.andThen_of_run _ ran, ran,
      Program.replayAll_append]

/-- The rule of sequential composition. -/
theorem Ensures.andThen {script : Script Value Group Fault First}
    {middle : Except Fault First → Store Value → Prop}
    {post : Except Fault Second → Store Value → Prop}
    (first : script.Ensures covers refuses store middle)
    (failed : ∀ fault after, middle (.error fault) after → post (.error fault) after)
    (returned : ∀ value after, middle (.ok value) after →
      (next value).Ensures covers refuses after post) :
    (script.andThen next).Ensures covers refuses store post := by
  rw [ensures_andThen]
  refine first.mono fun result after holds => ?_
  cases result with
  | error fault => exact failed fault after holds
  | ok value => exact returned value after holds

/-- A script that only reads leaves the store as it is. -/
theorem Reads.ensures (reads : script.Reads) {post : Except Fault Result → Store Value → Prop} :
    script.Ensures covers refuses store post ↔ post (script.answer covers store) store := by
  simp only [Ensures, Program.after, reads.run, Program.replayAll_nil]

/-- What follows a script that only reads runs on the same store, if it returns. -/
theorem Reads.ensures_andThen {script : Script Value Group Fault First} (reads : script.Reads)
    {post : Except Fault Second → Store Value → Prop}
    (failed : ∀ fault, script.answer covers store = .error fault → post (.error fault) store)
    (returned : ∀ value, script.answer covers store = .ok value →
      (next value).Ensures covers refuses store post) :
    (script.andThen next).Ensures covers refuses store post := by
  rw [Script.ensures_andThen, reads.ensures]
  cases answered : script.answer covers store with
  | error fault => exact failed fault answered
  | ok value => exact returned value answered

theorem ensures_perform {post : Except Fault Unit → Store Value → Prop}
    (refused : ∀ fault, refuses effect.key = some fault → post (.error fault) store)
    (performed : refuses effect.key = none → post (.ok ()) (Store.replay store effect)) :
    (perform effect : Script Value Group Fault Unit).Ensures covers refuses store post := by
  simp only [Ensures, Program.after, perform_run]
  cases decided : refuses effect.key with
  | some fault => exact refused fault decided
  | none => exact performed decided

theorem ensures_perform_andThen {next : Unit → Script Value Group Fault Second}
    {post : Except Fault Second → Store Value → Prop}
    (refused : ∀ fault, refuses effect.key = some fault → post (.error fault) store)
    (performed : refuses effect.key = none →
      (next ()).Ensures covers refuses (Store.replay store effect) post) :
    ((perform effect).andThen next).Ensures covers refuses store post :=
  ensures_andThen.mpr (ensures_perform refused performed)

/-- The rule of a loop: an invariant of the items that are left, which every round
preserves, or else stops in a state of the given kind. -/
theorem ensures_each_rest (invariant : List Item → Store Value → Prop)
    (stopped : Fault → Store Value → Prop) (initially : invariant items store)
    (preserved : ∀ item rest before, invariant (item :: rest) before →
      (action item).Ensures covers refuses before (Ends (fun _ => invariant rest) stopped)) :
    (each action items).Ensures covers refuses store (Ends (fun _ => invariant []) stopped) := by
  induction items generalizing store with
  | nil => exact initially
  | cons item rest ih =>
    rw [each, ensures_andThen]
    refine (preserved item rest store initially).mono fun result after holds => ?_
    cases result with
    | error => exact holds
    | ok => exact ih holds

/-- What every round of a loop preserves holds after the loop, whether it returns or
stops. -/
theorem ensures_each (invariant : Store Value → Prop) (initially : invariant store)
    (preserved : ∀ item ∈ items, ∀ before, invariant before →
      (action item).Ensures covers refuses before fun _ after => invariant after) :
    (each action items).Ensures covers refuses store fun _ after => invariant after := by
  induction items generalizing store with
  | nil => exact initially
  | cons item rest ih =>
    refine (preserved item List.mem_cons_self store initially).andThen (fun _ _ held => held)
      fun _ after held => ?_
    exact ih held fun other member => preserved other (List.mem_cons_of_mem _ member)

/-- The journal of a script has only writes of the keys it may write. -/
theorem Writes.journal (writes : script.Writes allowed)
    (member : effect ∈ ((script.program covers refuses).run store).journal) :
    allowed effect.key := by
  induction script generalizing store with
  | done | stop => cases member
  | get key rest ih | scan group rest ih => exact ih _ (writes _) member
  | write other rest ih =>
    simp only [program] at member
    split at member
    · cases member
    · rw [Program.perform_andThen_run] at member
      rcases List.mem_cons.mp member with rfl | later
      · exact writes.1
      · exact ih writes.2 later

/-- Keys that a script does not write keep their values. -/
theorem Writes.ensures (writes : script.Writes allowed) :
    script.Ensures covers refuses store fun _ after =>
      ∀ key, ¬ allowed key → after.get key = store.get key := by
  intro key other
  apply Store.get_replayAll_of_ne
  rintro effect member rfl
  exact other (writes.journal member)

/-- If no write is refused, a script stops only of its own accord. -/
theorem Stops.ensures (stops : script.Stops expected) (unrefused : ∀ key, refuses key = none) :
    script.Ensures covers refuses store
      (Ends (fun _ _ => True) fun fault _ => expected fault) := by
  induction script generalizing store with
  | done result => trivial
  | stop => exact stops
  | get key rest ih => exact ih _ (stops _)
  | scan group rest ih => exact ih _ (stops _)
  | write effect rest ih =>
    change ((perform effect).andThen fun _ => rest).Ensures covers refuses store _
    refine ensures_perform_andThen (fun fault refused => ?_) fun _ => ih stops
    rw [unrefused] at refused
    cases refused

/-- If every write is refused, a script changes nothing. -/
theorem ensures_of_refused (script : Script Value Group Fault Result)
    (refused : ∀ key, refuses key ≠ none) :
    script.Ensures covers refuses store fun _ after => after = store := by
  have nothing : ((script.program covers refuses).run store).journal = [] :=
    List.eq_nil_iff_forall_not_mem.mpr fun effect member =>
      refused effect.key (refuses_of_mem_journal covers refuses script store member)
  rw [Ensures, Program.after, nothing]
  rfl

/-- A loop that only reads returns if every round does. -/
theorem answer_each :
    (each action items).answer covers store = .ok () ↔
      ∀ item ∈ items, (action item).answer covers store = .ok () := by
  induction items with
  | nil => simp [each]
  | cons item rest ih =>
    rw [each, answer_andThen, bind_eq_ok, List.forall_mem_cons]
    exact ⟨fun ⟨_, first, later⟩ => ⟨first, ih.mp later⟩,
      fun ⟨first, later⟩ => ⟨(), first, ih.mpr later⟩⟩

theorem answer_require {condition : Prop} [Decidable condition] {fault : Fault} :
    (require condition fault : Script Value Group Fault Unit).answer covers store = .ok () ↔
      condition := by
  by_cases holds : condition <;> simp [require, holds]

end Run

end Script

end Foundation
