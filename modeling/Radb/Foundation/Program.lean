import Mathlib

/-! # Journaled programs

A journaled program reads a store and performs a sequence of effects on it. It
returns a value or stops with a fault; the effects performed before a fault stay
performed. The journal records the effects in program order, and the store a
program leaves behind is by definition the replay of its journal, so a process
that dies after any prefix of the journal leaves the replay of that prefix.
-/

namespace Foundation

/-- What running a program shows: its effects, in order, and how it ended. -/
structure Outcome (Effect Fault Value : Type) where
  journal : List Effect
  result : Except Fault Value

/-- A program over a store of type `Store` whose effects are replayed by
`replay`. -/
@[ext] structure Program {Store Effect : Type} (replay : Store → Effect → Store)
    (Fault Value : Type) where
  run : Store → Outcome Effect Fault Value

namespace Program

variable {Store Effect : Type} {replay : Store → Effect → Store} {Fault : Type}
  {First Second : Type}

variable {program : Program replay Fault First} {store : Store} {journal : List Effect}
  {value : First}

/-- The store left behind by a list of effects. -/
def replayAll (replay : Store → Effect → Store) (store : Store) (journal : List Effect) : Store :=
  journal.foldl replay store

@[simp] theorem replayAll_nil (store : Store) : replayAll replay store [] = store := rfl

@[simp] theorem replayAll_cons (store : Store) (effect : Effect) (journal : List Effect) :
    replayAll replay store (effect :: journal) =
      replayAll replay (replay store effect) journal := rfl

theorem replayAll_append (store : Store) (first second : List Effect) :
    replayAll replay store (first ++ second) =
      replayAll replay (replayAll replay store first) second :=
  List.foldl_append

/-- End with a value and no effect. -/
def ret (value : First) : Program replay Fault First := ⟨fun _ => ⟨[], .ok value⟩⟩

/-- Stop with a fault. -/
def fail (fault : Fault) : Program replay Fault First := ⟨fun _ => ⟨[], .error fault⟩⟩

/-- Perform one effect. -/
def perform (effect : Effect) : Program replay Fault Unit := ⟨fun _ => ⟨[effect], .ok ()⟩⟩

/-- Read the store. -/
def view : Program replay Fault Store := ⟨fun store => ⟨[], .ok store⟩⟩

/-- Run a program and, if it returns, the next one on the store it left. -/
def andThen (program : Program replay Fault First) (next : First → Program replay Fault Second) :
    Program replay Fault Second := ⟨fun store =>
  match program.run store with
  | ⟨journal, .error fault⟩ => ⟨journal, .error fault⟩
  | ⟨journal, .ok value⟩ =>
    match (next value).run (replayAll replay store journal) with
    | ⟨later, result⟩ => ⟨journal ++ later, result⟩⟩

instance : Monad (Program replay Fault) where
  pure := ret
  bind := andThen

/-- Run a program for every element of a list, in order. -/
def each {Item : Type} (action : Item → Program replay Fault Unit) :
    List Item → Program replay Fault Unit
  | [] => ret ()
  | item :: rest => andThen (action item) fun _ => each action rest

/-- Stop with a fault unless a condition holds. -/
def require (condition : Prop) [Decidable condition] (fault : Fault) :
    Program replay Fault Unit :=
  if condition then ret () else fail fault

/-- The store a program leaves behind. -/
def after (program : Program replay Fault First) (store : Store) : Store :=
  replayAll replay store (program.run store).journal

@[simp] theorem pure_eq_ret (value : First) :
    (pure value : Program replay Fault First) = ret value := rfl

@[simp] theorem bind_eq_andThen (program : Program replay Fault First)
    (next : First → Program replay Fault Second) : program >>= next = andThen program next := rfl

theorem andThen_of_run (next : First → Program replay Fault Second)
    (ran : program.run store = ⟨journal, .ok value⟩) :
    (andThen program next).run store =
      ⟨journal ++ ((next value).run (replayAll replay store journal)).journal,
        ((next value).run (replayAll replay store journal)).result⟩ := by
  simp only [andThen, ran]

theorem andThen_of_stop {fault : Fault} (next : First → Program replay Fault Second)
    (ran : program.run store = ⟨journal, .error fault⟩) :
    (andThen program next).run store = ⟨journal, .error fault⟩ := by
  simp only [andThen, ran]

/-- A program followed by a pure function of its value. -/
theorem andThen_ret_of_run (function : First → Second)
    (ran : program.run store = ⟨journal, .ok value⟩) :
    (andThen program fun value => ret (function value)).run store =
      ⟨journal, .ok (function value)⟩ := by
  simp only [andThen, ran, ret, List.append_nil]

/-- A pure function of a program's value changes its value only. -/
theorem andThen_ret_run (program : Program replay Fault First) (function : First → Second)
    (store : Store) :
    (andThen program fun value => ret (function value)).run store =
      ⟨(program.run store).journal, (program.run store).result.map function⟩ := by
  rcases ran : program.run store with ⟨journal, fault | value⟩
  · rw [andThen_of_stop _ ran]
    rfl
  · rw [andThen_ret_of_run _ ran]
    rfl

@[simp] theorem ret_run (value : First) (store : Store) :
    (ret value : Program replay Fault First).run store = ⟨[], .ok value⟩ := rfl

@[simp] theorem fail_run (fault : Fault) (store : Store) :
    (fail fault : Program replay Fault First).run store = ⟨[], .error fault⟩ := rfl

@[simp] theorem perform_run (effect : Effect) (store : Store) :
    (perform effect : Program replay Fault Unit).run store = ⟨[effect], .ok ()⟩ := rfl

@[simp] theorem ret_andThen (value : First) (next : First → Program replay Fault Second) :
    andThen (ret value) next = next value := rfl

@[simp] theorem fail_andThen (fault : Fault) (next : First → Program replay Fault Second) :
    andThen (fail fault) next = fail fault := rfl

@[simp] theorem view_andThen_run (next : Store → Program replay Fault Second) (store : Store) :
    (andThen view next).run store = (next store).run store := rfl

@[simp] theorem perform_andThen_run (effect : Effect)
    (next : Unit → Program replay Fault Second) (store : Store) :
    (andThen (perform effect) next).run store =
      ⟨effect :: ((next ()).run (replay store effect)).journal,
        ((next ()).run (replay store effect)).result⟩ := rfl

@[simp] theorem andThen_assoc {Third : Type} (program : Program replay Fault First)
    (next : First → Program replay Fault Second) (last : Second → Program replay Fault Third) :
    andThen (andThen program next) last =
      andThen program fun value => andThen (next value) last := by
  ext1
  funext store
  rcases ran : program.run store with ⟨journal, fault | value⟩
  · rw [andThen_of_stop _ ran, andThen_of_stop _ (andThen_of_stop _ ran)]
  · rw [andThen_of_run _ ran]
    rcases ranNext : (next value).run (replayAll replay store journal) with
      ⟨later, fault | second⟩
    · have stopped : (andThen program next).run store = ⟨journal ++ later, .error fault⟩ := by
        rw [andThen_of_run _ ran, ranNext]
      rw [andThen_of_stop _ stopped, andThen_of_stop _ ranNext]
    · have returned : (andThen program next).run store = ⟨journal ++ later, .ok second⟩ := by
        rw [andThen_of_run _ ran, ranNext]
      rw [andThen_of_run _ returned, andThen_of_run _ ranNext]
      simp only [replayAll_append, List.append_assoc]

/-- A program over a part of a larger store. -/
def lift {Large LargeEffect : Type} {largeReplay : Large → LargeEffect → Large}
    (project : Large → Store) (embed : Effect → LargeEffect)
    (program : Program replay Fault First) : Program largeReplay Fault First :=
  ⟨fun store => ⟨(program.run (project store)).journal.map embed,
    (program.run (project store)).result⟩⟩

theorem lift_run {Large LargeEffect : Type} {largeReplay : Large → LargeEffect → Large}
    {project : Large → Store} {embed : Effect → LargeEffect} {store : Large}
    {result : Except Fault First} (ran : program.run (project store) = ⟨journal, result⟩) :
    (lift project embed program : Program largeReplay Fault First).run store =
      ⟨journal.map embed, result⟩ := by
  simp only [lift, ran]

/-- The same program with its faults renamed. -/
def mapFault {Other : Type} (rename : Fault → Other) (program : Program replay Fault First) :
    Program replay Other First :=
  ⟨fun store => ⟨(program.run store).journal, (program.run store).result.mapError rename⟩⟩

theorem mapFault_of_run {Other : Type} (rename : Fault → Other)
    (ran : program.run store = ⟨journal, .ok value⟩) :
    (program.mapFault rename).run store = ⟨journal, .ok value⟩ := by
  simp only [mapFault, ran, Except.mapError]

theorem mapFault_of_stop {Other : Type} {fault : Fault} (rename : Fault → Other)
    (ran : program.run store = ⟨journal, .error fault⟩) :
    (program.mapFault rename).run store = ⟨journal, .error (rename fault)⟩ := by
  simp only [mapFault, ran, Except.mapError]

@[simp] theorem require_true {condition : Prop} [Decidable condition] (holds : condition)
    (fault : Fault) : (require condition fault : Program replay Fault Unit) = ret () :=
  if_pos holds

@[simp] theorem require_false {condition : Prop} [Decidable condition] (absent : ¬ condition)
    (fault : Fault) : (require condition fault : Program replay Fault Unit) = fail fault :=
  if_neg absent

/-- Performing one effect per list element writes exactly those effects. -/
theorem each_perform_run {Item : Type} (effect : Item → Effect) (items : List Item)
    (store : Store) :
    (each (fun item => perform (effect item)) items : Program replay Fault Unit).run store =
      ⟨items.map effect, .ok ()⟩ := by
  induction items generalizing store with
  | nil => rfl
  | cons item rest ih => simp only [each, perform_andThen_run, ih, List.map_cons]

end Program

end Foundation
