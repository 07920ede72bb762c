import Radb.Foundation.Program

/-! # Traces of programs

A process holds a value in memory and works on a store. Its moves change the value and
perform a few effects each. A program tracks the moves if its effects are those of a
trace of moves, whatever it returns: what is proved of every move then holds after
every effect of the program, of failing programs too.
-/

namespace Foundation

open Program

variable {Store Effect Memory Fault First Second : Type} {replay : Store → Effect → Store}

variable {last : Memory} {effects : List Effect} {value : First}
  {post : First → Memory → Store → Prop} {fault : Fault} {program : Program replay Fault First}
  {next : First → Program replay Fault Second}

/-- Moves one after the other, each on the store the ones before it left. -/
inductive Trace (replay : Store → Effect → Store)
    (move : Memory → Store → List Effect → Memory → Prop) :
    Memory → Store → List Effect → Memory → Prop where
  | nil {memory : Memory} {store : Store} : Trace replay move memory store [] memory
  | cons {memory mid last : Memory} {store : Store} {first rest : List Effect}
      (taken : move memory store first mid)
      (later : Trace replay move mid (replayAll replay store first) rest last) :
      Trace replay move memory store (first ++ rest) last

namespace Trace

variable {move : Memory → Store → List Effect → Memory → Prop}

theorem single (taken : move memory store effects last) :
    Trace replay move memory store effects last := by
  have trace : Trace replay move memory store (effects ++ []) last := cons taken nil
  rwa [List.append_nil] at trace

theorem append {mid : Memory} {first second : List Effect}
    (left : Trace replay move memory store first mid)
    (right : Trace replay move mid (replayAll replay store first) second last) :
    Trace replay move memory store (first ++ second) last := by
  induction left with
  | nil => exact right
  | cons taken _ ih =>
    rw [replayAll_append] at right
    rw [List.append_assoc]
    exact cons taken (ih right)

/-- A cut of a trace falls between two moves or inside one. -/
theorem cut {journal : List Effect} (trace : Trace replay move memory store journal last)
    (count : Nat) :
    ∃ whole part mid, journal.take count = whole ++ part ∧
      Trace replay move memory store whole mid ∧
      (part = [] ∨ ∃ rest next, rest ≠ [] ∧
        move mid (replayAll replay store whole) (part ++ rest) next) := by
  induction trace generalizing count with
  | @nil memory store => exact ⟨[], [], memory, by simp, nil, .inl rfl⟩
  | @cons memory mid last store first rest taken later ih =>
    by_cases inside : count < first.length
    · refine ⟨[], first.take count, memory, ?_, nil, .inr ⟨first.drop count, mid, ?_, ?_⟩⟩
      · rw [List.nil_append, List.take_append_of_le_length (Nat.le_of_lt inside)]
      · intro empty
        have short := List.drop_eq_nil_iff.mp empty
        omega
      · rwa [List.take_append_drop]
    · obtain ⟨whole, part, reached, split, trace, ends⟩ := ih (count - first.length)
      refine ⟨first ++ whole, part, reached, ?_, cons taken trace, ?_⟩
      · rw [List.take_append, List.take_of_length_le (Nat.not_lt.mp inside), split,
          List.append_assoc]
      · rwa [replayAll_append]

end Trace

namespace Program

/-- The program performs the effects of a trace of moves. If it returns, the value, the
memory and the store satisfy `post`; if it stops with a fault, the memory and the store
satisfy `bad`. -/
def Tracks (move : Memory → Store → List Effect → Memory → Prop) (bad : Memory → Store → Prop)
    (memory : Memory) (store : Store) (program : Program replay Fault First)
    (post : First → Memory → Store → Prop) : Prop :=
  ∃ last, Trace replay move memory store (program.run store).journal last ∧
    match (program.run store).result with
    | .ok value => post value last (replayAll replay store (program.run store).journal)
    | .error _ => bad last (replayAll replay store (program.run store).journal)

namespace Tracks

variable {move : Memory → Store → List Effect → Memory → Prop} {bad : Memory → Store → Prop}
  {memory : Memory} {store : Store}

theorem ret (holds : post value memory store) :
    Tracks move bad memory store (ret value : Program replay Fault First) post :=
  ⟨memory, .nil, holds⟩

theorem fail (faulty : bad memory store) :
    Tracks move bad memory store (fail fault : Program replay Fault First) post :=
  ⟨memory, .nil, faulty⟩

/-- A program that only reads. -/
theorem of_run (ran : program.run store = ⟨[], .ok value⟩) (holds : post value memory store) :
    Tracks move bad memory store program post := by
  refine ⟨memory, ?_, ?_⟩ <;> rw [ran]
  · exact .nil
  · exact holds

/-- A program that stops without an effect. -/
theorem of_stop (ran : program.run store = ⟨[], .error fault⟩) (faulty : bad memory store) :
    Tracks move bad memory store program post := by
  refine ⟨memory, ?_, ?_⟩ <;> rw [ran]
  · exact .nil
  · exact faulty

/-- A program that performs the effects of one move. -/
theorem of_move {next : Memory} (ran : program.run store = ⟨effects, .ok value⟩)
    (taken : move memory store effects next)
    (holds : post value next (replayAll replay store effects)) :
    Tracks move bad memory store program post := by
  refine ⟨next, ?_, ?_⟩ <;> rw [ran]
  · exact .single taken
  · exact holds

/-- A move without effects before a program. -/
theorem silent {next : Memory} (taken : move memory store [] next)
    (tracks : Tracks move bad next store program post) :
    Tracks move bad memory store program post := by
  obtain ⟨last, trace, ends⟩ := tracks
  exact ⟨last, .cons taken trace, ends⟩

theorem andThen {mid : First → Memory → Store → Prop} {post : Second → Memory → Store → Prop}
    (first : Tracks move bad memory store program mid)
    (second : ∀ value memory store, mid value memory store →
      Tracks move bad memory store (next value) post) :
    Tracks move bad memory store (andThen program next) post := by
  obtain ⟨reached, trace, ends⟩ := first
  rcases ran : program.run store with ⟨journal, fault | value⟩
  · rw [ran] at trace ends
    refine ⟨reached, ?_, ?_⟩ <;> rw [andThen_of_stop next ran]
    · exact trace
    · exact ends
  · rw [ran] at trace ends
    obtain ⟨last, later, holds⟩ := second value reached _ ends
    refine ⟨last, ?_, ?_⟩ <;> rw [andThen_of_run next ran]
    · exact trace.append later
    · simpa only [replayAll_append] using holds

/-- A program that leaves memory and store as they are, and what follows. -/
theorem pass {post : Second → Memory → Store → Prop}
    (first : Tracks move bad memory store program fun _ reached left =>
      reached = memory ∧ left = store)
    (second : ∀ value, Tracks move bad memory store (next value) post) :
    Tracks move bad memory store (Program.andThen program next) post := by
  refine first.andThen ?_
  intro value reached left ends
  obtain ⟨rfl, rfl⟩ := ends
  exact second value

theorem mono {weaker : First → Memory → Store → Prop}
    (tracks : Tracks move bad memory store program post)
    (implies : ∀ value memory store, post value memory store → weaker value memory store) :
    Tracks move bad memory store program weaker := by
  obtain ⟨last, trace, ends⟩ := tracks
  refine ⟨last, trace, ?_⟩
  split at ends
  · exact implies _ _ _ ends
  · exact ends

theorem view {next : Store → Program replay Fault First}
    (tracks : Tracks move bad memory store (next store) post) :
    Tracks move bad memory store (Program.andThen view next) post := tracks

/-- A condition that only a bad state violates. -/
theorem require {condition : Prop} [Decidable condition]
    {next : Unit → Program replay Fault First} (violated : ¬ condition → bad memory store)
    (tracks : condition → Tracks move bad memory store (next ()) post) :
    Tracks move bad memory store (Program.andThen (require condition fault) next) post := by
  by_cases holds : condition
  · rw [require_true holds, ret_andThen]
    exact tracks holds
  · rw [require_false holds, fail_andThen]
    exact fail (violated holds)

/-- A condition that only a bad state violates, at the end of a program. -/
theorem check {condition : Prop} [Decidable condition] {post : Unit → Memory → Store → Prop}
    (violated : ¬ condition → bad memory store) (holds : post () memory store) :
    Tracks move bad memory store (Program.require condition fault : Program replay Fault Unit)
      post := by
  by_cases met : condition
  · rw [require_true met]
    exact ret holds
  · rw [require_false met]
    exact fail (violated met)

/-- A program that reads, and what follows. -/
theorem read {post : Second → Memory → Store → Prop} (ran : program.run store = ⟨[], .ok value⟩)
    (tracks : Tracks move bad memory store (next value) post) :
    Tracks move bad memory store (Program.andThen program next) post := by
  have first : Tracks move bad memory store program fun found reached left =>
      found = value ∧ reached = memory ∧ left = store := of_run ran ⟨rfl, rfl, rfl⟩
  refine first.andThen ?_
  intro found reached left ends
  obtain ⟨rfl, rfl, rfl⟩ := ends
  exact tracks

/-- A program that performs the effects of one move, and what follows. -/
theorem act {reached : Memory} {post : Second → Memory → Store → Prop}
    (ran : program.run store = ⟨effects, .ok value⟩) (taken : move memory store effects reached)
    (tracks : Tracks move bad reached (replayAll replay store effects) (next value) post) :
    Tracks move bad memory store (Program.andThen program next) post := by
  have first : Tracks move bad memory store program fun found last left =>
      found = value ∧ last = reached ∧ left = replayAll replay store effects :=
    of_move ran taken ⟨rfl, rfl, rfl⟩
  refine first.andThen ?_
  intro found last left ends
  obtain ⟨rfl, rfl, rfl⟩ := ends
  exact tracks

/-- Two programs that together perform the effects of one move, and what follows. -/
theorem act_both {Third : Type} {other : First → Program replay Fault Second} {value : Second}
    {reached : Memory} {next : Second → Program replay Fault Third}
    {post : Third → Memory → Store → Prop}
    (ran : (Program.andThen program other).run store = ⟨effects, .ok value⟩)
    (taken : move memory store effects reached)
    (tracks : Tracks move bad reached (replayAll replay store effects) (next value) post) :
    Tracks move bad memory store
      (Program.andThen program fun first => Program.andThen (other first) next) post := by
  rw [← Program.andThen_assoc]
  exact act ran taken tracks

/-- A loop keeps what every round keeps. -/
theorem each {Item : Type} {action : Item → Program replay Fault Unit} {items : List Item}
    {invariant : Memory → Store → Prop} (initially : invariant memory store)
    (round : ∀ item ∈ items, ∀ memory store, invariant memory store →
      Tracks move bad memory store (action item) fun _ => invariant) :
    Tracks move bad memory store (each action items) fun _ => invariant := by
  induction items generalizing memory store with
  | nil => exact .ret initially
  | cons item rest ih =>
    exact (round item List.mem_cons_self memory store initially).andThen fun _ _ _ holds =>
      ih holds fun other member => round other (List.mem_cons_of_mem _ member)

end Tracks

end Program

end Foundation
