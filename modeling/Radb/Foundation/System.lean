import Mathlib

/-! # Runs of labelled systems

A system steps from state to state under labels; a discipline says which labels
the environment may choose in which states. Invariants of a disciplined system
hold in every state its runs reach.
-/

namespace Foundation

variable {State Label : Type} {step : State → Label → Option State}
  {allowed : State → Label → Prop}

variable {check : State → Label → Bool}

variable {start last state : State} {labels : List Label}

/-- The states reached from `start` by steps whose labels are allowed in the
states where they are taken. -/
inductive Reaches (step : State → Label → Option State) (allowed : State → Label → Prop)
    (start : State) : State → Prop where
  | refl : Reaches step allowed start start
  | step {mid next : State} (label : Label) (before : Reaches step allowed start mid)
      (permitted : allowed mid label) (taken : step mid label = some next) :
      Reaches step allowed start next

namespace Reaches

theorem trans {mid : State} (first : Reaches step allowed start mid)
    (second : Reaches step allowed mid last) : Reaches step allowed start last := by
  induction second with
  | refl => exact first
  | step label _ permitted taken ih => exact .step label ih permitted taken

/-- A property of the first state that allowed steps preserve holds in every
state reached. -/
theorem invariant (holds : State → Prop) (initially : holds start)
    (preserved : ∀ mid next label, Reaches step allowed start mid → holds mid →
      allowed mid label → step mid label = some next → holds next)
    (reached : Reaches step allowed start last) : holds last := by
  induction reached with
  | refl => exact initially
  | step label before permitted taken ih =>
    exact preserved _ _ label before ih permitted taken

/-- A run under a discipline is a run under every weaker one. -/
theorem mono {weaker : State → Label → Prop} (reached : Reaches step allowed start last)
    (implies : ∀ state label, allowed state label → weaker state label) :
    Reaches step weaker start last := by
  induction reached with
  | refl => exact .refl
  | step label _ permitted taken ih => exact .step label ih (implies _ _ permitted) taken

end Reaches

/-- Take a list of labels in order, if every step is possible and allowed. -/
def execute (step : State → Label → Option State) (allowed : State → Label → Bool) :
    State → List Label → Option State
  | state, [] => some state
  | state, label :: rest =>
    if allowed state label then
      match step state label with
      | some next => execute step allowed next rest
      | none => none
    else none

/-- An executed list of labels is a run. -/
theorem reaches_of_execute :
    ∀ {start last : State}, execute step check start labels = some last →
      Reaches step (fun state label => check state label = true) start last := by
  induction labels with
  | nil =>
    intro start last executed
    cases executed
    exact .refl
  | cons label rest ih =>
    intro start last executed
    unfold execute at executed
    split at executed
    case isTrue permitted =>
      cases taken : step start label with
      | none => simp only [taken, reduceCtorEq] at executed
      | some next =>
        simp only [taken] at executed
        exact (Reaches.step label .refl permitted taken).trans (ih executed)
    case isFalse => simp only [reduceCtorEq] at executed

/-- A test that the end of an executed list of labels passes is passed by a state of a
run. -/
theorem exists_reaches_of_execute (test : State → Bool)
    (passed : (execute step check start labels).map test = some true) :
    ∃ last, Reaches step (fun state label => check state label = true) start last ∧
      test last = true := by
  cases executed : execute step check start labels with
  | none => simp [executed] at passed
  | some last =>
    rw [executed] at passed
    exact ⟨last, reaches_of_execute executed, Option.some.inj passed⟩

/-! ## Systems that answer -/

section Answers

variable {Other Request Answer View : Type}

variable {respond : State → Request → Answer × State}

/-- Serve requests one after the other, and collect the answers. -/
def serve (respond : State → Request → Answer × State) :
    State → List Request → List Answer × State
  | state, [] => ([], state)
  | state, request :: rest =>
    let first := respond state request
    let later := serve respond first.2 rest
    (first.1 :: later.1, later.2)

/-- What every single request preserves holds after a list of requests. -/
theorem serve_invariant (holds : State → Prop)
    (step : ∀ state request, holds state → holds (respond state request).2)
    (initially : holds state) (requests : List Request) :
    holds (serve respond state requests).2 := by
  induction requests generalizing state with
  | nil => exact initially
  | cons request rest ih => exact ih (step state request initially)

/-- If single requests are answered alike in related states, and lead to related states,
then so are lists of requests. -/
theorem serve_simulates {model : Other → Request → Answer × Other}
    {relates : State → Other → Prop} {admitted : Request → Prop} {view : Answer → View}
    (step : ∀ state other request, relates state other → admitted request →
      view (respond state request).1 = view (model other request).1 ∧
        relates (respond state request).2 (model other request).2) {other : Other}
    (related : relates state other) (requests : List Request)
    (fit : ∀ request ∈ requests, admitted request) :
    (serve respond state requests).1.map view = (serve model other requests).1.map view ∧
      relates (serve respond state requests).2 (serve model other requests).2 := by
  induction requests generalizing state other with
  | nil => exact ⟨rfl, related⟩
  | cons request rest ih =>
    obtain ⟨alike, next⟩ := step state other request related (fit request List.mem_cons_self)
    obtain ⟨later, last⟩ := ih next fun request member =>
      fit request (List.mem_cons_of_mem _ member)
    exact ⟨congrArg₂ List.cons alike later, last⟩

end Answers

end Foundation
