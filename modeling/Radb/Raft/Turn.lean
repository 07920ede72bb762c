import Mathlib
import Radb.Raft.Cluster
import Radb.Raft.Node.StepMoves

/-! # Turns

The steps of a cluster, taken apart into the moves of its members. Whatever holds
initially and is kept by every turn holds in every state that the steps of the cluster
reach.
-/

namespace Radb.Raft

open Foundation Foundation.Program

variable {σ : Type} [State σ]

variable {program : Action σ Node}

variable {msg : Envelope} {next : Cluster σ}

/-- A granted vote. -/
def Effect.isVote : Effect → Bool
  | .send ⟨_, _, _, .campaignResponse true⟩ => true
  | _ => false

/-- What the environment is restricted to. -/
structure Discipline (σ : Type) where
  /-- Links deliver in sending order, without duplication. -/
  ordered : Prop
  /-- Nodes may crash between two moves, or stop with a fault. -/
  stops : Prop
  /-- Nodes may crash within a move, but not right after they sent a vote. -/
  torn : Prop
  /-- Which messages may be delivered to a member. -/
  guard : Cluster σ → NodeID → Envelope → Prop

namespace Cluster

variable {config : Config} {discipline : Discipline σ} {cluster : Cluster σ} {member : NodeID}

/-- Move the cursor of a link. -/
def seek (cluster : Cluster σ) (source target : NodeID) (position : Nat) : Cluster σ :=
  { cluster with
    cursor := Function.update cluster.cursor source
      (Function.update (cluster.cursor source) target position) }

/-- A member may be processing an input: a message from a peer that was sent to it, with
the cursor of the link on it, or a request of a local client. -/
def Acting (discipline : Discipline σ) (cluster : Cluster σ) (member : NodeID) : Input → Prop
  | .boot | .tick => True
  | .step msg => msg.target = member ∧
      (msg.source = member ∧ (∃ id request, msg.message = .clientRequest id request) ∨
        msg.source ≠ member ∧ discipline.guard cluster member msg ∧
          ∃ position, (link cluster.history msg.source member)[position]? = some msg ∧
            (discipline.ordered → cluster.cursor msg.source member = position))

/-- The start of a member, one of its moves, a crash between or within moves, or a change
of a cursor, with the member it is about and what it means. -/
inductive Turn (config : Config) (discipline : Discipline σ) (cluster : Cluster σ) :
    NodeID → Act → Cluster σ → Prop where
  | boot {member : NodeID} {log : Log} {draw : Nat} (inside : member ∈ config.nodes)
      (down : (cluster.processes member).node = none)
      (opened : Log.new.run (cluster.processes member).disk.engine = ⟨[], .ok log⟩)
      (drawn : electionTimeouts draw = true) :
      Turn config discipline cluster member .stay (cluster.record member [] (some
        (Node.restarted member (config.peers member) log (cluster.processes member).disk draw)))
  | move {member : NodeID} {node next : Node} {input : Input} {act : Act} {effects : List Effect}
      (inside : member ∈ config.nodes) (up : (cluster.processes member).node = some node)
      (acting : Acting discipline cluster member input)
      (moved : Move input node (cluster.processes member).disk act effects next) :
      Turn config discipline cluster member act (cluster.record member effects (some next))
  | crash {member : NodeID} (inside : member ∈ config.nodes) (stops : discipline.stops) :
      Turn config discipline cluster member .stay (cluster.record member [] none)
  | tear {member : NodeID} {node next : Node} {input : Input} {act : Act}
      {part rest : List Effect}
      (inside : member ∈ config.nodes) (up : (cluster.processes member).node = some node)
      (acting : Acting discipline cluster member input) (torn : discipline.torn)
      (moved : Move input node (cluster.processes member).disk act (part ++ rest) next)
      (left : rest ≠ []) (unsent : ∀ effect, part.getLast? = some effect → effect.isVote = false) :
      Turn config discipline cluster member .stay (cluster.record member part none)
  | seek {source target : NodeID} {position : Nat}
      (forward : discipline.ordered → cluster.cursor source target ≤ position) :
      Turn config discipline cluster target .stay (cluster.seek source target position)

/-- Turns, one after the other. -/
abbrev Turns (config : Config) (discipline : Discipline σ) :
    Cluster σ → Cluster σ → Prop :=
  Relation.ReflTransGen fun cluster next => ∃ member act, Turn config discipline cluster member act next

theorem record_record (first second : List Effect) (mid last : Option Node) :
    (cluster.record member first mid).record member second last =
      cluster.record member (first ++ second) last := by
  simp only [record, Function.update_self, Function.update_idem, replayAll_append,
    List.map_append, List.append_assoc]

theorem record_nil {node : Option Node} (same : (cluster.processes member).node = node) :
    cluster.record member [] node = cluster := by
  subst same
  simp only [record, replayAll_nil, Function.update_eq_self, List.map_nil, List.append_nil]

theorem record_seek (effects : List Effect) (node : Option Node) (source target : NodeID)
    (position : Nat) : (cluster.seek source target position).record member effects node =
      (cluster.record member effects node).seek source target position := rfl

theorem seek_seek (source target : NodeID) (first second : Nat) :
    (cluster.seek source target first).seek source target second =
      cluster.seek source target second := by
  simp only [seek, Function.update_self, Function.update_idem]

@[simp] theorem history_record (effects : List Effect) (node : Option Node) :
    (cluster.record member effects node).history =
      cluster.history ++ effects.map fun effect => (member, effect) := rfl

@[simp] theorem cursor_record (effects : List Effect) (node : Option Node) :
    (cluster.record member effects node).cursor = cluster.cursor := rfl

@[simp] theorem processes_record_self (effects : List Effect) (node : Option Node) :
    (cluster.record member effects node).processes member =
      ⟨replayAll Disk.replay (cluster.processes member).disk effects, node⟩ :=
  Function.update_self ..

theorem processes_record_of_ne {other : NodeID} (different : other ≠ member)
    (effects : List Effect) (node : Option Node) :
    (cluster.record member effects node).processes other = cluster.processes other :=
  Function.update_of_ne different ..

end Cluster

theorem link_append (history more : List (NodeID × Effect)) (source target : NodeID) :
    link (history ++ more) source target = link history source target ++ link more source target :=
  List.filterMap_append

theorem mem_link {history : List (NodeID × Effect)} {source target : NodeID} :
    msg ∈ link history source target ↔
      (∃ sender, (sender, Effect.send msg) ∈ history) ∧ msg.source = source ∧
        msg.target = target := by
  simp only [link, List.mem_filterMap, Prod.exists]
  constructor
  · intro found
    obtain ⟨sender, effect, member, sent⟩ := found
    cases effect <;> simp only [Effect.onLink, reduceCtorEq, Option.ite_none_right_eq_some] at sent
    obtain ⟨ends, same⟩ := sent
    cases same
    exact ⟨⟨sender, member⟩, ends⟩
  · intro found
    obtain ⟨⟨sender, member⟩, ends⟩ := found
    exact ⟨sender, .send msg, member, by simp [Effect.onLink, ends]⟩

namespace Cluster

variable {config : Config} {discipline : Discipline σ} {cluster : Cluster σ} {member : NodeID}

/-- A message that is no client's request was sent to the member by another one. -/
theorem Acting.sent (acting : Acting discipline cluster member (.step msg))
    (other : ∀ id request, msg.message ≠ .clientRequest id request) :
    msg.target = member ∧ msg.source ≠ member ∧ discipline.guard cluster member msg ∧
      ∃ position, (link cluster.history msg.source member)[position]? = some msg ∧
        (discipline.ordered → cluster.cursor msg.source member = position) := by
  obtain ⟨target, ⟨_, id, request, same⟩ | sent⟩ := acting
  · exact absurd same (other id request)
  · exact ⟨target, sent⟩

/-- Such a message is in the history. -/
theorem Acting.mem_history (acting : Acting discipline cluster member (.step msg))
    (other : ∀ id request, msg.message ≠ .clientRequest id request) :
    ∃ sender, (sender, Effect.send msg) ∈ cluster.history := by
  obtain ⟨_, _, _, position, found, _⟩ := acting.sent other
  exact (mem_link.mp (List.mem_of_getElem? found)).1

/-- What a member may process it may still process after a move. -/
theorem Acting.record {input : Input} (acting : Acting discipline cluster member input)
    {effects : List Effect} {node : Option Node}
    (stable : ∀ msg, input = .step msg → discipline.guard cluster member msg →
      discipline.guard (cluster.record member effects node) member msg) :
    Acting discipline (cluster.record member effects node) member input := by
  cases input with
  | boot => trivial
  | tick => trivial
  | step msg =>
    obtain ⟨target, own | ⟨other, guarded, position, found, forward⟩⟩ := acting
    · exact ⟨target, .inl own⟩
    · refine ⟨target, .inr ⟨other, stable msg rfl guarded, position, ?_, forward⟩⟩
      rw [history_record, link_append,
        List.getElem?_append_left (List.getElem?_eq_some_iff.mp found).1, found]

end Cluster

namespace Discipline

/-- Moves of a member do not invalidate that it may process its input. -/
def Stable (discipline : Discipline σ) : Prop :=
  ∀ {cluster : Cluster σ} {member : NodeID} {node next : Node} {msg : Envelope} {act : Act}
    {effects : List Effect}, discipline.guard cluster member msg →
    (cluster.processes member).node = some node →
    Move (.step msg) node (cluster.processes member).disk act effects next →
      discipline.guard (cluster.record member effects (some next)) member msg

/-- The labels that a discipline permits. -/
def Permits (config : Config) (discipline : Discipline σ) (cluster : Cluster σ) : Label → Prop
  | .act member event draw cut =>
    (∀ source position msg, event = .deliver source position →
      (link cluster.history source member)[position]? = some msg →
        (discipline.ordered → cluster.cursor source member ≤ position) ∧
          discipline.guard (cluster.seek source member position) member msg) ∧
    (∀ program, cluster.program config member draw event = some program →
      discipline.stops ∨ ∃ node, (program.run (cluster.processes member).disk).result =
        .ok node) ∧
    ∀ count, cut = some count → discipline.stops ∧ discipline.torn ∧
      ∀ program, cluster.program config member draw event = some program →
        ∀ effect, ((program.run (cluster.processes member).disk).journal.take count).getLast? =
          some effect → effect.isVote = false
  | .crash _ => discipline.stops

end Discipline

namespace Cluster

variable {config : Config} {discipline : Discipline σ} {cluster : Cluster σ} {member : NodeID}

section Refinement

variable (stable : discipline.Stable) {node last : Node} {input : Input}
  {journal : List Effect} (inside : member ∈ config.nodes)
  (up : (cluster.processes member).node = some node)
  (acting : Acting discipline cluster member input)
include stable inside up acting

theorem turns_of_trace
    (trace : Trace Disk.replay
      (fun node disk effects next => ∃ act, Move input node disk act effects next) node
      (cluster.processes member).disk journal last) :
    Turns config discipline cluster (cluster.record member journal (some last)) ∧
      Acting discipline (cluster.record member journal (some last)) member input := by
  generalize started : (cluster.processes member).disk = disk at trace
  induction trace generalizing cluster with
  | nil =>
    rw [record_nil up]
    exact ⟨.refl, acting⟩
  | @cons node mid last disk first rest taken later ih =>
    subst started
    obtain ⟨act, moved⟩ := taken
    have next : Acting discipline (cluster.record member first (some mid)) member input := by
      refine acting.record ?_
      intro msg same guarded
      subst same
      exact stable guarded up moved
    have turns := ih (by rw [processes_record_self]) next (by rw [processes_record_self])
    rw [record_record] at turns
    exact ⟨.head ⟨_, _, .move inside up acting moved⟩ turns.1, turns.2⟩

/-- A program that performs moves takes turns, whether it returns or stops. -/
theorem turns_of_run (ends : discipline.stops ∨ ∃ value,
      (program.run (cluster.processes member).disk).result = .ok value)
    (moves : Moves input node (cluster.processes member).disk program
      fun value reached _ => reached = value) :
    Turns config discipline cluster (cluster.record member
      (program.run (cluster.processes member).disk).journal
      (program.run (cluster.processes member).disk).result.toOption) := by
  obtain ⟨last, trace, reached⟩ := moves
  have turns := (turns_of_trace stable inside up acting trace).1
  cases result : (program.run (cluster.processes member).disk).result with
  | ok value =>
    rw [result] at reached
    subst reached
    exact turns
  | error fault =>
    have stops : discipline.stops := by
      refine ends.resolve_right ?_
      intro returned
      obtain ⟨value, ok⟩ := returned
      cases result.symm.trans ok
    refine turns.tail ?_
    have crash : Turn config discipline _ member .stay ((cluster.record member
      (program.run (cluster.processes member).disk).journal (some last)).record member [] none) :=
        .crash inside stops
    rw [record_record, List.append_nil] at crash
    exact ⟨_, _, crash⟩

/-- A program that performs moves takes turns up to where it is cut. -/
theorem turns_of_cut {count : Nat} (stops : discipline.stops) (torn : discipline.torn)
    (unsent : ∀ effect, ((program.run (cluster.processes member).disk).journal.take count).getLast? =
      some effect → effect.isVote = false)
    (moves : Moves input node (cluster.processes member).disk program
      fun value reached _ => reached = value) :
    Turns config discipline cluster (cluster.record member
      ((program.run (cluster.processes member).disk).journal.take count) none) := by
  obtain ⟨last, trace, _⟩ := moves
  obtain ⟨whole, part, mid, split, before, ends⟩ := trace.cut count
  obtain ⟨turns, still⟩ := turns_of_trace stable inside up acting before
  rw [split] at unsent ⊢
  refine turns.tail ?_
  rw [← record_record whole part (some mid) none]
  rcases ends with rfl | ⟨rest, next, left, act, moved⟩
  · exact ⟨_, _, .crash inside stops⟩
  · refine ⟨_, _, .tear inside (by rw [processes_record_self]) still torn
      (by rw [processes_record_self]; exact moved) left ?_⟩
    intro effect found
    refine unsent effect ?_
    rw [List.getLast?_append, found]
    rfl

end Refinement

/-- A turn in which nobody moves: a member starts, or a cursor is moved. -/
inductive Prepares (config : Config) (discipline : Discipline σ) (cluster : Cluster σ) :
    Cluster σ → Prop where
  | stay : Prepares config discipline cluster cluster
  | boot {member : NodeID} {log : Log} {draw : Nat} (inside : member ∈ config.nodes)
      (down : (cluster.processes member).node = none)
      (opened : Log.new.run (cluster.processes member).disk.engine = ⟨[], .ok log⟩)
      (drawn : electionTimeouts draw = true) :
      Prepares config discipline cluster (cluster.record member [] (some
        (Node.restarted member (config.peers member) log (cluster.processes member).disk draw)))
  | seek {source target : NodeID} {position : Nat}
      (forward : discipline.ordered → cluster.cursor source target ≤ position) :
      Prepares config discipline cluster (cluster.seek source target position)

theorem Prepares.turns (prepares : Prepares config discipline cluster next) :
    Turns config discipline cluster next := by
  cases prepares with
  | stay => exact .refl
  | boot inside down opened drawn => exact .single ⟨_, _, .boot inside down opened drawn⟩
  | seek forward => exact .single ⟨_, _, .seek forward⟩

/-- What a member in a term processes on an event. -/
def input (cluster : Cluster σ) (member : NodeID) (term : Nat) : Event → Input
  | .boot => .boot
  | .tick => .tick
  | .request id request => .step ⟨member, member, term, .clientRequest id request⟩
  | .deliver source position =>
    match (link cluster.history source member)[position]? with
    | some msg => .step msg
    | none => .tick

/-- What a member does with an event starts with a turn that makes it ready, goes on with
moves, and ends with a turn that consumes the event. -/
theorem engage {event : Event} {draw : Nat}
    (delivers : ∀ source position msg, event = .deliver source position →
      (link cluster.history source member)[position]? = some msg →
        (discipline.ordered → cluster.cursor source member ≤ position) ∧
          discipline.guard (cluster.seek source member position) member msg)
    (inside : member ∈ config.nodes) (drawn : electionTimeouts draw = true)
    (runs : cluster.program config member draw event = some program) :
    ∃ start node, ∃ body : Action σ Node, Prepares config discipline cluster start ∧
      (start.processes member).node = some node ∧
      (start.processes member).disk = (cluster.processes member).disk ∧
      Acting discipline start member (cluster.input member node.term event) ∧
      body.run (start.processes member).disk = program.run (start.processes member).disk ∧
      Moves (cluster.input member node.term event) node (start.processes member).disk body
        (fun value reached _ => reached = value) ∧
      ∀ effects result, Prepares config discipline (start.record member effects result)
        ((cluster.record member effects result).consume member event) := by
  cases event with
  | boot =>
    cases down : (cluster.processes member).node with
    | some node => simp [Cluster.program, down] at runs
    | none =>
      obtain ⟨log, opened⟩ := Log.new_spec (cluster.processes member).disk.engine
      simp only [Cluster.program, down, Option.some.injEq] at runs
      subst runs
      refine ⟨_, _, Node.new member (config.peers member) log draw,
        .boot inside down opened drawn, by rw [processes_record_self],
        by rw [processes_record_self, replayAll_nil], trivial, ?_, ?_, ?_⟩
      · rw [processes_record_self]
        have booted : (andThen (onLog Log.new) fun log =>
            Node.new member (config.peers member) log draw).run
              (cluster.processes member).disk = _ := andThen_of_run _ (lift_run opened)
        exact booted.symm
      · rw [processes_record_self]
        exact Node.new_moves member (config.peers member) log drawn
      · intro effects result
        rw [record_record]
        exact .stay
  | tick =>
    cases up : (cluster.processes member).node with
    | none => simp [Cluster.program, up] at runs
    | some node =>
      simp only [Cluster.program, up, Option.map_some, Option.some.injEq] at runs
      subst runs
      exact ⟨cluster, node, _, .stay, up, rfl, trivial, rfl,
        Node.tick_moves node drawn, fun _ _ => .stay⟩
  | request id request =>
    cases up : (cluster.processes member).node with
    | none => simp [Cluster.program, up] at runs
    | some node =>
      simp only [Cluster.program, up, Option.map_some, Option.some.injEq] at runs
      subst runs
      exact ⟨cluster, node, _, .stay, up, rfl,
        ⟨rfl, .inl ⟨rfl, id, request, rfl⟩⟩, rfl, Node.step_moves node _ drawn,
        fun _ _ => .stay⟩
  | deliver source position =>
    cases up : (cluster.processes member).node with
    | none => simp [Cluster.program, up] at runs
    | some node =>
      cases found : (link cluster.history source member)[position]? with
      | none => simp [Cluster.program, up, found] at runs
      | some msg =>
        simp only [Cluster.program, up, found, Option.ite_none_left_eq_some,
          Option.some.injEq] at runs
        obtain ⟨different, rfl⟩ := runs
        obtain ⟨forward, guarded⟩ := delivers source position msg rfl found
        obtain ⟨_, rfl, target⟩ := mem_link.mp (List.mem_of_getElem? found)
        have stepped : cluster.input member node.term (.deliver msg.source position) =
            .step msg := by
          simp only [input, found]
        refine ⟨cluster.seek msg.source member position, node, _, .seek forward, up, rfl, ?_,
          rfl, ?_, ?_⟩
        · rw [stepped]
          refine ⟨target, .inr ⟨different, guarded, position, found, ?_⟩⟩
          intro _
          simp only [seek, Function.update_self]
        · rw [stepped]
          exact Node.step_moves node msg drawn
        · intro effects result
          rw [record_seek]
          have sought : (cluster.record member effects result).consume member
              (.deliver msg.source position) = ((cluster.record member effects result).seek
                msg.source member position).seek msg.source member (position + 1) :=
            (seek_seek ..).symm
          rw [sought]
          refine .seek fun _ => ?_
          simp only [seek, Function.update_self, Nat.le_add_right]

/-- The steps of a cluster are turns. -/
theorem turns_of_step (stable : discipline.Stable) {label : Label}
    (permitted : discipline.Permits config cluster label)
    (taken : cluster.step config label = some next) : Turns config discipline cluster next := by
  cases label with
  | crash member =>
    simp only [step, Option.ite_none_right_eq_some, Option.some.injEq] at taken
    obtain ⟨inside, rfl⟩ := taken
    exact .single ⟨_, _, .crash inside permitted⟩
  | act member event draw cut =>
    simp only [step] at taken
    split at taken
    case isFalse => cases taken
    case isTrue valid =>
      obtain ⟨inside, drawn⟩ := valid
      cases runs : cluster.program config member draw event with
      | none => simp [runs] at taken
      | some program =>
        rw [runs] at taken
        obtain ⟨start, node, body, before, up, disk, acting, same, moves, after⟩ :=
          engage permitted.1 inside drawn runs
        rw [disk] at same
        cases cut with
        | none =>
          simp only [Option.some.injEq] at taken
          subst taken
          have ends := permitted.2.1 program runs
          rw [← same, ← disk] at ends
          have turns := turns_of_run stable inside up acting ends moves
          rw [disk, same] at turns
          exact (before.turns.trans turns).trans (after _ _).turns
        | some count =>
          simp only [Option.some.injEq] at taken
          subst taken
          obtain ⟨stops, torn, unsent⟩ := permitted.2.2 count rfl
          have kept := unsent program runs
          rw [← same, ← disk] at kept
          have turns := turns_of_cut stable inside up acting stops torn kept moves
          rw [disk, same] at turns
          exact (before.turns.trans turns).trans (after _ _).turns

/-- The runs of a cluster under a discipline consist of turns. -/
theorem turns_of_reaches (stable : discipline.Stable) {allowed : Cluster σ → Label → Prop}
    (permitted : ∀ cluster label, allowed cluster label →
      discipline.Permits config cluster label) {start last : Cluster σ}
    (reached : Reaches (step config) allowed start last) :
    Turns config discipline start last := by
  induction reached with
  | refl => exact .refl
  | step label _ permits taken ih =>
    exact ih.trans (turns_of_step stable (permitted _ _ permits) taken)

end Cluster

end Radb.Raft
