import Radb.Raft.Mirror

/-! # Ordered links

On links that deliver in sending order, the appends of a term reach ever farther, so that a
member never gives up what it holds of the current leader's log.
-/

namespace Radb.Raft

open Foundation Foundation.Program Foundation.Consensus Log

variable {σ : Type} [State σ]
  {after : Cluster σ}
  {baseIndex baseTerm : Nat} {node : Node} {act : Act}

/-- The index of the last entry of an append. -/
def Message.extent : Message → Option Nat
  | .append _ _ entries => entries.getLast?.map Entry.index
  | _ => none

/-- The appends of a term on a link reach ever farther, and those that are not delivered
yet reach at least as far as what the target holds. -/
structure Orders (cluster : Cluster σ) (s : Agreement) : Prop where
  extents : ∀ {source target} {early late : Nat} {first second : Envelope} {extent farther : Nat},
    (link cluster.history source target)[early]? = some first →
    (link cluster.history source target)[late]? = some second → early ≤ late →
    first.term = second.term → first.message.extent = some extent →
    second.message.extent = some farther → extent ≤ farther
  held : ∀ {source target} {position : Nat} {envelope : Envelope} {extent : Nat},
    cluster.cursor source target ≤ position →
    (link cluster.history source target)[position]? = some envelope →
    envelope.message.extent = some extent → s.held envelope.term target ≤ extent
  others : ∀ {sender envelope extent}, (sender, Effect.send envelope) ∈ cluster.history →
    envelope.message.extent = some extent → envelope.target ≠ envelope.source

theorem extent_entriesFrom {new : List Item} (filled : new ≠ []) :
    (Message.append baseIndex baseTerm (entriesFrom (baseIndex + 1) new)).extent =
      some (baseIndex + new.length) := by
  obtain ⟨before, final, rfl⟩ := (List.eq_nil_or_concat' new).resolve_left filled
  rw [Message.extent, getLast?_entriesFrom_concat, Option.map_some, List.length_append,
    List.length_singleton, Nat.add_right_comm]
  rfl

/-- What an append says about its extent. -/
theorem Envelope.Agrees.extent {s : Agreement} {envelope : Envelope} (agrees : envelope.Agrees s)
    {extent : Nat} (reaches : envelope.message.extent = some extent) :
    s.leader envelope.term = some envelope.source ∧ extent ≤ (s.ledger envelope.term).length := by
  obtain ⟨source, target, term, message⟩ := envelope
  cases message with
  | append baseIndex baseTerm entries =>
    obtain ⟨leads, new, rfl, within, _, part, _⟩ := agrees
    have filled : new ≠ [] := by
      intro empty
      rw [empty] at reaches
      cases reaches
    refine ⟨leads, ?_⟩
    dsimp only at reaches
    rw [extent_entriesFrom filled, Option.some.injEq] at reaches
    have length := part.length_le
    rw [List.length_append, List.length_take, Nat.min_eq_left within] at length
    omega
  | _ => cases reaches

namespace Orders

variable {config : Config} {cluster : Cluster σ} {s : Agreement} (orders : Orders cluster s)
  {member : NodeID} {effects : List Effect} {result : Option Node}
include orders

/-- Effects of a member that sends appends to the end of its ledger only. -/
theorem record {next : Agreement} (agrees : Agrees config cluster s)
    (sound : Sound config.nodes Prod.fst next) (frame : Agreement.Frame s next member)
    (sends : ∀ envelope, Effect.send envelope ∈ effects → ∀ extent,
      envelope.message.extent = some extent → envelope.target ≠ envelope.source ∧
        extent = (next.ledger envelope.term).length)
    (held : ∀ source position envelope extent, cluster.cursor source member ≤ position →
      (link cluster.history source member)[position]? = some envelope →
      envelope.message.extent = some extent → next.held envelope.term member ≤ extent) :
    Orders (cluster.record member effects result) next := by
  -- An envelope on a link is an old one, or one of the effects.
  have added {source target : NodeID} {position : Nat} {envelope : Envelope}
      (found : (link (cluster.record member effects result).history source target)[position]? =
        some envelope) : position < (link cluster.history source target).length ∧
          (link cluster.history source target)[position]? = some envelope ∨
        (link cluster.history source target).length ≤ position ∧
          Effect.send envelope ∈ effects := by
    rw [Cluster.history_record, link_append] at found
    by_cases old : position < (link cluster.history source target).length
    · rw [List.getElem?_append_left old] at found
      exact .inl ⟨old, found⟩
    · rw [List.getElem?_append_right (Nat.not_lt.mp old)] at found
      obtain ⟨⟨sender, sent⟩, _⟩ := mem_link.mp (List.mem_of_getElem? found)
      obtain ⟨effect, performed, shape⟩ := List.mem_map.mp sent
      cases shape
      exact .inr ⟨Nat.not_lt.mp old, performed⟩
  have bounded {source target : NodeID} {position : Nat} {envelope : Envelope} {extent : Nat}
      (found : (link cluster.history source target)[position]? = some envelope)
      (reaches : envelope.message.extent = some extent) :
      extent ≤ (next.ledger envelope.term).length := by
    obtain ⟨⟨sender, sent⟩, _⟩ := mem_link.mp (List.mem_of_getElem? found)
    exact ((agrees.sent sent).extent reaches).2.trans (frame.ledger _).length_le
  refine ⟨?_, ?_, ?_⟩
  · intro source target early late first second extent farther foundFirst foundSecond ordered same
      reachesFirst reachesSecond
    rcases added foundFirst with ⟨_, oldFirst⟩ | ⟨after, newFirst⟩
    · rcases added foundSecond with ⟨_, oldSecond⟩ | ⟨_, newSecond⟩
      · exact orders.extents oldFirst oldSecond ordered same reachesFirst reachesSecond
      · rw [(sends second newSecond farther reachesSecond).2, ← same]
        exact bounded oldFirst reachesFirst
    · rcases added foundSecond with ⟨before, _⟩ | ⟨_, newSecond⟩
      · omega
      · rw [(sends second newSecond farther reachesSecond).2,
          (sends first newFirst extent reachesFirst).2, same]
  · intro source target position envelope extent undelivered found reaches
    rcases added found with ⟨_, old⟩ | ⟨_, new⟩
    · by_cases same : target = member
      · subst same
        exact held source position envelope extent undelivered old reaches
      · rw [frame.held_eq same]
        exact orders.held undelivered old reaches
    · rw [(sends envelope new extent reaches).2]
      exact sound.held_le _ _
  · intro sender envelope extent found reaches
    rcases List.mem_append.mp found with old | new
    · exact orders.others old reaches
    · obtain ⟨effect, performed, shape⟩ := List.mem_map.mp new
      cases shape
      exact (sends envelope performed extent reaches).1

variable (mirror : Mirrors config cluster s) {discipline : Discipline σ}
include mirror

/-- An append that is delivered in order reaches at least as far as what the member holds,
and its extent is that of the entries to adopt. -/
theorem delivered {msg : Envelope} {entries : List Entry} (ordered : discipline.ordered)
    (up : (cluster.processes member).node = some node)
    (acting : Cluster.Acting discipline cluster member (.step msg))
    (received : msg.message = .append baseIndex baseTerm entries) (current : msg.term = node.term)
    (base : baseIndex = 0 ∨ (cluster.processes member).disk.Has baseIndex baseTerm)
    (some : entries ≠ []) :
    msg.message.extent = .some (baseIndex + entries.length) ∧
      s.held (s.term member) member ≤ baseIndex + entries.length ∧
      ∀ position envelope extent, cluster.cursor msg.source member ≤ position →
        (link cluster.history msg.source member)[position]? = .some envelope →
        envelope.message.extent = .some extent → envelope.term = msg.term →
          baseIndex + entries.length ≤ extent := by
  obtain ⟨new, rfl, _⟩ := mirror.appended up acting received current base
  have filled := ne_nil_of_entriesFrom some
  have reaches : msg.message.extent = .some (baseIndex + new.length) := by
    rw [received, extent_entriesFrom filled]
  obtain ⟨_, _, _, position, found, cursor⟩ := acting.sent (by simp [received])
  rw [length_entriesFrom]
  refine ⟨reaches, ?_, ?_⟩
  · rw [mirror.term_eq up, ← current]
    exact orders.held (cursor ordered).le found reaches
  · intro later envelope extent undelivered foundLater reachesLater same
    rw [cursor ordered] at undelivered
    exact orders.extents found foundLater undelivered same.symm reaches reachesLater

theorem keeps (ordered : discipline.ordered)
    (taken : Cluster.Turn config discipline cluster member act after) {count : Nat}
    (adopts : act = .adopt count) : s.held (s.term member) member ≤ count := by
  cases taken with
  | move inside up acting moved =>
    cases moved with
    | accept same received current role follows base some spliced =>
      subst same
      cases adopts
      exact (orders.delivered mirror ordered up acting received current base some).2.1
    | _ => cases adopts
  | _ => cases adopts

theorem move {input : Input} {next : Node} (ordered : discipline.ordered)
    (up : (cluster.processes member).node = some node)
    (acting : Cluster.Acting discipline cluster member input)
    (moved : Move input node (cluster.processes member).disk act effects next)
    (enabled : act.Enabled config True s member) :
    Orders (cluster.record member effects (some next)) (act.perform s member) := by
  have frame := Act.frame mirror.sound enabled
  have sound := (Agreement.sound_of_steps mirror.sound (Act.steps enabled)).1
  -- Moves that neither send entries nor change what the member holds.
  have quiet {effects : List Effect} {next : Node}
      (sends : ∀ envelope, Effect.send envelope ∈ effects → envelope.message.extent = none)
      (held : ∀ source position envelope extent, cluster.cursor source member ≤ position →
        (link cluster.history source member)[position]? = some envelope →
        envelope.message.extent = some extent →
          (act.perform s member).held envelope.term member ≤ extent) :
      Orders (cluster.record member effects (some next)) (act.perform s member) := by
    refine orders.record mirror.agrees sound frame ?_ held
    intro envelope sent extent reaches
    rw [sends envelope sent] at reaches
    cases reaches
  -- Messages of the current term with entries come from its leader.
  have leader {source : NodeID} {position : Nat} {envelope : Envelope} {extent : Nat}
      (found : (link cluster.history source member)[position]? = some envelope)
      (reaches : envelope.message.extent = some extent) :
      s.leader envelope.term = some source ∧ source ≠ member := by
    obtain ⟨⟨sender, sent⟩, rfl, target⟩ := mem_link.mp (List.mem_of_getElem? found)
    refine ⟨((mirror.agrees.sent sent).extent reaches).1, ?_⟩
    rw [← target]
    exact (orders.others sent reaches).symm
  cases moved with
  | lead role won =>
    refine quiet ?_ ?_
    · intro envelope found
      simp only [List.mem_append, List.mem_map, Effect.send.injEq, List.mem_singleton,
        reduceCtorEq, or_false] at found
      obtain ⟨peer, _, rfl⟩ := found
      rfl
    · intro source position envelope extent undelivered found reaches
      by_cases same : envelope.term = s.term member
      · have leads := (leader found reaches).1
        rw [same, enabled.1] at leads
        cases leads
      · refine le_of_eq_of_le (assign_of_ne _ _ fun both => same both.1) ?_
        exact orders.held undelivered found reaches
  | propose role =>
    refine quiet (by simp) ?_
    intro source position envelope extent undelivered found reaches
    by_cases same : envelope.term = s.term member
    · obtain ⟨leads, different⟩ := leader found reaches
      rw [same, enabled] at leads
      exact absurd (Option.some.inj leads).symm different
    · refine le_of_eq_of_le (assign_of_ne _ _ fun both => same both.1) ?_
      exact orders.held undelivered found reaches
  | accept same received current role follows base some spliced =>
    subst same
    obtain ⟨_, _, farther⟩ :=
      orders.delivered mirror ordered up acting received current base some
    refine quiet ?_ ?_
    · intro envelope found
      obtain rfl : envelope = _ := by simpa using found
      rfl
    · intro source position envelope extent undelivered found reaches
      by_cases here : envelope.term = s.term member
      · have leads := (leader found reaches).1
        rw [here, mirror.term_eq up, mirror.follows_leader up role follows] at leads
        obtain rfl := Option.some.inj leads
        rw [here, Act.held_adopt]
        refine Nat.max_le.mpr ⟨here ▸ orders.held undelivered found reaches, ?_⟩
        refine farther position envelope extent undelivered found reaches ?_
        rw [here, mirror.term_eq up, current]
      · refine le_of_eq_of_le (assign_of_ne _ _ fun both => here both.1) ?_
        exact orders.held undelivered found reaches
  | @replicate _ peer _ baseIndex _ _ role known base scanned =>
    refine orders.record mirror.agrees sound frame ?_ fun _ _ _ _ => orders.held
    intro envelope sent extent reaches
    obtain rfl : envelope = _ := by simpa using sent
    obtain ⟨inside, id, _⟩ := mirror.elects.node up
    obtain ⟨rfl, within, _⟩ := mirror.replicated up role known base scanned
    have agrees := mirror.role up
    rw [role] at agrees
    have listed := List.mem_map_of_mem (f := Prod.fst) (Leader.mem_of_getProgress known)
    rw [agrees.2.2.2.1, config.mem_peers member inside] at listed
    refine ⟨id ▸ listed.2, ?_⟩
    have filled : (s.ledger node.term).drop baseIndex ≠ [] := by
      intro empty
      rw [empty] at reaches
      cases reaches
    dsimp only at reaches
    rw [extent_entriesFrom filled, Option.some.injEq, List.length_drop] at reaches
    exact reaches.symm.trans (Nat.add_sub_cancel' within)
  | _ => exact quiet (by simp [Message.extent]) fun _ _ _ _ => orders.held

omit [State σ] mirror in
/-- The order depends on the messages sent and on the cursors only. -/
theorem of_history (history : after.history = cluster.history)
    (cursor : ∀ source target, cluster.cursor source target ≤ after.cursor source target) :
    Orders after s := by
  refine ⟨?_, ?_, ?_⟩
  · rw [history]
    exact orders.extents
  · intro source target position envelope extent undelivered
    rw [history]
    exact orders.held ((cursor source target).trans undelivered)
  · rw [history]
    exact orders.others

theorem turn (ordered : discipline.ordered) (whole : ¬ discipline.torn)
    (taken : Cluster.Turn config discipline cluster member act after)
    (enabled : act.Enabled config True s member) : Orders after (act.perform s member) := by
  cases taken with
  | boot | crash => exact orders.of_history (List.append_nil _) fun _ _ => Nat.le_refl _
  | move inside up acting moved => exact orders.move mirror ordered up acting moved enabled
  | tear inside up acting torn moved left unsent => exact absurd torn whole
  | @seek source _ position forward =>
    refine orders.of_history rfl ?_
    intro other target
    by_cases sameSource : other = source
    · subst sameSource
      by_cases sameTarget : target = member
      · subst sameTarget
        simp only [Cluster.seek, Function.update_self]
        exact forward ordered
      · simp [Cluster.seek, sameTarget]
    · simp [Cluster.seek, sameSource]

omit orders mirror in
theorem initial : Orders (Cluster.initial : Cluster σ) State.initial where
  extents := by simp [Cluster.initial, link]
  held := by simp [Cluster.initial, link]
  others := by simp [Cluster.initial]

end Orders

end Radb.Raft
