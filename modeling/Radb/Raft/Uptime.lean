import Radb.Raft.Assertions

/-! # Nodes that never restart

If no node restarts, whoever was elected in a term still leads it or has left it, and whoever
forwarded a request still follows the same leader or has left the term. Every message is
then admitted, and no assertion ever fails.
-/

namespace Radb.Raft

open Foundation Foundation.Program Foundation.Consensus

variable {σ : Type} [State σ]
  {source target : NodeID} {term : Nat}
  {leader : Leader} {id : RequestID} {response : Except Error Response} {act : Act}
  {node : Node}

/-- The leader has a pending request of a node. -/
def Leader.Owes (leader : Leader) (source : NodeID) : Prop :=
  (∃ known ∈ leader.writes, known.2.source = source) ∨ ∃ read ∈ leader.reads, read.source = source

/-- A node processes a client's request of the current term that came from a node. -/
def Input.Asks (input : Input) (term : Nat) (source : NodeID) : Prop :=
  ∃ msg id request, input = .step msg ∧ msg.message = .clientRequest id request ∧
    msg.term = term ∧ msg.source = source

theorem Leader.Owes.mono {other : Leader} (owed : leader.Owes source)
    (writes : ∀ known ∈ leader.writes, known ∈ other.writes)
    (reads : ∀ read ∈ leader.reads, read ∈ other.reads) : other.Owes source :=
  owed.imp (fun ⟨known, found, same⟩ => ⟨known, writes known found, same⟩)
    fun ⟨read, found, same⟩ => ⟨read, reads read found, same⟩

section Moves

variable {input : Input} {node next : Node} {disk : Disk σ} {act : Act} {effects : List Effect}
  (moved : Move input node disk act effects next)
include moved

/-- Clients are answered at the node itself, or where a pending or current request came
from. -/
theorem Move.of_clientResponse {envelope : Envelope} (sent : Effect.send envelope ∈ effects)
    (shape : envelope.message = .clientResponse id response) :
    envelope.target = node.id ∨
      (∃ leader, node.role = .leader leader ∧ leader.Owes envelope.target) ∨
      input.Asks node.term envelope.target := by
  cases moved with
  | relay | discard | decline =>
    cases List.mem_singleton.mp sent
    exact .inl rfl
  | @fulfill leader entry write role pending tracked =>
    obtain rfl : envelope = _ := by simpa using sent
    obtain ⟨before, after, split, _⟩ := List.lookup_eq_some_iff.mp tracked
    exact .inr (.inl ⟨_, role, .inl ⟨(entry.index, write), by simp [split], rfl⟩⟩)
  | forsake role front =>
    cases List.mem_singleton.mp sent
    exact .inr (.inl ⟨_, role, .inl ⟨_, by simp [front], rfl⟩⟩)
  | forsakeRead role front =>
    cases List.mem_singleton.mp sent
    exact .inr (.inl ⟨_, role, .inr ⟨_, by simp [front], rfl⟩⟩)
  | read role front =>
    obtain rfl : envelope = _ := by simpa using sent
    exact .inr (.inl ⟨_, role, .inr ⟨_, by simp [front], rfl⟩⟩)
  | report acting asked current | abort acting asked current =>
    cases List.mem_singleton.mp sent
    exact .inr (.inr ⟨_, _, _, acting, asked, current, rfl⟩)
  | lead =>
    simp only [List.mem_append, List.mem_map, Effect.send.injEq, List.mem_singleton,
      reduceCtorEq, or_false] at sent
    obtain ⟨peer, _, rfl⟩ := sent
    cases shape
  | accept =>
    simp only [List.mem_append, List.mem_map, reduceCtorEq, and_false, exists_false,
      List.mem_singleton, Effect.send.injEq, false_or] at sent
    rw [sent] at shape
    cases shape
  | _ =>
    simp only [List.mem_cons, List.not_mem_nil, reduceCtorEq, Effect.send.injEq, or_false,
      false_or] at sent
    try (rw [sent] at shape; cases shape)

/-- A leader's pending requests are the ones it had and the one it processes. -/
theorem Move.owes {after : Leader} (leads : next.role = .leader after) (owed : after.Owes source) :
    next.term = node.term ∧ ((∃ before, node.role = .leader before ∧ before.Owes source) ∨
      input.Asks node.term source) := by
  -- Moves after which nothing more is pending than before.
  have fewer {before other : Leader} (role : node.role = .leader before)
      (same : Role.leader other = .leader after)
      (writes : ∀ known ∈ other.writes, known ∈ before.writes)
      (reads : ∀ read ∈ other.reads, read ∈ before.reads) :
      (∃ before, node.role = .leader before ∧ before.Owes source) ∨
        input.Asks node.term source := by
    cases same
    exact .inl ⟨before, role, owed.mono writes reads⟩
  cases moved with
  | idle idles =>
    obtain ⟨before, role, same⟩ := idles.leader leads
    refine ⟨rfl, fewer role (congrArg Role.leader same.symm) (fun _ => id) fun _ => id⟩
  | lead =>
    cases leads
    rcases owed with ⟨known, found, _⟩ | ⟨read, found, _⟩
    · cases found
    · cases found
  | fulfill role => exact ⟨rfl, fewer role leads (fun _ => List.mem_of_mem_filter) fun _ => id⟩
  | propose acting asked current role =>
    refine ⟨rfl, ?_⟩
    cases leads
    rcases owed with ⟨known, found, same⟩ | read
    · rcases List.mem_append.mp found with old | new
      · exact .inl ⟨_, role, .inl ⟨known, List.mem_of_mem_filter old, same⟩⟩
      · cases List.mem_singleton.mp new
        exact .inr ⟨_, _, _, acting, asked, current, same⟩
    · exact .inl ⟨_, role, .inr read⟩
  | enqueue acting asked current role =>
    refine ⟨rfl, ?_⟩
    cases leads
    rcases owed with write | ⟨read, found, same⟩
    · exact .inl ⟨_, role, .inl write⟩
    · rcases List.mem_append.mp found with old | new
      · exact .inl ⟨_, role, .inr ⟨read, old, same⟩⟩
      · cases List.mem_singleton.mp new
        exact .inr ⟨_, _, _, acting, asked, current, same⟩
  | confirm _ _ _ role | acknowledge _ _ _ role | probe _ _ _ role =>
    exact ⟨rfl, fewer role leads (fun _ => id) fun _ => id⟩
  | forsake role => exact ⟨rfl, fewer role leads (fun _ found => by simp_all) fun _ => id⟩
  | forsakeRead role | read role =>
    exact ⟨rfl, fewer role leads (fun _ => id) fun _ found => by simp_all⟩
  | relay | discard | advance | follow | concede | stand | grant | poll | forward => cases leads
  | _ => exact ⟨rfl, .inl ⟨after, leads, owed⟩⟩

end Moves

/-- A member forwarded a request to a node in a term. -/
def Forwarded (history : List (NodeID × Effect)) (source target : NodeID) (term : Nat) : Prop :=
  ∃ id request, (source, Effect.send ⟨source, target, term, .clientRequest id request⟩) ∈ history

theorem Forwarded.mono {history : List (NodeID × Effect)}
    (forwarded : Forwarded history source target term) (more : List (NodeID × Effect)) :
    Forwarded (history ++ more) source target term := by
  obtain ⟨id, request, sent⟩ := forwarded
  exact ⟨id, request, List.mem_append_left _ sent⟩

/-- Members still are what they were in their term, and only answer whom they were asked by. -/
structure Attends (cluster : Cluster σ) (s : Agreement) : Prop where
  leads : ∀ {term member}, s.leader term = some member → s.term member = term →
    ∃ node, (cluster.processes member).node = some node ∧ node.role.isLeader = true
  forwarded : ∀ {source target term}, Forwarded cluster.history source target term →
    s.leader term = some target ∧ source ≠ target ∧ term ≤ s.term source ∧
      (s.term source = term → ∃ node, (cluster.processes source).node = some node ∧
        node.role.follows target = true)
  owes : ∀ {member node leader source}, (cluster.processes member).node = some node →
    node.role = .leader leader → leader.Owes source →
      source = member ∨ Forwarded cluster.history source member node.term
  answers : ∀ {source target term id response},
    (source, Effect.send ⟨source, target, term, .clientResponse id response⟩) ∈ cluster.history →
      target = source ∨ Forwarded cluster.history target source term

theorem Act.leader_perform (other : act ≠ .lead) (s : Agreement) (member : NodeID) :
    (act.perform s member).leader = s.leader := by
  cases act with
  | lead => exact absurd rfl other
  | _ => rfl

namespace Attends

variable {config : Config} {cluster : Cluster σ} {s : Agreement} (attends : Attends cluster s)
  (mirror : Mirrors config cluster s) (tidy : Tidy config cluster s) {member : NodeID}
  {node next : Node} (up : (cluster.processes member).node = some node)
  {discipline : Discipline σ} {input : Input} {act : Act} {effects : List Effect}
  (acting : Cluster.Acting discipline cluster member input)
  (moved : Move input node (cluster.processes member).disk act effects next)

include mirror acting in
theorem asks (asked : input.Asks term source) :
    source = member ∨ Forwarded cluster.history source member term := by
  obtain ⟨msg, id, request, rfl, shape, rfl, rfl⟩ := asked
  obtain ⟨target, ⟨own, _⟩ | ⟨_, _, position, found, _⟩⟩ := acting
  · exact .inl own
  · right
    obtain ⟨⟨sender, sent⟩, _, _⟩ := mem_link.mp (List.mem_of_getElem? found)
    obtain ⟨source, _, term, message⟩ := msg
    obtain rfl : source = sender := (mirror.elects.sender sent).1
    dsimp only at shape target
    subst shape target
    exact ⟨id, request, sent⟩

include attends mirror up acting moved

theorem leads_move (after : Mirrors config (cluster.record member effects (some next))
      (act.perform s member)) (frame : Agreement.Frame s (act.perform s member) member)
    {leader : NodeID} (leads : (act.perform s member).leader term = some leader)
    (current : (act.perform s member).term leader = term) :
    ∃ node, ((cluster.record member effects (some next)).processes leader).node = some node ∧
      node.role.isLeader = true := by
  by_cases same : leader = member
  · subst same
    rw [Cluster.processes_record_self]
    refine ⟨next, rfl, ?_⟩
    by_cases elected : act = .lead
    · subst elected
      cases moved
      rfl
    · rw [Act.leader_perform elected] at leads
      have reached := mirror.sound.leader_le leads
      have term_next := after.term_eq (by rw [Cluster.processes_record_self])
      have term_node := mirror.term_eq up
      rcases moved.stays with later | ⟨stayed, keeps, _⟩
      · omega
      · obtain ⟨other, found, leading⟩ := attends.leads leads (by omega)
        cases up.symm.trans found
        exact keeps leading
  · rw [Cluster.processes_record_of_ne same]
    rw [frame.term_eq same] at current
    exact attends.leads (frame.leader_of same leads) current

include tidy in
theorem forwarded_move (after : Mirrors config (cluster.record member effects (some next))
      (act.perform s member)) (frame : Agreement.Frame s (act.perform s member) member)
    (sent : Forwarded (cluster.record member effects (some next)).history source target term) :
    (act.perform s member).leader term = some target ∧ source ≠ target ∧
      term ≤ (act.perform s member).term source ∧
      ((act.perform s member).term source = term → ∃ node,
        ((cluster.record member effects (some next)).processes source).node = some node ∧
          node.role.follows target = true) := by
  obtain ⟨id, request, found⟩ := sent
  have term_next := after.term_eq (by rw [Cluster.processes_record_self])
  have term_node := mirror.term_eq up
  rcases List.mem_append.mp found with old | new
  · obtain ⟨leads, different, reached, follows⟩ := attends.forwarded ⟨id, request, old⟩
    refine ⟨frame.leader leads, different, reached.trans (frame.term source), ?_⟩
    intro current
    by_cases same : source = member
    · subst same
      rw [Cluster.processes_record_self]
      refine ⟨next, rfl, ?_⟩
      rcases moved.stays with later | ⟨stayed, _, keeps⟩
      · have grown := frame.term source
        omega
      · obtain ⟨other, here, following⟩ := follows (by omega)
        cases up.symm.trans here
        exact keeps target following
    · rw [Cluster.processes_record_of_ne same]
      rw [frame.term_eq same] at current
      exact follows current
  · obtain ⟨effect, performed, shape⟩ := List.mem_map.mp new
    cases shape
    obtain ⟨_, rfl, stayed, _, follower, role, follows, keeps⟩ :=
      moved.of_clientRequest performed rfl
    have clean := tidy.role up
    rw [role] at clean
    refine ⟨frame.leader (mirror.follows_leader up role follows), ?_, by omega, ?_⟩
    · exact (clean.2.2 target follows).1.symm
    · intro _
      rw [Cluster.processes_record_self]
      exact ⟨next, rfl, keeps⟩

theorem owes_move {other : NodeID} {found : Node}
    (running : ((cluster.record member effects (some next)).processes other).node = some found)
    (role : found.role = .leader leader) (owed : leader.Owes source) :
    source = other ∨
      Forwarded (cluster.record member effects (some next)).history source other found.term := by
  by_cases same : other = member
  · subst same
    rw [Cluster.processes_record_self] at running
    cases running
    obtain ⟨term, before⟩ := moved.owes role owed
    rw [term]
    rcases before with ⟨before, was, pending⟩ | asked
    · exact (attends.owes up was pending).imp_right fun sent => sent.mono _
    · exact (asks mirror acting asked).imp_right fun sent => sent.mono _
  · rw [Cluster.processes_record_of_ne same] at running
    exact (attends.owes running role owed).imp_right fun sent => sent.mono _

theorem answers_move
    (sent : (source, Effect.send ⟨source, target, term, .clientResponse id response⟩) ∈
      (cluster.record member effects (some next)).history) :
    target = source ∨
      Forwarded (cluster.record member effects (some next)).history target source term := by
  rcases List.mem_append.mp sent with old | new
  · exact (attends.answers old).imp_right fun sent => sent.mono _
  · obtain ⟨effect, performed, shape⟩ := List.mem_map.mp new
    cases shape
    have current := moved.term_of_send performed
    dsimp only at current
    subst current
    rcases moved.of_clientResponse performed rfl with own | ⟨leader, role, owed⟩ | asked
    · exact .inl (own.trans (mirror.elects.node up).2.1)
    · exact (attends.owes up role owed).imp_right fun sent => sent.mono _
    · exact (asks mirror acting asked).imp_right fun sent => sent.mono _

omit mirror up acting moved in
/-- A node that starts was not there before, so nothing is said about it. -/
theorem boot (down : (cluster.processes member).node = none)
    (fresh : ∀ leader, node.role ≠ .leader leader) :
    Attends (cluster.record member [] (some node)) s where
  leads := by
    intro term leader leads current
    obtain ⟨other, up, leading⟩ := attends.leads leads current
    have different : leader ≠ member := fun same => by cases down.symm.trans (same ▸ up)
    exact ⟨other, by rw [Cluster.processes_record_of_ne different, up], leading⟩
  forwarded := by
    intro source target term sent
    rw [Cluster.history_record, List.map_nil, List.append_nil] at sent
    obtain ⟨leads, other, reached, follows⟩ := attends.forwarded sent
    refine ⟨leads, other, reached, ?_⟩
    intro current
    obtain ⟨found, up, following⟩ := follows current
    have different : source ≠ member := fun same => by cases down.symm.trans (same ▸ up)
    exact ⟨found, by rw [Cluster.processes_record_of_ne different, up], following⟩
  owes := by
    intro other found leader source up role owed
    rw [Cluster.history_record, List.map_nil, List.append_nil]
    by_cases same : other = member
    · subst same
      rw [Cluster.processes_record_self] at up
      cases up
      exact absurd role (fresh leader)
    · rw [Cluster.processes_record_of_ne same] at up
      exact attends.owes up role owed
  answers := by
    intro source target term id response sent
    rw [Cluster.history_record, List.map_nil, List.append_nil] at sent ⊢
    exact attends.answers sent

end Attends

/-- Links deliver in sending order, and nodes never stop. -/
def Discipline.alive : Discipline σ where
  ordered := True
  stops := False
  torn := False
  guard _ _ _ := True

/-- A cluster in which every message that is delivered is admitted. -/
structure Steady (config : Config) (cluster : Cluster σ) (s : Agreement) : Prop where
  secure : Secure config cluster s
  attends : Attends cluster s

namespace Steady

variable {config : Config} {cluster : Cluster σ} {s : Agreement}

theorem initial (config : Config) :
    Steady config (Cluster.initial : Cluster σ) State.initial where
  secure := Secure.initial config
  attends :=
    { leads := by simp [State.initial]
      forwarded := by simp [Forwarded, Cluster.initial]
      owes := by simp [Cluster.initial]
      answers := by simp [Cluster.initial] }

variable (steady : Steady config cluster s)
include steady

theorem turn {next : Cluster σ}
    (taken : Cluster.Turn config Discipline.alive cluster member act next) :
    Steady config next (act.perform s member) := by
  obtain ⟨⟨⟨replicates, confirms⟩, tidy⟩, attends⟩ := steady
  obtain ⟨enabled, after⟩ := replicates.turn trivial id taken
  refine ⟨⟨⟨after, confirms.turn replicates.mirror id taken enabled⟩,
    tidy.turn replicates.mirror id taken⟩, ?_⟩
  have mirror := replicates.mirror
  cases taken with
  | boot inside down =>
    refine attends.boot down ?_
    intro leader role
    cases role
  | move inside up acting moved =>
    have frame := Act.frame mirror.sound enabled
    exact ⟨attends.leads_move mirror up acting moved after.mirror frame,
      attends.forwarded_move mirror tidy up acting moved after.mirror frame,
      attends.owes_move mirror up acting moved, attends.answers_move mirror up acting moved⟩
  | crash inside stops => exact stops.elim
  | tear inside up acting torn => exact torn.elim
  | seek => exact ⟨attends.leads, attends.forwarded, attends.owes, attends.answers⟩

theorem turns {last : Cluster σ} (turns : Cluster.Turns config Discipline.alive cluster last) :
    ∃ next, Steady config last next := by
  induction turns with
  | refl => exact ⟨s, steady⟩
  | tail _ taken ih =>
    obtain ⟨mid, steady⟩ := ih
    obtain ⟨member, act, taken⟩ := taken
    exact ⟨_, steady.turn taken⟩

theorem admits {msg : Envelope} (up : (cluster.processes member).node = some node)
    (acting : Cluster.Acting Discipline.alive cluster member (.step msg))
    (other : msg.source ≠ member) : node.admits msg = true := by
  obtain ⟨⟨⟨replicates, _⟩, _⟩, attends⟩ := steady
  have mirror := replicates.mirror
  have term := mirror.term_eq up
  have target : msg.target = member := acting.1
  -- What is addressed to a leader.
  have leading (leads : s.leader msg.term = some member) :
      (decide (msg.term < node.term) || msg.term == node.term && node.role.isLeader) = true := by
    simp only [Bool.or_eq_true, decide_eq_true_eq, Bool.and_eq_true, beq_iff_eq]
    rcases (mirror.sound.leader_le leads).lt_or_eq with early | current
    · exact .inl (by omega)
    · obtain ⟨found, here, leader⟩ := attends.leads leads current.symm
      cases up.symm.trans here
      exact .inr ⟨by omega, leader⟩
  have sent := fun answer => mirror.received acting answer
  unfold Node.admits
  cases shape : msg.message with
  | heartbeatResponse =>
    have agrees := (sent (by simp [shape])).1
    simp only [Envelope.Agrees, shape, target] at agrees
    exact leading agrees
  | appendResponse reject =>
    have agrees := (sent (by simp [shape])).1
    cases reject with
    | false =>
      simp only [Envelope.Agrees, shape, target] at agrees
      exact leading agrees.1
    | true =>
      simp only [Envelope.Agrees, shape, target] at agrees
      exact leading agrees
  | clientRequest id request =>
    have asked : Input.Asks (.step msg) msg.term msg.source :=
      ⟨msg, id, request, rfl, shape, rfl, rfl⟩
    have forwarded := (Attends.asks mirror acting asked).resolve_left other
    exact leading (attends.forwarded forwarded).1
  | clientResponse =>
    obtain ⟨sender, found⟩ := acting.mem_history (by simp [shape])
    obtain ⟨source, _, sentTerm, message⟩ := msg
    obtain rfl : source = sender := (mirror.elects.sender found).1
    dsimp only at shape target
    subst shape target
    have forwarded := (attends.answers found).resolve_left (Ne.symm other)
    obtain ⟨_, _, reached, follows⟩ := attends.forwarded forwarded
    simp only [Bool.or_eq_true, decide_eq_true_eq, Bool.and_eq_true, beq_iff_eq]
    rcases reached.lt_or_eq with early | current
    · exact .inl (by omega)
    · obtain ⟨follower, here, following⟩ := follows current.symm
      cases up.symm.trans here
      exact .inr ⟨by omega, following⟩
  | _ => rfl

theorem returns (reliable : ∀ (state : σ) entry message,
      (State.apply state entry).2 ≠ .error (.internal message)) {event : Event} {draw : Nat}
    {program : Action σ Node} (inside : member ∈ config.nodes)
    (drawn : electionTimeouts draw = true)
    (runs : cluster.program config member draw event = some program)
    (inOrder : Label.inOrder cluster (.act member event draw none) = true) :
    ∃ node, (program.run (cluster.processes member).disk).result = .ok node := by
  have stable : (Discipline.alive : Discipline σ).Stable := fun _ _ _ => trivial
  refine steady.secure.returns trivial id stable reliable inside drawn runs ?_ ?_
  · intro source position msg same _
    subst same
    exact ⟨fun _ => of_decide_eq_true inOrder, trivial⟩
  · intro last node msg taken up acting other
    obtain ⟨_, after⟩ := steady.turns taken
    exact after.admits up acting other

end Steady

theorem steady_of_reaches {config : Config}
    (reliable : ∀ (state : σ) entry message,
      (State.apply state entry).2 ≠ .error (.internal message)) {cluster : Cluster σ}
    (reached : Reaches (Cluster.step config)
      (fun cluster label => (label.whole = true ∧ label.inOrder cluster = true) ∧
        label.lives = true) .initial cluster) : ∃ s, Steady config cluster s := by
  refine reached.invariant (fun cluster => ∃ s, Steady config cluster s)
    ⟨_, Steady.initial config⟩ ?_
  intro mid next label _ steady allowed taken
  obtain ⟨s, steady⟩ := steady
  obtain ⟨⟨whole, inOrder⟩, lives⟩ := allowed
  have stable : (Discipline.alive : Discipline σ).Stable := fun _ _ _ => trivial
  refine steady.turns (Cluster.turns_of_step stable ?_ taken)
  cases label with
  | crash => cases lives
  | act member event draw cut =>
    cases cut with
    | some => cases whole
    | none =>
      refine ⟨?_, ?_, by simp⟩
      · intro source position msg same _
        subst same
        exact ⟨fun _ => of_decide_eq_true inOrder, trivial⟩
      · -- Nothing stops, since every step so far returned.
        intro program runs
        right
        simp only [Cluster.step] at taken
        split at taken
        case isFalse => cases taken
        case isTrue valid => exact steady.returns reliable valid.1 valid.2 runs inOrder

/-- In every run over links that lose messages but deliver in sending order and without
duplication, without restarts, whatever a node does with an event of this kind returns:
no assertion fails, nothing panics and no error is returned (unless the state machine
fails). -/
theorem assertions_hold (config : Config)
    (reliable : ∀ (state : σ) entry message,
      (State.apply state entry).2 ≠ .error (.internal message)) {cluster : Cluster σ}
    (reached : Reaches (Cluster.step config)
      (fun cluster label => (label.whole = true ∧ label.inOrder cluster = true) ∧
        label.lives = true) .initial cluster)
    {member : NodeID} {event : Event} {draw : Nat} {program : Action σ Node}
    (inside : member ∈ config.nodes) (drawn : electionTimeouts draw = true)
    (runs : cluster.program config member draw event = some program)
    (inOrder : Label.inOrder cluster (.act member event draw none) = true) :
    ∃ node, (program.run (cluster.processes member).disk).result = .ok node := by
  obtain ⟨s, steady⟩ := steady_of_reaches reliable reached
  exact steady.returns reliable inside drawn runs inOrder

/-- A leader is elected, and a follower accepts its first entry. -/
def firstEntry : List Label :=
  [.boot 1, .boot 2, .boot 3] ++ Label.ticks 1 10 ++ [.deliver 1 2 0, .deliver 2 1 0,
    .deliver 1 2 1, .deliver 1 2 2]

theorem assertions_hold_accepted : ∃ (cluster : Cluster TestState) (program : _),
    Reaches (Cluster.step .three)
        (fun cluster label => (label.whole = true ∧ label.inOrder cluster = true) ∧
          label.lives = true) .initial cluster ∧
      (link cluster.history 2 1)[2]? = some ⟨2, 1, 1, .appendResponse false 1 1⟩ ∧
      cluster.program .three 1 10 (.deliver 2 2) = some program ∧
      ∃ node, (program.run (cluster.processes 1).disk).result = .ok node := by
  have passed : (execute (Cluster.step .three)
      (fun cluster label => decide ((label.whole = true ∧ label.inOrder cluster = true) ∧
        label.lives = true)) (.initial : Cluster TestState) firstEntry).map
        (fun cluster => decide (
          (link cluster.history 2 1)[2]? = some ⟨2, 1, 1, .appendResponse false 1 1⟩ ∧
          (cluster.program .three 1 10 (.deliver 2 2)).isSome = true ∧
          Label.inOrder cluster (.act 1 (.deliver 2 2) 10 none) = true)) = some true := by
    decide +kernel
  obtain ⟨cluster, run, test⟩ := exists_reaches_of_execute _ passed
  obtain ⟨sent, starts, inOrder⟩ := of_decide_eq_true test
  obtain ⟨program, runs⟩ := Option.isSome_iff_exists.mp starts
  have reached := run.mono fun _ _ allowed => of_decide_eq_true allowed
  exact ⟨cluster, program, reached, sent, runs, assertions_hold .three
    (fun _ _ _ failed => by cases failed) reached (by decide) (by decide) runs inOrder⟩

end Radb.Raft
