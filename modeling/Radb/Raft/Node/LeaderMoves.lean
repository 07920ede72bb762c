import Radb.Raft.Node.Tracking

/-! # The leader's handlers, move by move -/

namespace Radb.Raft

open Foundation Foundation.Program

variable {σ : Type} [State σ] {input : Input} {disk : Disk σ}

variable {id : RequestID}

variable {R : Type} {readSeq lastIndex lastTerm : Nat} {command : Bytes}

theorem quorumSize_toNat (size : UInt8) : (quorumSize size).toNat = size.toNat / 2 + 1 := by
  have small := size.toNat_lt
  simp only [quorumSize, UInt8.toNat_add, UInt8.toNat_div, UInt8.reduceToNat]
  omega

theorem RawNode.clusterSize_toNat {node : RawNode R} (size : node.peers.length < 255) :
    node.clusterSize.toNat = node.peers.length + 1 := by
  simp only [clusterSize, UInt8.toNat_add, Nat.toUInt8_eq, UInt8.toNat_ofNat', UInt8.reduceToNat]
  omega

/-- The quorum value of one value per member. -/
theorem RawNode.quorumValue_moves {node : RawNode R} {memory : Node} {values : List Nat}
    (peers : memory.peers = node.peers)
    (sized : Sane input memory disk → values.length = node.peers.length + 1) :
    Moves input memory disk (node.quorumValue values) fun value reached left =>
      (reached = memory ∧ left = disk) ∧ IsQuorumValue values value := by
  simp only [RawNode.quorumValue, Raft.quorumValue, bind_eq_andThen]
  refine Tracks.require ?_ fun _ => Tracks.require ?_ fun _ => ?_
  · intro differs sane
    have small : node.peers.length < 255 := peers ▸ sane.size
    exact differs ((sized sane).trans (clusterSize_toNat small).symm)
  · intro empty sane
    have length := sized sane
    rw [not_ne_iff.mp empty] at length
    cases length
  · cases found : (values.insertionSort (· ≥ ·))[(quorumSize values.length.toUInt8).toNat - 1]? with
    | some value => exact Tracks.ret ⟨⟨rfl, rfl⟩, found⟩
    | none =>
      refine Tracks.fail fun sane => ?_
      have small : node.peers.length < 255 := peers ▸ sane.size
      have length := sized sane
      have beyond := List.getElem?_eq_none_iff.mp found
      rw [List.length_insertionSort, quorumSize_toNat, Nat.toUInt8_eq,
        UInt8.toNat_ofNat'] at beyond
      omega

namespace Leader

variable {node : RawNode Leader}

theorem getProgress_modifyProgress (leader : Leader) (peer other : NodeID)
    (change : Progress → Progress) :
    (leader.modifyProgress peer change).getProgress other =
      if other = peer then (leader.getProgress other).map change else leader.getProgress other := by
  unfold getProgress modifyProgress
  dsimp only
  induction leader.progress with
  | nil => simp
  | cons known rest ih =>
    obtain ⟨id, progress⟩ := known
    by_cases here : other = id
    · subst here
      by_cases same : other = peer <;> simp [same]
    · by_cases same : id = peer
      · simp only [List.map_cons, same, ↓reduceIte, List.lookup_cons,
          beq_eq_false_iff_ne.mpr (same ▸ here), ih]
      · simp only [List.map_cons, same, ↓reduceIte, List.lookup_cons,
          beq_eq_false_iff_ne.mpr here, ih]

theorem assert_passes : Passes input node.ofLeader disk (assert node) := by
  simp only [assert, bind_eq_andThen]
  refine Tracks.pass (RawNode.assertNode_passes rfl) fun _ => ?_
  refine Tracks.require ?_ fun _ => Tracks.read (getTerm_run disk) (Tracks.check ?_ ⟨rfl, rfl⟩)
  · intro zero sane
    exact zero sane.role.1
  · intro differs sane
    exact differs sane.role.2

theorem sendLog_passes (node : RawNode Leader) {peer : NodeID}
    (known : node.role.getProgress peer = none → ¬ Sane input node.ofLeader disk) :
    Passes input node.ofLeader disk (sendLog node peer) := by
  simp only [sendLog, bind_eq_andThen]
  cases found : node.role.getProgress peer with
  | none => exact Tracks.fail (known found)
  | some progress =>
    have send (baseIndex baseTerm : Nat) (base : Base disk progress.next baseIndex baseTerm) :
        Passes input node.ofLeader disk
          (Program.andThen (onLog (Log.scan fun index => baseIndex + 1 ≤ index)) fun entries =>
            node.send peer (.append baseIndex baseTerm entries)) := by
      obtain ⟨entries, scanned, _, _⟩ := Log.scan_spec disk.engine fun index =>
        decide (baseIndex + 1 ≤ index)
      refine Tracks.read (lift_run scanned) ?_
      exact Tracks.of_move rfl ⟨_, .replicate rfl found base scanned⟩ ⟨rfl, rfl⟩
    by_cases later : progress.next > 1
    · simp only [later, ↓reduceIte, Program.andThen_assoc]
      refine Tracks.read (get_run disk _) ?_
      cases stored : disk.entryAt (progress.next - 1) with
      | none =>
        refine Tracks.fail fun sane => ?_
        exact (sane.progress _ rfl).2.2 peer progress found later stored
      | some value => exact send _ _ (.inr ⟨later, rfl, value.2, stored⟩)
    · simp only [later, ↓reduceIte, ret_andThen]
      exact send 0 0 (.inl ⟨Nat.not_lt.mp later, rfl, rfl⟩)

theorem heartbeat_run (node : RawNode Leader) (disk : Disk σ) :
    (heartbeat node).run disk = ⟨(node.peers.insertionSort (· ≤ ·)).map fun peer =>
      .send ⟨node.id, peer, node.term,
        .heartbeat node.log.commitIndex node.log.commitTerm node.role.readSeq⟩, .ok ()⟩ :=
  each_perform_run _ _ _

theorem heartbeat_passes (node : RawNode Leader) :
    Passes input node.ofLeader disk (heartbeat node) := by
  refine moves_each_send ?_
  intro peer member
  exact .beat rfl ((List.mem_insertionSort _).mp member)

/-- Replicating the log to all peers. -/
theorem each_sendLog_passes (node : RawNode Leader) :
    Passes input node.ofLeader disk (each (fun peer => sendLog node peer) node.peers) := by
  refine Tracks.each ⟨rfl, rfl⟩ ?_
  intro peer member memory store same
  obtain ⟨rfl, rfl⟩ := same
  refine sendLog_passes node ?_
  intro unknown sane
  exact (sane.progress _ rfl).2.1 peer member unknown

/-- Applying an entry and responding to the client that wrote it, if there is one. -/
theorem respond_moves {writes : List (Nat × Write)} {entry : Entry}
    (pending : disk.Pending node.log.commitIndex entry)
    (regular : ∀ message, (State.apply disk.state entry).2 ≠ .error (.internal message)) :
    Moves input (RawNode.ofLeader { node with role := { node.role with writes } }) disk
      (Program.andThen (perform (.apply entry (State.apply disk.state entry).2)) fun _ =>
        respond node writes entry.index (State.apply disk.state entry).2)
      fun next reached left =>
        reached = RawNode.ofLeader { node with role := { node.role with writes := next } } ∧
          left = disk.replay (.apply entry (State.apply disk.state entry).2) := by
  unfold respond
  cases found : writes.lookup entry.index with
  | none => exact Tracks.act (perform_run _ _) ⟨_, .apply pending⟩ (Tracks.ret ⟨rfl, rfl⟩)
  | some write =>
    simp only [bind_eq_andThen]
    exact Tracks.act_both rfl ⟨_, .fulfill rfl pending found regular⟩ (Tracks.ret ⟨rfl, rfl⟩)

/-- Applying committed entries and responding to their clients. -/
theorem applied_moves (node : RawNode Leader) :
    Moves input node.ofLeader disk
      (RawNode.maybeApplyWith node.log node.role.writes (respond node)) fun writes reached _ =>
        reached = RawNode.ofLeader { node with role := { node.role with writes } } := by
  refine Tracks.mono (RawNode.maybeApplyWith_moves
    (fun writes => RawNode.ofLeader { node with role := { node.role with writes } })
    (fun _ => rfl) (fun _ _ _ => respond_moves) rfl) ?_
  intro _ _ _ ends
  exact ends.1

theorem maybeCommitAndApply_moves (node : RawNode Leader) :
    Moves input node.ofLeader disk (maybeCommitAndApply node) fun value reached _ =>
      reached = value.1.ofLeader := by
  simp only [maybeCommitAndApply, bind_eq_andThen]
  refine Tracks.andThen (RawNode.quorumValue_moves rfl ?_) ?_
  · intro sane
    rw [List.length_append, List.length_map, (sane.progress _ rfl).1]
    rfl
  · intro quorumIndex reached left ends
    obtain ⟨⟨rfl, rfl⟩, quorum⟩ := ends
    split
    · exact Tracks.ret rfl
    · next above =>
        refine Tracks.read (get_run _ quorumIndex) ?_
        cases stored : left.entryAt quorumIndex with
        | none =>
          refine Tracks.fail fun sane => ?_
          have member := List.mem_of_getElem? quorum
          exact sane.lastIndex _ rfl quorumIndex ((List.mem_insertionSort _).mp member)
            (by omega) stored
        | some value =>
          obtain ⟨term, command⟩ := value
          dsimp only [Option.map_some]
          split
          · next own =>
              subst own
              have forward : node.log.commitIndex < quorumIndex := Nat.not_le.mp above
              have move : Move input node.ofLeader left (.decide quorumIndex)
                  [.write (.set .commitIndex (quorumIndex, node.term))] (RawNode.ofLeader { node with
                    log := { node.log with commitIndex := quorumIndex, commitTerm := node.term } }) :=
                .decide rfl quorum forward stored
              refine Tracks.act (Log.commit_spec left node.log forward.le stored) ⟨_, move⟩ ?_
              exact Tracks.andThen (applied_moves _) fun _ _ _ ends => Tracks.ret ends
          · exact Tracks.ret rfl

theorem executeReads_moves {reads : List Read} (quorum : IsQuorumValue node.role.readSeqs readSeq) :
    Moves input (RawNode.ofLeader { node with role := { node.role with reads } }) disk
      (executeReads node readSeq reads) fun rest reached left =>
        reached = RawNode.ofLeader { node with role := { node.role with reads := rest } } ∧
          left = disk := by
  induction reads with
  | nil => exact Tracks.ret ⟨rfl, rfl⟩
  | cons read rest ih =>
    rw [executeReads]
    split
    · exact Tracks.ret ⟨rfl, rfl⟩
    · next ready =>
        have same : IsQuorumValue ({ node.role with reads := read :: rest } : Leader).readSeqs
            readSeq := quorum
        simp only [bind_eq_andThen]
        refine Tracks.view (Tracks.act_both rfl
          ⟨_, .read rfl rfl same (Nat.not_lt.mp ready)⟩ ?_)
        exact ih

theorem maybeRead_moves (node : RawNode Leader) :
    Moves input node.ofLeader disk (maybeRead node) fun value reached left =>
      (reached = value.ofLeader ∧ left = disk) ∧
        ∃ reads, value = { node with role := { node.role with reads } } := by
  unfold maybeRead
  split
  · exact Tracks.ret ⟨⟨rfl, rfl⟩, node.role.reads, rfl⟩
  · simp only [bind_eq_andThen]
    refine Tracks.andThen (RawNode.quorumValue_moves rfl ?_) ?_
    · intro sane
      rw [List.length_append, List.length_map, (sane.progress _ rfl).1]
      rfl
    · intro readSeq reached left ends
      obtain ⟨⟨rfl, rfl⟩, quorum⟩ := ends
      exact (executeReads_moves quorum).andThen fun _ _ _ ends => Tracks.ret ⟨ends, _, rfl⟩

/-- A leader that steps down aborts what it owes and moves to the new term. -/
theorem intoFollower_moves {msg : Envelope} {draw : Nat} (acting : input = .step msg)
    (later : node.term < msg.term) (drawn : electionTimeouts draw = true) :
    Moves input node.ofLeader disk (intoFollower node msg.term draw) fun value reached _ =>
      reached = value.ofFollower ∧ value.term = msg.term := by
  simp only [intoFollower, bind_eq_andThen]
  refine Tracks.require (fun regresses => absurd later.le regresses) fun _ => ?_
  refine Tracks.require (fun regresses => absurd later regresses) fun _ => ?_
  have forsake (known : Nat × Write) (rest : List (Nat × Write)) : Move input
      (RawNode.ofLeader { node with role := { node.role with writes := known :: rest } }) disk .stay
      [.send ⟨node.id, known.2.source, node.term, .clientResponse known.2.id (.error .abort)⟩]
      (RawNode.ofLeader { node with role := { node.role with writes := rest } }) :=
    @Move.forsake _ _ _ _ _ { node.role with writes := known :: rest } known rest rfl rfl
  have forsakeRead (read : Read) (rest : List Read) : Move input
      (RawNode.ofLeader { node with
        role := { node.role with writes := [], reads := read :: rest } }) disk .stay
      [.send ⟨node.id, read.source, node.term, .clientResponse read.id (.error .abort)⟩]
      (RawNode.ofLeader { node with role := { node.role with writes := [], reads := rest } }) :=
    @Move.forsakeRead _ _ _ _ _ { node.role with writes := [], reads := read :: rest } read rest
      rfl rfl
  refine (moves_drain (fun writes => RawNode.ofLeader { node with
    role := { node.role with writes } }) forsake _).andThen ?_
  intro _ reached left ends
  obtain ⟨rfl, rfl⟩ := ends
  refine (moves_drain (fun reads => RawNode.ofLeader { node with
    role := { node.role with writes := [], reads } }) forsakeRead _).andThen ?_
  intro _ reached left ends
  obtain ⟨rfl, rfl⟩ := ends
  exact Tracks.act (setTerm_run _ _ _) ⟨_, .advance acting later drawn⟩ (Tracks.ret ⟨rfl, rfl⟩)

section Receive

variable {msg : Envelope} (acting : input = .step msg) (current : msg.term = node.term)
include acting current

theorem heartbeatResponse_moves
    (received : msg.message = .heartbeatResponse lastIndex lastTerm readSeq) :
    Moves input node.ofLeader disk (heartbeatResponse node msg.source lastIndex lastTerm readSeq)
      fun value reached _ => reached = value.ofLeader := by
  have expected (sane : Sane input node.ofLeader disk) :
      readSeq ≤ node.role.readSeq ∧ node.role.getProgress msg.source ≠ none := by
    have expects := sane.expected msg acting current
    rw [received] at expects
    exact expects
  simp only [heartbeatResponse, bind_eq_andThen]
  refine Tracks.require (fun beyond sane => beyond (expected sane).1) ?_
  intro within
  -- The log is sent to the peer if it is behind.
  have replicate (value : RawNode Leader) (stays : value.role.getProgress msg.source ≠ none) :
      Moves input value.ofLeader disk
        (Program.andThen (onLog (Log.has lastIndex lastTerm)) fun has =>
          if lastIndex < value.log.lastIndex ∨ has = false then
            Program.andThen (sendLog value msg.source) fun _ => ret value
          else ret value) fun value reached _ => reached = value.ofLeader := by
    obtain ⟨found, ran, _⟩ := Log.has_spec disk lastIndex lastTerm
    refine Tracks.read ran ?_
    split
    · exact Tracks.pass (sendLog_passes value fun unknown => absurd unknown stays) fun _ =>
        Tracks.ret rfl
    · exact Tracks.ret rfl
  cases known : node.role.getProgress msg.source with
  | none => exact Tracks.fail fun sane => (expected sane).2 known
  | some progress =>
    dsimp only
    split
    · refine Tracks.silent ⟨_, .confirm acting received current rfl within⟩ ?_
      refine (maybeRead_moves { node with
        role := node.role.modifyProgress msg.source fun known =>
          { known with readSeq } }).andThen ?_
      intro value reached left ends
      obtain ⟨⟨rfl, rfl⟩, reads, rfl⟩ := ends
      have stays : (node.role.modifyProgress msg.source fun known =>
          { known with readSeq }).getProgress msg.source ≠ none := by
        rw [getProgress_modifyProgress, if_pos rfl, known]
        simp
      exact replicate _ stays
    · exact replicate node (by simp [known])

theorem appendAccepted_moves (received : msg.message = .appendResponse false lastIndex lastTerm) :
    Moves input node.ofLeader disk (appendAccepted node msg.source lastIndex lastTerm)
      fun value reached _ => reached = value.ofLeader := by
  have expected (sane : Sane input node.ofLeader disk) : lastIndex ≤ node.log.lastIndex ∧
      lastTerm ≤ node.log.lastTerm ∧ node.role.getProgress msg.source ≠ none := by
    have expects := sane.expected msg acting current
    rw [received] at expects
    exact expects
  simp only [appendAccepted, bind_eq_andThen]
  refine Tracks.require (fun beyond sane => beyond (expected sane).1) ?_
  intro within
  refine Tracks.require (fun beyond sane => beyond (expected sane).2.1) fun _ => ?_
  cases known : node.role.getProgress msg.source with
  | none => exact Tracks.fail fun sane => (expected sane).2.2 known
  | some progress =>
    dsimp only
    split
    · next above =>
        refine Tracks.silent ⟨_, .acknowledge acting received current rfl within (by omega)⟩ ?_
        exact (maybeCommitAndApply_moves { node with
          role := node.role.modifyProgress msg.source fun known =>
            { known with next := lastIndex + 1, last := lastIndex } }).andThen
              fun _ _ _ ends => Tracks.ret ends
    · exact Tracks.ret rfl

theorem appendRejected_moves (received : msg.message = .appendResponse true lastIndex lastTerm) :
    Moves input node.ofLeader disk (appendRejected node msg.source)
      fun value reached _ => reached = value.ofLeader := by
  simp only [appendRejected, bind_eq_andThen]
  refine Tracks.silent ⟨_, .probe acting received current rfl⟩ ?_
  refine Tracks.pass (sendLog_passes { node with
    role := node.role.modifyProgress msg.source fun known =>
      if known.next > 1 then { known with next := known.next - 1 } else known } ?_)
    fun _ => Tracks.ret rfl
  intro unknown sane
  have expects := sane.expected msg acting current
  rw [received] at expects
  exact expects unknown

theorem clientRead_moves (received : msg.message = .clientRequest id (.read command)) :
    Moves input node.ofLeader disk (clientRead node msg.source id command)
      fun value reached _ => reached = value.ofLeader := by
  have beat (value : RawNode Leader) : Moves input value.ofLeader disk
      (Program.andThen (heartbeat value) fun _ => ret value)
      fun value reached _ => reached = value.ofLeader :=
    Tracks.pass (heartbeat_passes value) fun _ => Tracks.ret rfl
  simp only [clientRead, bind_eq_andThen]
  refine Tracks.act (perform_run _ _) ⟨_, .enqueue acting received current rfl⟩ ?_
  split
  · refine (maybeRead_moves { node with
      role := node.role.pushRead ⟨node.role.readSeq + 1, msg.source, id, command⟩ }).andThen ?_
    intro value reached left ends
    obtain ⟨⟨rfl, rfl⟩, _⟩ := ends
    exact beat value
  · exact beat { node with
      role := node.role.pushRead ⟨node.role.readSeq + 1, msg.source, id, command⟩ }

theorem clientWrite_moves (received : msg.message = .clientRequest id (.write command)) :
    Moves input node.ofLeader disk (clientWrite node msg.source id command)
      fun value reached _ => reached = value.ofLeader := by
  simp only [clientWrite, propose, bind_eq_andThen, Program.andThen_assoc]
  refine Tracks.act (append_run disk _ _ _) ⟨_, .propose acting received current rfl⟩ ?_
  -- The write is tracked from here on; replication does not look at it.
  refine Tracks.pass (each_sendLog_passes { node with
    log := { node.log with lastIndex := node.log.lastIndex + 1, lastTerm := node.term }
    role := node.role.insertWrite (node.log.lastIndex + 1) { source := msg.source, id } })
    fun _ => ?_
  simp only [ret_andThen]
  split
  · exact (maybeCommitAndApply_moves { node with
      log := { node.log with lastIndex := node.log.lastIndex + 1, lastTerm := node.term }
      role := node.role.insertWrite (node.log.lastIndex + 1)
        { source := msg.source, id } }).andThen fun _ _ _ ends => Tracks.ret ends
  · exact Tracks.ret rfl

theorem clientStatus_moves (received : msg.message = .clientRequest id .status) :
    Moves input node.ofLeader disk (clientStatus node msg.source id)
      fun value reached _ => reached = value.ofLeader := by
  simp only [clientStatus, bind_eq_andThen]
  exact Tracks.view (Tracks.act (perform_run _ _) ⟨_, .report acting received current rfl _⟩
    (Tracks.ret rfl))

theorem receive_moves : Moves input node.ofLeader disk (receive node msg)
    fun value reached _ => reached = value.ofLeader := by
  have unexpected (message : Message) (received : msg.message = message)
      (refused : ¬ (Role.leader node.role).Expects node.ofLeader msg message) :
      ¬ Sane input node.ofLeader disk := by
    intro sane
    have expects := sane.expected msg acting current
    rw [received] at expects
    exact refused expects
  unfold receive
  dsimp only
  split
  case h_1 received => exact Tracks.fail (unexpected _ received id)
  case h_2 received => exact Tracks.fail (unexpected _ received id)
  case h_3 received => exact heartbeatResponse_moves acting current received
  case h_4 received => exact appendAccepted_moves acting current received
  case h_5 received => exact appendRejected_moves acting current received
  case h_6 received => exact clientRead_moves acting current received
  case h_7 received => exact clientWrite_moves acting current received
  case h_8 received => exact clientStatus_moves acting current received
  case h_9 => exact Tracks.ret rfl
  case h_10 => exact Tracks.ret rfl
  case h_11 received => exact Tracks.fail (unexpected _ received id)

end Receive

theorem tick_moves (node : RawNode Leader) : Moves input node.ofLeader disk (tick node)
    fun value reached _ => reached = value := by
  simp only [tick, bind_eq_andThen]
  refine Tracks.pass assert_passes fun _ => ?_
  split
  · refine Tracks.pass (heartbeat_passes node) fun _ => ?_
    exact Tracks.silent ⟨_, .idle (.lead _ 0)⟩ (Tracks.ret rfl)
  · exact Tracks.silent ⟨_, .idle (.lead _ _)⟩ (Tracks.ret rfl)

end Leader

end Radb.Raft
