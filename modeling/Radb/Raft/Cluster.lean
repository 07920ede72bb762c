import Mathlib
import Radb.Foundation.System
import Radb.Raft.Node.Step

/-! # Clusters

The nodes of a cluster with their disks, and everything they did so far. Every sent
message stays available for delivery, so that messages may be lost, duplicated, delayed
and reordered; disciplines restrict what the environment may choose. A node that stops
with a fault or crashes loses its memory and keeps its disk, and may be started again.
-/

namespace Radb.Raft

open Foundation Foundation.Program

/-- The members of a cluster, and the peers of every member in the order in which its
set of peers is iterated over. -/
structure Config where
  nodes : Finset NodeID
  peers : NodeID → List NodeID
  nodup_peers : ∀ node ∈ nodes, (peers node).Nodup
  mem_peers : ∀ node ∈ nodes, ∀ peer, peer ∈ peers node ↔ peer ∈ nodes ∧ peer ≠ node
  size : nodes.card ≤ 255

/-- A cluster of three members. -/
def Config.three : Config where
  nodes := {1, 2, 3}
  peers node := [1, 2, 3].filter (· ≠ node)
  nodup_peers _ _ := List.Nodup.filter _ (by decide)
  mem_peers _ _ _ := by simp
  size := by decide

/-- A member's disk, and its node while it is running. -/
structure Process (σ : Type) where
  disk : Disk σ
  node : Option Node

/-- A cluster: its members, what they did in order, and for each directed link the
position behind the last message that was delivered. -/
structure Cluster (σ : Type) where
  processes : NodeID → Process σ
  history : List (NodeID × Effect)
  cursor : NodeID → NodeID → Nat

/-- What makes a member act. -/
inductive Event where
  /-- Start the node from its disk. -/
  | boot
  /-- A tick of its clock. -/
  | tick
  /-- The message sent at a position of the link from a peer. -/
  | deliver (source : NodeID) (position : Nat)
  /-- A request of a local client. -/
  | request (id : RequestID) (request : Request)
  deriving DecidableEq

/-- What the environment chooses. -/
inductive Label where
  /-- A member acts, with the election timeout it draws if it needs one. With a cut, it
  crashes after that many effects. -/
  | act (member : NodeID) (event : Event) (draw : Nat) (cut : Option Nat)
  /-- A member crashes between two steps. -/
  | crash (member : NodeID)
  deriving DecidableEq

variable {σ : Type} [State σ]

/-- An effect as a message on the link from a source to a target. -/
def Effect.onLink (source target : NodeID) : Effect → Option Envelope
  | .send envelope => if envelope.source = source ∧ envelope.target = target then some envelope
      else none
  | _ => none

/-- The messages sent from a source to a target, in sending order. -/
def link (history : List (NodeID × Effect)) (source target : NodeID) : List Envelope :=
  history.filterMap fun record => record.2.onLink source target

namespace Cluster

/-- A cluster of which no node was started yet, on empty disks. -/
def initial : Cluster σ where
  processes _ := ⟨⟨∅, State.empty⟩, none⟩
  history := []
  cursor _ _ := 0

/-- What a member does with an event, if it can happen to it. A client's request is
stepped as a message of the node to itself. -/
def program (config : Config) (cluster : Cluster σ) (member : NodeID) (draw : Nat) :
    Event → Option (Action σ Node)
  | .boot =>
    match (cluster.processes member).node with
    | some _ => none
    | none => some do
        let log ← onLog Log.new
        Node.new member (config.peers member) log draw
  | .tick => (cluster.processes member).node.map fun node => node.tick draw
  | .deliver source position =>
    match (cluster.processes member).node, (link cluster.history source member)[position]? with
    | some node, some msg => if source = member then none else some (node.step msg draw)
    | _, _ => none
  | .request id request => (cluster.processes member).node.map fun node =>
    node.step ⟨member, member, node.term, .clientRequest id request⟩ draw

/-- A member performs effects and goes on with a node, or without. -/
def record (cluster : Cluster σ) (member : NodeID) (effects : List Effect) (node : Option Node) :
    Cluster σ where
  processes := Function.update cluster.processes member
    ⟨replayAll Disk.replay (cluster.processes member).disk effects, node⟩
  history := cluster.history ++ effects.map fun effect => (member, effect)
  cursor := cluster.cursor

/-- Move the cursor of the delivered message's link behind it. -/
def consume (cluster : Cluster σ) (member : NodeID) : Event → Cluster σ
  | .deliver source position => { cluster with
      cursor := Function.update cluster.cursor source
        (Function.update (cluster.cursor source) member (position + 1)) }
  | _ => cluster

/-- A step of the cluster. -/
def step (config : Config) (cluster : Cluster σ) : Label → Option (Cluster σ)
  | .act member event draw cut =>
    if member ∈ config.nodes ∧ electionTimeouts draw then
      match cluster.program config member draw event with
      | none => none
      | some program =>
        match program.run (cluster.processes member).disk, cut with
        | ⟨journal, result⟩, none =>
          some ((cluster.record member journal result.toOption).consume member event)
        | ⟨journal, _⟩, some count =>
          some ((cluster.record member (journal.take count) none).consume member event)
    else none
  | .crash member =>
    if member ∈ config.nodes then some (cluster.record member [] none) else none

end Cluster

namespace Label

/-- Start a member. -/
def boot (member : NodeID) : Label := .act member .boot 10 none

/-- Let a member's clock tick. -/
def ticks (member : NodeID) (count : Nat) : List Label :=
  List.replicate count (.act member .tick 10 none)

/-- Deliver a message. -/
def deliver (source target : NodeID) (position : Nat) : Label :=
  .act target (.deliver source position) 10 none

/-- Submit a client's request. -/
def submit (member : NodeID) (request : Request) : Label :=
  .act member (.request [] request) 10 none

end Label

/-- Nodes crash between steps only. -/
def Label.whole : Label → Bool
  | .act _ _ _ (some _) => false
  | _ => true

/-- Every link delivers a subsequence of what was sent, in sending order. -/
def Label.inOrder (cluster : Cluster σ) : Label → Bool
  | .act member (.deliver source position) _ _ => cluster.cursor source member ≤ position
  | _ => true

/-- Nodes never crash. -/
def Label.lives : Label → Bool
  | .crash _ => false
  | _ => true

end Radb.Raft
