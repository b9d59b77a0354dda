import Enlistment.Caller.Call
import Enlistment.Node
import Enlistment.Simulation.Script

/-!
# Simulated clusters

A world holds an enlister, the nodes it talks to and their views of the topology. Its
clock is virtual. The nodes share one view, and the enlister looks at it, too, unless
it has a view of its own. What happens at one time happens in turns, in each of which
only so many waits come to an end.
-/

namespace Enlistment.Simulation

/-- The record of a request that was handed to the network. -/
structure SendRecord where
  number : Nat
  node : NodeId
  payload : Bytes
  /-- What the node answered. -/
  reply : Option Bytes := none
  /-- The number of requests that the caller cancelled meanwhile. -/
  cancelled : Option Nat := none
  deriving DecidableEq, Repr

/-- A change of topology to be made some time after the caller next waits. -/
structure PlannedChange where
  scope : Scope
  change : TopologyChange
  afterMs : Nat
  /-- The time of the change, once the caller has waited. -/
  dueAt : Option Nat := none
  deriving DecidableEq, Repr

/-- The greatest number of waits that end in one turn. -/
def waitsPerTurn : Nat := 128

/-- A cluster, its caller and the network between them. -/
structure World (σ : Type) where
  now : Nat := 0
  /-- The number of waits that may still end in this turn. -/
  credits : Nat := waitsPerTurn
  /-- The nodes, whose ids differ. -/
  nodes : List (Node σ)
  /-- What the nodes and their user code share. -/
  state : σ
  /-- The view of the enlister, if it has one of its own. -/
  ownView : Option TopologyView := none
  enlister : Enlister σ
  script : Script := {}
  /-- The number of the next request. -/
  sendCount : Nat := 0
  /-- The requests of the current call. -/
  records : List SendRecord := []
  planned : List PlannedChange := []

namespace World

variable {σ : Type} [HasTopology σ]

/-- The view of the cluster. -/
def clusterView (w : World σ) : TopologyView := HasTopology.topology w.state

/-- The view of the enlister. -/
def callerView (w : World σ) : TopologyView := w.ownView.getD w.clusterView

/-- Changes the view of the cluster. -/
def changeCluster (w : World σ) (change : TopologyChange) : World σ :=
  { w with state := HasTopology.setTopology w.state (w.clusterView.apply change) }

/-- Changes the view that the enlister looks at. -/
def changeCaller (w : World σ) (change : TopologyChange) : World σ :=
  match w.ownView with
  | some view => { w with ownView := some (view.apply change) }
  | none => w.changeCluster change

/-- Changes the views in a scope. A shared view counts as the one of the cluster. -/
def changeViews (w : World σ) (scope : Scope) (change : TopologyChange) : World σ :=
  let w := if scope = .caller then w else w.changeCluster change
  match w.ownView with
  | some view =>
    if scope = .cluster then w else { w with ownView := some (view.apply change) }
  | none => w

/-- Changes the record at a position. -/
def modifyRecord (w : World σ) (entry : Nat) (f : SendRecord → SendRecord) : World σ :=
  { w with records := w.records.modify entry f }

/-- The answer of the node with an id to some octets, with the nodes and their state
afterwards. -/
def askNode (id : NodeId) (payload : Bytes) :
    List (Node σ) → σ → Except CauseChain Bytes × List (Node σ) × σ
  | [], state => (.error ["no route to node " ++ toString id], [], state)
  | n :: rest, state =>
    if n.id = id then
      let r := n.handleBytes payload state
      (r.1.mapError HandleError.chain, r.2.1 :: rest, r.2.2)
    else
      let r := askNode id payload rest state
      (r.1, n :: r.2.1, r.2.2)

/-- Hands some octets to a node and takes its answer back. -/
def deliver (w : World σ) (id : NodeId) (payload : Bytes) : Except CauseChain Bytes × World σ :=
  let r := askNode id payload w.nodes w.state
  (r.1, { w with nodes := r.2.1, state := r.2.2 })

/-- The node with an id. -/
def node? (w : World σ) (id : NodeId) : Option (Node σ) := w.nodes.find? fun n => n.id == id

/-- Releases the locks of a transaction on the node with an id and gives their number. -/
def finishTransaction (w : World σ) (id : NodeId) (lock : LockVersion) : Nat × World σ :=
  match w.node? id with
  | none => (0, w)
  | some n =>
    let r := n.finishTransaction lock
    (r.1, { w with nodes := w.nodes.map fun other => if other.id = id then r.2 else other })

/-- Takes away the credit for one wait. -/
def spend (w : World σ) : World σ := { w with credits := w.credits - 1 }

end World

end Enlistment.Simulation
