import Enlistment.Error

/-!
# Topology

A topology view says which node owns each partition. Its version rises with every
change, so a request that names a version names the mapping it was made on.
-/

namespace Enlistment

/-- A mapping of partitions to the nodes that own them. -/
structure TopologyView where
  partitions : UInt32
  version : TopologyVersion
  nodes : List NodeId
  /-- The owner of each partition; empty if there are no nodes. -/
  owners : List NodeId
  deriving DecidableEq, Repr

/-- A change of a view. -/
inductive TopologyChange where
  /-- Other nodes take part. -/
  | membership (nodes : List NodeId)
  /-- One partition moves. -/
  | reassign (partition : Int32) (node : NodeId)
  deriving DecidableEq, Repr

namespace TopologyView

/-- Adds a node to an ascending list unless it is there. -/
def insertNode (node : NodeId) : List NodeId → List NodeId
  | [] => [node]
  | n :: rest =>
    if node < n then node :: n :: rest
    else if node = n then n :: rest
    else n :: insertNode node rest

/-- The nodes in ascending order without repetitions. -/
def sortNodes (nodes : List NodeId) : List NodeId := nodes.foldr insertNode []

/-- The partitions spread over the nodes in turn. -/
def assign (nodes : List NodeId) (partitions : UInt32) : List NodeId :=
  if nodes.isEmpty then []
  else (List.range partitions.toNat).map fun p => nodes.getD (p % nodes.length) 0

/-- The first view of a cluster. It has at least one partition. -/
def ofNodes (nodes : List NodeId) (partitions : UInt32) : TopologyView :=
  let partitions := if partitions = 0 then 1 else partitions
  let nodes := sortNodes nodes
  { partitions, version := ⟨1, 0⟩, nodes, owners := assign nodes partitions }

/-- The owner of a partition. -/
def primary (view : TopologyView) (partition : Int32) : Option NodeId :=
  if partition < 0 then none else view.owners[partition.toInt.toNat]?

/-- The view after a change of membership, which assigns every partition anew. -/
def applyMembership (view : TopologyView) (nodes : List NodeId) : TopologyView :=
  let nodes := sortNodes nodes
  { view with
    version := view.version.nextMajor
    nodes
    owners := assign nodes view.partitions }

/-- The view after one partition moved. The version rises even if there is no such
partition. -/
def reassign (view : TopologyView) (partition : Int32) (node : NodeId) : TopologyView :=
  { view with
    version := view.version.nextMinor
    owners :=
      if partition < 0 then view.owners else view.owners.set partition.toInt.toNat node }

/-- The view after a change. -/
def apply (view : TopologyView) : TopologyChange → TopologyView
  | .membership nodes => view.applyMembership nodes
  | .reassign partition node => view.reassign partition node

/-- Whether a node owns a partition. -/
def owns (view : TopologyView) (node : NodeId) (partition : Int32) : Bool :=
  view.primary partition == some node

/-- Accepts requests on the current version for partitions that a node owns. -/
def validate (view : TopologyView) (requested : TopologyVersion) (partitions : List Int32)
    (node : NodeId) : Except EnlistError Unit :=
  if requested = view.version ∧ partitions.all (view.owns node) then .ok ()
  else .error (.topologyMismatch requested view.version)

/-- Runs something on a state if a request is accepted, and leaves the state alone if it is not. -/
def withValidated {ρ α : Type} (view : TopologyView) (requested : TopologyVersion)
    (partitions : List Int32) (node : NodeId) (run : ρ → α × ρ) (state : ρ) :
    Except EnlistError α × ρ :=
  match view.validate requested partitions node with
  | .error e => (.error e, state)
  | .ok () => (.ok (run state).1, (run state).2)

/-- Whether the view has reached a version. -/
def hasReached (view : TopologyView) (version : TopologyVersion) : Bool :=
  (compare view.version version).isGE

/-- Waits for a version while changes are made, each after a number of milliseconds. The
changes are in the order of their times, and one that comes when the limit is over is
too late. Gives the version that the view has then. -/
def waitFor (version : TopologyVersion) (withinMs : Nat) :
    List (Nat × TopologyChange) → TopologyView → Option TopologyVersion × TopologyView
  | changes, view =>
    if view.hasReached version then (some view.version, view)
    else
      match changes with
      | [] => (none, view)
      | (afterMs, change) :: rest =>
        if afterMs < withinMs then waitFor version withinMs rest (view.apply change)
        else (none, view)

end TopologyView

end Enlistment
