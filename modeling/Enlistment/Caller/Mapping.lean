import Enlistment.Caller.Basic

/-!
# Mapping rows to nodes

Rows are grouped by the owner of their partition. Every group becomes one part of
the batch, with a number of its own, and parts are in ascending order of their
nodes. The topology may change while rows are mapped, so each row is mapped on the
view that is there when its turn comes.
-/

namespace Enlistment

/-- Where one part of a batch stands. -/
inductive PartStage where
  | planned
  /-- The request was sent, at a time and with a limit, both in milliseconds. -/
  | sent (rx sentAt limitMs : Nat)
  /-- The exchange is over and the outcome is awaited. -/
  | settled (rx : Nat)
  | ended (outcome : Delivery)

/-- The rows of a batch that go to one node. -/
structure Part where
  mini : MiniId
  node : NodeId
  rows : List IndexedRow
  stage : PartStage := .planned

/-- What a mapping pass reads of the caller's topology. -/
structure Readings where
  /-- The version when the pass begins. -/
  version : TopologyVersion
  /-- The view at the turn of each row, by the row's place in the caller's batch. -/
  views : Nat → TopologyView

/-- The readings of a view that does not change. -/
def TopologyView.readings (view : TopologyView) : Readings := ⟨view.version, fun _ => view⟩

/-- Adds a row to the group of its node. -/
def addToGroup (node : NodeId) (row : IndexedRow) :
    List (NodeId × List IndexedRow) → List (NodeId × List IndexedRow)
  | [] => [(node, [row])]
  | (n, rows) :: rest =>
    if node < n then (node, [row]) :: (n, rows) :: rest
    else if node = n then (n, rows ++ [row]) :: rest
    else (n, rows) :: addToGroup node row rest

/-- The owner of a row on a view. -/
def ownerOf (ctx : MarshalContext) (view : TopologyView) (row : IndexedRow) :
    Except EnlistError NodeId :=
  if row.2.keyValue.isNull then .error (.marshal (.nullKey row.1))
  else
    match view.primary (ctx.partitionOfValue row.2.keyValue) with
    | some node => .ok node
    | none => .error (.noPrimary (ctx.partitionOfValue row.2.keyValue))

/-- Adds rows to groups up to the first one without an owner. -/
def groupRows (ctx : MarshalContext) (views : Nat → TopologyView) :
    List IndexedRow → List (NodeId × List IndexedRow) →
      Except EnlistError (List (NodeId × List IndexedRow))
  | [], groups => .ok groups
  | row :: rest, groups => do
    let node ← ownerOf ctx (views row.1) row
    groupRows ctx views rest (addToGroup node row groups)

/-- The parts of groups, numbered from `mini` on. -/
def numberParts (mini : MiniId) : List (NodeId × List IndexedRow) → List Part
  | [] => []
  | (node, rows) :: rest => { mini, node, rows } :: numberParts (mini + 1) rest

/-- The parts of a batch on the views of its rows. -/
def Enlister.mapRows {σ : Type} (e : Enlister σ) (views : Nat → TopologyView)
    (rows : List IndexedRow) : Except EnlistError (List Part) × Enlister σ :=
  match groupRows e.context views rows [] with
  | .error err => (.error err, e)
  | .ok groups =>
    (.ok (numberParts e.nextMini groups),
      { e with nextMini := e.nextMini + Int32.ofNat groups.length })

end Enlistment
