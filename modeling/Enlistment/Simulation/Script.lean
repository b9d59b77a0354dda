import Enlistment.Topology

/-!
# Scripts

A script tells what a simulated network does with the requests it is handed: it may
hold them back, lose them, damage them or their answers, and change the topology
while they are on their way.
-/

namespace Enlistment.Simulation

/-- The views that a change of topology reaches. -/
inductive Scope where
  | cluster
  | caller
  | everywhere
  deriving DecidableEq, Repr

/-- A change of octets. -/
inductive Edit where
  /-- Other octets from an offset on. -/
  | patch (offset : Nat) (bytes : Bytes)
  /-- Only the first octets are left. -/
  | cut (length : Nat)
  deriving DecidableEq, Repr

/-- The octets after a change. The length grows in no case. -/
def Edit.apply (bs : Bytes) : Edit → Bytes
  | .patch offset bytes =>
    let bytes := bytes.take (bs.length - offset)
    bs.take offset ++ bytes ++ bs.drop (offset + bytes.length)
  | .cut length => bs.take length

/-- What the network does with a request. -/
inductive Action where
  | delay (ms : Nat)
  /-- The request is never answered. -/
  | hang
  | fail (text : String)
  /-- The caller cancels its operation. -/
  | cancel
  | editRequest (edit : Edit)
  | editReply (edit : Edit)
  /-- The network answers in the place of the node. -/
  | reply (bytes : Bytes)
  | change (scope : Scope) (change : TopologyChange)
  deriving DecidableEq, Repr

/-- What the network does with each request, by the number of the request. -/
structure Script where
  numbered : List (Nat × List Action) := []
  /-- For all other requests. -/
  others : List Action := []
  deriving DecidableEq, Repr

/-- What the network does with a request. -/
def Script.actions (s : Script) (number : Nat) : List Action :=
  (s.numbered.lookup number).getD s.others

/-- The greatest number of actions for one request. -/
def Script.longest (s : Script) : Nat :=
  (s.numbered.map fun entry => entry.2.length).foldr max s.others.length

end Enlistment.Simulation
