import Enlistment.Simulation.World

/-!
# Requests on their way

A transit is one request in the hands of the network, with what its script still does
with it. It goes on until it is held back, is lost or arrives; what arrives is the
answer of a node or the failure of the network.
-/

namespace Enlistment.Simulation

/-- What a request on its way waits for. -/
inductive Pause where
  /-- It goes on at once. -/
  | none
  | heldUntil (time : Nat)
  /-- It never goes on. -/
  | lost
  deriving DecidableEq, Repr

/-- A request on its way through the network. -/
structure Transit where
  /-- The position of its part. -/
  index : Nat
  /-- The position of its record. -/
  entry : Nat
  future : FutureId
  node : NodeId
  payload : Bytes
  /-- What the network still does with it. -/
  actions : List Action
  /-- Changes of the answer. -/
  replyEdits : List Edit := []
  pause : Pause := .none
  deriving DecidableEq, Repr

/-- Where a request came to. -/
inductive TransitResult where
  | waiting (t : Transit)
  | arrived (outcome : Except CauseChain Bytes)

namespace Transit

variable {σ : Type} [HasTopology σ]

/-- Hands the request to its node and takes the answer back. -/
def complete (t : Transit) (w : World σ) : TransitResult × World σ :=
  match w.deliver t.node t.payload with
  | (.error chain, w) => (.arrived (.error chain), w)
  | (.ok reply, w) =>
    (.arrived (.ok (t.replyEdits.foldl Edit.apply reply)),
      w.modifyRecord t.entry fun r => { r with reply := some reply })

/-- Runs the remaining actions until one of them waits or ends the request. A delay of no
time ends at once if there is a credit for it. -/
def runActions : List Action → Transit → World σ → TransitResult × World σ
  | [], t, w => t.complete w
  | action :: rest, t, w =>
    match action with
    | .delay ms =>
      if ms = 0 ∧ 0 < w.credits then runActions rest t w.spend
      else (.waiting { t with actions := rest, pause := .heldUntil (w.now + ms) }, w)
    | .hang => (.waiting { t with actions := [], pause := .lost }, w)
    | .fail text => (.arrived (.error ["link down", text]), w)
    | .cancel =>
      let r := w.enlister.cancel t.future
      runActions rest t ({ w with enlister := r.2 }.modifyRecord t.entry fun record =>
        { record with cancelled := some r.1 })
    | .editRequest edit => runActions rest { t with payload := edit.apply t.payload } w
    | .editReply edit => runActions rest { t with replyEdits := t.replyEdits ++ [edit] } w
    | .reply bytes => (.arrived (.ok bytes), w)
    | .change scope change => runActions rest t (w.changeViews scope change)

/-- Goes on with a request whose time has come, if there is a credit for it. -/
def advance (t : Transit) (w : World σ) : TransitResult × World σ :=
  match t.pause with
  | .none => runActions t.actions t w
  | .heldUntil time =>
    if time ≤ w.now ∧ 0 < w.credits then runActions t.actions t w.spend else (.waiting t, w)
  | .lost => (.waiting t, w)

end Transit

end Enlistment.Simulation
