import Enlistment.Response

/-!
# Registry of requests in flight

The registry holds the lifecycle of every request in flight together with the
receiver its response goes to. A receiver gets at most one outcome. It is closed
if its request is forgotten first.
-/

namespace Enlistment

/-- What a waiting caller is told. -/
abbrev Delivery := Except EnlistError EnlistResponse

/-- The receiving end of a request's outcome. -/
inductive Receiver where
  | waiting
  | delivered (outcome : Delivery)
  /-- No outcome will come any more. -/
  | closed
  /-- Nobody waits any more. -/
  | dropped

/-- Whether a caller that looks at the receiver learns how its request ended. -/
def Receiver.isReady : Receiver → Bool
  | waiting => false
  | _ => true

/-- A request in flight. -/
structure MiniFuture where
  state : RequestState
  /-- The position of the receiver, until something is sent to it. -/
  waiter : Option Nat
  /-- The number of times that it was registered. -/
  attempts : UInt32
  deriving DecidableEq, Repr

/-- The key of a request. -/
abbrev RequestKey := FutureId × MiniId

/-- Requests in flight and the receivers handed out so far. -/
structure Registry where
  inFlight : List (RequestKey × MiniFuture) := []
  receivers : List Receiver := []

namespace Registry

/-- The request of a key. -/
def find? (r : Registry) (key : RequestKey) : Option MiniFuture := r.inFlight.lookup key

/-- The number of requests in flight. -/
def pendingCount (r : Registry) : Nat := r.inFlight.length

/-- The state of a request. -/
def state? (r : Registry) (key : RequestKey) : Option RequestState :=
  (r.find? key).map MiniFuture.state

/-- The number of times a request was registered. -/
def attempts (r : Registry) (key : RequestKey) : UInt32 :=
  ((r.find? key).map MiniFuture.attempts).getD 0

/-- The receiver at a position. Nobody waits at a position that was not handed out. -/
def receiver (r : Registry) (rx : Nat) : Receiver := r.receivers.getD rx .dropped

/-- Changes the request of a key. -/
def modify (r : Registry) (key : RequestKey) (f : MiniFuture → MiniFuture) : Registry :=
  { r with inFlight := r.inFlight.map fun entry =>
      if entry.1 = key then (entry.1, f entry.2) else entry }

/-- Takes the request of a key out. -/
def remove (r : Registry) (key : RequestKey) : Registry :=
  { r with inFlight := r.inFlight.filter fun entry => entry.1 != key }

/-- Closes a receiver that still waits. -/
def close (r : Registry) (waiter : Option Nat) : Registry :=
  match waiter with
  | none => r
  | some rx =>
    match r.receiver rx with
    | .waiting => { r with receivers := r.receivers.set rx .closed }
    | _ => r

/-- Sends an outcome to a receiver and tells whether it still waited. -/
def deliver (r : Registry) (waiter : Option Nat) (outcome : Delivery) : Bool × Registry :=
  match waiter with
  | none => (false, r)
  | some rx =>
    match r.receiver rx with
    | .waiting => (true, { r with receivers := r.receivers.set rx (.delivered outcome) })
    | _ => (false, r)

/-- Registers a request and gives the position of its receiver. A request that waits
for a remap is armed again. -/
def register (r : Registry) (key : RequestKey) : Except EnlistError Nat × Registry :=
  let rx := r.receivers.length
  match r.find? key with
  | none =>
    (.ok rx,
      { inFlight := r.inFlight ++ [(key, ⟨.created, some rx, 1⟩)]
        receivers := r.receivers ++ [.waiting] })
  | some entry =>
    if entry.state.canTransition .created then
      let r := r.close entry.waiter
      (.ok rx,
        { (r.modify key fun e => ⟨.created, some rx, e.attempts + 1⟩) with
          receivers := r.receivers ++ [.waiting] })
    else (.error (.invalidTransition key.1 key.2 entry.state .created), r)

/-- Moves a request to another state. -/
def transition (r : Registry) (key : RequestKey) (target : RequestState) :
    Except EnlistError Unit × Registry :=
  match r.find? key with
  | none => (.error (.notRegistered key.1 key.2), r)
  | some entry =>
    if entry.state.canTransition target then (.ok (), r.modify key fun e => { e with state := target })
    else (.error (.invalidTransition key.1 key.2 entry.state target), r)

/-- Hands a response to the request it answers and tells whether somebody waited. -/
def onResponse (r : Registry) (response : EnlistResponse) : Bool × Registry :=
  let key := (response.futureId, response.mini)
  let target := if response.remap.isSome then RequestState.retryTopology else .acked
  match r.find? key with
  | none => (false, r)
  | some entry =>
    if entry.state.canTransition target then
      let r := r.modify key fun e => { e with state := target, waiter := none }
      let r := if target.isTerminal then r.remove key else r
      r.deliver entry.waiter (.ok response)
    else (false, r)

/-- Forgets a request and tells its receiver why; tells whether somebody waited. -/
def onFailure (r : Registry) (key : RequestKey) (e : EnlistError) : Bool × Registry :=
  match r.find? key with
  | none => (false, r)
  | some entry => (r.remove key).deliver entry.waiter (.error e)

/-- Forgets a request whose outcome was consumed. -/
def complete (r : Registry) (key : RequestKey) : Registry :=
  match r.find? key with
  | none => r
  | some entry => (r.remove key).close entry.waiter

/-- Forgets all requests of an operation and gives their number. -/
def cancel (r : Registry) (future : FutureId) : Nat × Registry :=
  let cancelled := r.inFlight.filter fun entry => entry.1.1 == future
  (cancelled.length,
    cancelled.foldl (fun r entry => r.close entry.2.waiter)
      { r with inFlight := r.inFlight.filter fun entry => entry.1.1 != future })

/-- Gives a receiver up, and tells whether it was there. -/
def drop (r : Registry) (rx : Nat) : Bool × Registry :=
  match r.receiver rx with
  | .dropped => (false, r)
  | _ => (true, { r with receivers := r.receivers.set rx .dropped })

/-- Looks at a receiver; an outcome is taken out of it. -/
def poll (r : Registry) (rx : Nat) : Receiver × Registry :=
  match r.receiver rx with
  | .delivered outcome => (.delivered outcome, { r with receivers := r.receivers.set rx .closed })
  | receiver => (receiver, r)

end Registry

end Enlistment
