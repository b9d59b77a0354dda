import Enlistment.Simulation.Transit

/-!
# Rounds in virtual time

A run is a call in a world, with its requests on their way. A part of its round goes on
as far as it can: its request is sent, the network does something with it, its outcome
is collected. Where it has to wait, it sets an alarm. Where it has no credit left to go
on, it is put off to the next turn.
-/

namespace Enlistment.Simulation

/-- A time at which a part is to go on. -/
structure Alarm where
  time : Nat
  /-- The position of the part. -/
  index : Nat
  deriving DecidableEq, Repr

/-- A call in a world, with its requests on their way. -/
structure Run (σ : Type) where
  world : World σ
  call : Call σ
  transits : List Transit := []
  /-- The alarms of the parts, in the order in which they were set. -/
  alarms : List Alarm := []
  /-- The parts that are to go on, the first one first. -/
  woken : List Nat := []
  /-- The parts that are put off to the next turn, the last one first. -/
  deferred : List Nat := []

namespace Run

variable {σ : Type} [HasTopology σ]

/-- Lets an event happen to the call. -/
def step (r : Run σ) (event : Event) : Option Dispatch × Run σ :=
  let s := r.call.step r.world.enlister r.world.now event
  (s.1, { r with call := s.2.1, world := { r.world with enlister := s.2.2 } })

/-- The parts of the current round. -/
def parts (r : Run σ) : List Part :=
  match r.call.phase with
  | .exchanging _ parts => parts
  | _ => []

/-- How far the part at a position has come. -/
def stage? (r : Run σ) (index : Nat) : Option PartStage := (r.parts[index]?).map Part.stage

/-- Whether a part waits for an outcome that is there. An answer to another part may
have brought it, or a cancellation may have taken the request away. -/
def isReady (r : Run σ) (index : Nat) : Bool :=
  match r.stage? index with
  | some (.settled rx) => (r.world.enlister.registry.receiver rx).isReady
  | _ => false

/-- The parts that wait for an outcome that is there. -/
def ready (r : Run σ) : List Nat := (List.range r.parts.length).filter r.isReady

/-- Takes away the credit for one wait. -/
def spend (r : Run σ) : Run σ := { r with world := r.world.spend }

/-- Whether no more waits may end in this turn. -/
def isExhausted (r : Run σ) : Bool := r.world.credits == 0

/-- Puts a part off to the next turn. -/
def defer (r : Run σ) (index : Nat) : Run σ := { r with deferred := r.deferred.insert index }

/-- Sets an alarm, unless it is set. -/
def setAlarm (r : Run σ) (alarm : Alarm) : Run σ :=
  if r.alarms.contains alarm then r else { r with alarms := r.alarms ++ [alarm] }

/-- Hands a request to the network, which records it. -/
def recordDispatch (r : Run σ) (d : Dispatch) : Run σ :=
  let w := r.world
  let record : SendRecord := { number := w.sendCount, node := d.node, payload := d.payload }
  let transit : Transit :=
    { index := d.index, entry := w.records.length, future := r.call.future, node := d.node
      payload := d.payload, actions := w.script.actions w.sendCount }
  { r with
    world := { w with sendCount := w.sendCount + 1, records := w.records ++ [record] }
    transits := r.transits ++ [transit] }

/-- Takes the outcome of a part if it is there and there is a credit for it. -/
def collect (r : Run σ) (index : Nat) : Run σ :=
  if r.isExhausted then r.defer index
  else if r.isReady index then (r.spend.step (.collect index)).2
  else r

/-- Ends the exchange of a part and takes its outcome if it is there. -/
def settle (r : Run σ) (index : Nat) (x : Exchange) : Run σ :=
  let transits := r.transits.filter fun t => t.index != index
  let alarms := r.alarms.filter fun a => a.index != index
  (({ r with transits, alarms }.step (.settle index x)).2).collect index

/-- Waits until the network goes on with the request of a part. -/
def awaitPause (r : Run σ) (index : Nat) : Pause → Run σ
  | .heldUntil time => if r.isExhausted then r.defer index else r.setAlarm ⟨time, index⟩
  | _ => r

/-- Waits for the limit of a part. A part that found no credit cannot even time out. -/
def awaitLimit (r : Run σ) (index deadline : Nat) (foundCredit : Bool) : Run σ :=
  if r.isExhausted && !foundCredit then r.defer index
  else if deadline ≤ r.world.now then r.spend.settle index .timedOut
  else r.setAlarm ⟨deadline, index⟩

/-- Goes on with the exchange of a part. An answer comes before a timeout at the same
time. -/
def advanceExchange (r : Run σ) (index deadline : Nat) : Run σ :=
  match r.transits.find? fun t => t.index == index with
  | none => r
  | some t =>
    match t.advance r.world with
    | (.arrived (.ok bytes), world) => { r with world }.settle index (.replied bytes)
    | (.arrived (.error chain), world) => { r with world }.settle index (.failed chain)
    | (.waiting t, world) =>
      let transits := r.transits.map fun other => if other.index = index then t else other
      ({ r with world, transits }.awaitPause index t.pause).awaitLimit index deadline
        (!r.isExhausted)

/-- Goes on with a part whose request was sent. -/
def advanceSent (r : Run σ) (index : Nat) : Run σ :=
  match r.stage? index with
  | some (.sent _ sentAt limitMs) => r.advanceExchange index (sentAt + limitMs)
  | some (.settled _) => r.collect index
  | _ => r

/-- Goes on with a part. -/
def advancePart (r : Run σ) (index : Nat) : Run σ :=
  match r.step (.send index) with
  | (some d, r) => (r.recordDispatch d).advanceSent index
  | (none, r) => r.advanceSent index

/-- Wakes the parts whose outcome has come meanwhile. -/
def wakeReady (r : Run σ) : Run σ :=
  let known := r.woken ++ r.deferred
  { r with woken := r.woken ++ r.ready.filter fun index => !known.contains index }

/-- Goes on with the parts that are woken, and with those whose outcome they bring. Each
part goes on twice at most: once for its alarm and once for its outcome. -/
def advanceWoken : (fuel : Nat) → Run σ → Run σ
  | 0, r => r
  | fuel + 1, r =>
    match r.woken with
    | [] => r
    | index :: rest => advanceWoken fuel ({ r with woken := rest }.advancePart index).wakeReady

/-- The greatest number of parts in a narrow round. -/
def narrowRound : Nat := 30

/-- Goes on with the parts of the round: in a narrow round with all of them, in their
order, and in a wide one with those that are woken, in the order of their alarms. -/
def advanceRound (r : Run σ) : Run σ :=
  let size := r.parts.length
  if size ≤ narrowRound then (List.range size).foldl advancePart { r with woken := [] }
  else advanceWoken (2 * size) r

end Run

end Enlistment.Simulation
