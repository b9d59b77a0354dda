import Enlistment.Simulation.Run

/-!
# Turns

A call is run turn by turn. In a turn the parts of the round go on as far as they can,
and so does the call. Between turns the planned changes whose time has come are made.
There is another turn at once if there was more to do than one turn may end, or if a
part has got an outcome after it went on itself; otherwise the clock goes on to the next
time at which something happens.
-/

namespace Enlistment.Simulation

namespace Run

variable {σ : Type} [HasTopology σ]

/-- Whether every part of a round has ended. -/
def allEnded (parts : List Part) : Bool :=
  parts.all fun part =>
    match part.stage with
    | .ended _ => true
    | _ => false

/-- Maps the outstanding rows. All parts of the new round are to go on. -/
def startRound (r : Run σ) : Run σ :=
  let r := (r.step (.map r.world.callerView.readings)).2
  { r with woken := List.range r.parts.length }

/-- Goes on with the call, and tells whether it has more to do at once. -/
def turn (r : Run σ) : Bool × Run σ :=
  match r.call.phase with
  | .ended _ => (false, r)
  | .mapping => (true, r.startRound)
  | .exchanging .. =>
    let r := r.advanceRound
    if allEnded r.parts then (true, (r.step .close).2) else (false, r)
  | .remapping _ current _ giveUpAt =>
    if r.isExhausted then (false, r)
    else if r.world.callerView.hasReached current then
      (true, (r.spend.step (.resume r.world.callerView)).2)
    else if giveUpAt ≤ r.world.now then (true, (r.spend.step .giveUp).2)
    else (false, r)

/-- Begins a new turn, in which the parts that were put off are to go on. -/
def renew (r : Run σ) : Run σ :=
  { r with
    world := { r.world with credits := waitsPerTurn }
    woken := r.woken ++ r.deferred
    deferred := [] }

/-- The greatest number of planned changes that are looked at between two turns. -/
def changesPerTurn : Nat := 61

/-- Makes a planned change. -/
def applyPlanned (w : World σ) (c : PlannedChange) : World σ :=
  if c.scope = .caller then w.changeCaller c.change else w.changeCluster c.change

/-- Makes the planned changes whose time has come, and starts the time of those that
were planned before the caller waited, in their order and at most so many of them. Tells
whether there were any, and gives the changes that are still to be made. -/
def runPlanned : (limit : Nat) → List PlannedChange → World σ →
    Bool × List PlannedChange × World σ
  | _, [], w => (false, [], w)
  | 0, c :: cs, w => (false, c :: cs, w)
  | limit + 1, c :: cs, w =>
    let dueAt := c.dueAt.getD (w.now + c.afterMs)
    if dueAt ≤ w.now then
      let r := runPlanned limit cs (applyPlanned w c)
      (true, r.2)
    else if c.dueAt.isNone then
      let r := runPlanned limit cs w
      (true, { c with dueAt := some dueAt } :: r.2.1, r.2.2)
    else
      let r := runPlanned (limit + 1) cs w
      (r.1, c :: r.2.1, r.2.2)

/-- Makes the changes whose time has come, and tells whether there were any. -/
def makePlanned (r : Run σ) : Bool × Run σ :=
  let p := runPlanned changesPerTurn r.world.planned r.world
  (p.1, { r with world := { p.2.2 with planned := p.2.1 } })

/-- The times at which something happens by itself. -/
def wakeTimes (r : Run σ) : List Nat :=
  let exchanges := r.alarms.map Alarm.time
  let changes := r.world.planned.filterMap PlannedChange.dueAt
  let limits :=
    match r.call.phase with
    | .remapping _ _ _ giveUpAt => [giveUpAt]
    | _ => []
  exchanges ++ changes ++ limits

/-- Sets the clock and wakes the parts whose alarms go off. -/
def setClock (r : Run σ) (now : Nat) : Run σ :=
  let due := r.alarms.filter fun a => a.time ≤ now
  { r with
    world := { r.world with now }
    alarms := r.alarms.filter fun a => now < a.time
    woken := (r.woken ++ due.map Alarm.index).eraseDups }

/-- Sets the clock to the next time at which something happens, if there is one. -/
def skipAhead (r : Run σ) : Option (Run σ) :=
  (r.wakeTimes.filter fun t => r.world.now < t).min?.map r.setClock

/-- Runs a call for at most `fuel` turns, until it ends or nothing happens any more. -/
def loop : (fuel : Nat) → Run σ → Run σ
  | 0, r => r
  | fuel + 1, r =>
    match r.turn with
    | (true, r) => loop fuel r
    | (false, r) =>
      match r.call.phase with
      | .ended _ => r
      | _ =>
        let again := r.isExhausted || !r.ready.isEmpty
        match r.renew.makePlanned with
        | (true, r) => loop fuel r
        | (false, r) =>
          if again then loop fuel r
          else
            match r.skipAhead with
            | some r => loop fuel r
            | none => r

/-- A number of turns that is enough: every round has a part for each row at most, and
each part waits for each of its actions, for its limit and for its outcome. Each such
wait makes one turn more at its end, and one if it is put off. A planned change makes one
for its start and one for its end. -/
def turns (r : Run σ) : Nat :=
  let perRound := 2 * ((r.call.outstanding.length + 1) * (r.world.script.longest + 2)) + 4
  (r.world.enlister.config.maxRemapAttempts.toNat + 2) * perRound + 2 * r.world.planned.length + 2

end Run

namespace World

variable {σ : Type} [HasTopology σ]

/-- Runs a call to its end. There is no outcome if the call waits forever. -/
def runCall (w : World σ) (call : Call σ) :
    Option (Except EnlistError EnlistResult) × World σ :=
  let start : Run σ := { world := { w with records := [] }, call }
  let r := Run.loop start.turns start
  match r.call.phase with
  | .ended outcome => (some outcome, r.world)
  | _ => (none, r.world)

end World

end Enlistment.Simulation
