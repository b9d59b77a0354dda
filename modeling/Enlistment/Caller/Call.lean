import Enlistment.Caller.Exchange

/-!
# Enlistment calls

A call enlists one batch of rows. It goes by rounds: the outstanding rows are mapped
on the current topology, every part is sent, and the outcomes are put together. Rows
whose node asked for a remap stay outstanding, and the next round starts once the
caller's view has reached the topology they need. A call is a machine that is driven
by events and by the time in milliseconds, so it can be run against any network.
-/

namespace Enlistment

/-- Where a call stands. -/
inductive Phase where
  /-- The outstanding rows are about to be mapped. -/
  | mapping
  | exchanging (topology : TopologyVersion) (parts : List Part)
  /-- A part asked for a remap on another version, which is awaited until a time. -/
  | remapping (requested current : TopologyVersion) (mini : MiniId) (giveUpAt : Nat)
  | ended (outcome : Except EnlistError EnlistResult)

/-- One batch of rows on its way into a transaction. -/
structure Call (σ : Type) where
  future : FutureId
  tx : Transaction
  op : Operation
  options : EnlistOptions σ
  /-- The time at which the transaction times out. -/
  deadline : Option Nat
  /-- The number of remaps so far, in a counter that wraps around. -/
  attempt : UInt32 := 0
  outstanding : List IndexedRow
  result : EnlistResult
  phase : Phase := .mapping

/-- A request handed to the network. -/
structure Dispatch where
  /-- The position of the part. -/
  index : Nat
  node : NodeId
  payload : Bytes
  deriving DecidableEq, Repr

/-- What happens to a call. -/
inductive Event where
  /-- The outstanding rows are mapped on what is read of the topology. -/
  | map (seen : Readings)
  | send (index : Nat)
  | settle (index : Nat) (x : Exchange)
  | collect (index : Nat)
  /-- The outcomes of a round are put together. -/
  | close
  /-- The caller's view has changed. -/
  | resume (view : TopologyView)
  | giveUp

/-- What the outcomes of a round amount to. -/
structure RoundOutcome where
  result : EnlistResult
  outstanding : List IndexedRow := []
  /-- The greatest version asked for, with the part that asked for it. -/
  remap : Option (TopologyVersion × MiniId) := none
  /-- The first failure. -/
  failure : Option EnlistError := none

namespace EnlistResult

/-- Puts previous values into the slots of their rows. -/
def fillSlots (rows : List IndexedRow) (values : List (Option Value))
    (slots : List (Option Value)) : List (Option Value) :=
  (rows.zip values).foldl (fun slots entry => slots.set entry.1.1 entry.2) slots

/-- The failure of a row of a part, as its caller knows the row. A row that the part
does not have gets the greatest index. -/
def callerFailure (rows : List IndexedRow) (failure : RowFailure) : RowFailure :=
  match if failure.index < 0 then none else rows[failure.index.toInt.toNat]? with
  | some row => .ofIndex row.1 failure.reason
  | none => ⟨Int32.maxValue, failure.reason⟩

/-- The result with the result of a part added. -/
def mergePart (result : EnlistResult) (rows : List IndexedRow) (part : EnlistResult) :
    EnlistResult where
  previous := fillSlots rows part.previous result.previous
  updated := result.updated + part.updated
  failures := result.failures ++ part.failures.map (callerFailure rows)

/-- The result with its failures in the order of their rows. -/
def sortFailures (result : EnlistResult) : EnlistResult :=
  { result with failures := result.failures.mergeSort fun a b => a.index ≤ b.index }

end EnlistResult

namespace RoundOutcome

/-- Asks for a remap, unless a greater one is asked for. -/
def askRemap (asked : TopologyVersion × MiniId) :
    Option (TopologyVersion × MiniId) → Option (TopologyVersion × MiniId)
  | none => some asked
  | some old =>
    if ((compare old.1 asked.1).then (compare old.2 asked.2)).isGT then some old else some asked

/-- The round with the outcome of one more part. -/
def add (topology : TopologyVersion) (o : RoundOutcome) (part : Part) (outcome : Delivery) :
    RoundOutcome :=
  match outcome.bind fun response => response.toResult topology with
  | .ok result => { o with result := o.result.mergePart part.rows result }
  | .error (.topologyMismatch _ current) =>
    { o with
      remap := askRemap (current, part.mini) o.remap
      outstanding := o.outstanding ++ part.rows }
  | .error e => { o with failure := some (o.failure.getD e) }

end RoundOutcome

namespace Call

variable {σ : Type}

/-- A call that starts at a time. -/
def start (future : FutureId) (tx : Transaction) (op : Operation) (rows : List Row)
    (options : EnlistOptions σ) (now : Nat) : Call σ where
  future
  tx
  op
  options
  deadline := if 0 < tx.timeoutMs then some (now + tx.timeoutMs.toInt.toNat) else none
  outstanding := rows.mapIdx fun index row => (index, row)
  result := { previous := if options.needResult then rows.map fun _ => none else [] }

/-- A limit, cut down to the time left before the deadline. -/
def bounded (call : Call σ) (now limitMs : Nat) : Nat :=
  match call.deadline with
  | none => limitMs
  | some deadline => min limitMs (deadline - now)

/-- Whether the deadline has passed. -/
def expired (call : Call σ) (now : Nat) : Bool :=
  call.deadline.any fun deadline => deadline ≤ now

/-- The call with an outcome. -/
def finish (call : Call σ) (outcome : Except EnlistError EnlistResult) : Call σ :=
  { call with phase := .ended outcome }

/-- The request of a part. -/
def request (call : Call σ) (e : Enlister σ) (topology : TopologyVersion) (part : Part)
    (limitMs : Nat) (messageId : Int64) : EnlistRequest σ where
  base := { cacheId := e.config.cacheId, messageId, lastAffinityChange := topology }
  futureId := call.future
  mini := part.mini
  topology
  lock := call.tx.lock
  snapshot := call.tx.snapshot
  op := some call.op
  pending := some (part.rows.map Prod.snd)
  filter := call.options.filter
  needResult := call.options.needResult
  keepBinary := call.options.keepBinary
  clientFirst := call.tx.client && call.attempt == 0
  threadId := call.tx.threadId
  taskHash := taskHash call.tx.taskName
  timeoutMs := if limitMs < 0x8000000000000000 then Int64.ofNat limitMs else Int64.maxValue
  txTimeoutMs := call.tx.timeoutMs

/-- The call with one part at another stage. -/
def setStage (call : Call σ) (index : Nat) (stage : PartStage) : Call σ :=
  match call.phase with
  | .exchanging topology parts =>
    { call with
      phase := .exchanging topology (parts.modify index fun part => { part with stage }) }
  | _ => call

/-- Starts a round, or ends the call if no rows are outstanding. -/
def mapRound (call : Call σ) (e : Enlister σ) (seen : Readings) : Call σ × Enlister σ :=
  if call.outstanding.isEmpty then (call.finish (.ok call.result.sortFailures), e)
  else
    match e.mapRows seen.views call.outstanding with
    | (.error err, e) => (call.finish (.error err), e)
    | (.ok parts, e) =>
      ({ call with outstanding := [], phase := .exchanging seen.version parts }, e)

/-- Sends the request of a part. -/
def sendPart (call : Call σ) (e : Enlister σ) (now : Nat) (topology : TopologyVersion)
    (index : Nat) (part : Part) : Option Dispatch × Call σ × Enlister σ :=
  let limitMs := call.bounded now (call.options.timeoutMs.getD e.config.requestTimeoutMs)
  match e.dispatch call.future part (call.request e topology part limitMs) with
  | (.error err, e) => (none, call.setStage index (.ended (.error err)), e)
  | (.ok (rx, payload), e) =>
    (some { index, node := part.node, payload }, call.setStage index (.sent rx now limitMs), e)

/-- The outcome of a round whose parts have all ended. -/
def roundOutcome (topology : TopologyVersion) :
    RoundOutcome → List Part → Option RoundOutcome
  | o, [] => some o
  | o, part :: rest =>
    match part.stage with
    | .ended outcome => roundOutcome topology (o.add topology part outcome) rest
    | _ => none

/-- Forgets the requests of parts that are to be mapped again. -/
def completeRemapped (future : FutureId) (topology : TopologyVersion) (registry : Registry) :
    List Part → Registry
  | [] => registry
  | part :: rest =>
    let registry :=
      match part.stage with
      | .ended outcome =>
        match outcome.bind fun response => response.toResult topology with
        | .error (.topologyMismatch ..) => registry.complete (future, part.mini)
        | _ => registry
      | _ => registry
    completeRemapped future topology registry rest

/-- Ends a call with an error and forgets all of its requests. -/
def abort (call : Call σ) (e : Enlister σ) (err : EnlistError) : Call σ × Enlister σ :=
  (call.finish (.error err), (e.cancel call.future).2)

/-- Puts the outcomes of a round together. The first failure ends the call, and so does
one remap too many. -/
def closeRound (call : Call σ) (e : Enlister σ) (now : Nat) (topology : TopologyVersion)
    (parts : List Part) (o : RoundOutcome) : Call σ × Enlister σ :=
  let e := { e with registry := completeRemapped call.future topology e.registry parts }
  let call := { call with result := o.result, outstanding := o.outstanding, phase := .mapping }
  match o.failure, o.remap with
  | some err, _ => call.abort e err
  | none, none => (call, e)
  | none, some (current, mini) =>
    if e.config.maxRemapAttempts < call.attempt + 1 then
      call.abort e (.remapLimit e.config.maxRemapAttempts)
    else
      let giveUpAt := now + call.bounded now e.config.requestTimeoutMs
      ({ call with
        attempt := call.attempt + 1
        phase := .remapping topology current mini giveUpAt }, e)

/-- Goes on to the next round with the rows in the caller's order. -/
def nextRound (call : Call σ) : Call σ :=
  { call with
    outstanding := call.outstanding.mergeSort fun a b => a.1 ≤ b.1
    phase := .mapping }

/-- Ends a call whose view has not reached the version asked for. -/
def abandon (call : Call σ) (e : Enlister σ) (now : Nat) (requested current : TopologyVersion)
    (mini : MiniId) : Call σ × Enlister σ :=
  if call.expired now then
    call.abort e (.timeout call.future mini call.tx.timeoutMs.toInt.toNat)
  else call.abort e (.topologyMismatch requested current)

/-- What an event at a time does to a call and its enlister, and the request it sends.
Events that do not fit the state of the call leave it alone. -/
def step (call : Call σ) (e : Enlister σ) (now : Nat) (event : Event) :
    Option Dispatch × Call σ × Enlister σ :=
  match call.phase, event with
  | .mapping, .map seen => (none, call.mapRound e seen)
  | .exchanging topology parts, .send index =>
    match parts[index]? with
    | some part =>
      match part.stage with
      | .planned => call.sendPart e now topology index part
      | _ => (none, call, e)
    | none => (none, call, e)
  | .exchanging _ parts, .settle index x =>
    match parts[index]? with
    | some part =>
      match part.stage with
      | .sent rx _ limitMs =>
        (none, call.setStage index (.settled rx), e.settle (call.future, part.mini) limitMs x)
      | _ => (none, call, e)
    | none => (none, call, e)
  | .exchanging _ parts, .collect index =>
    match parts[index]? with
    | some part =>
      match part.stage with
      | .settled rx =>
        match e.collect (call.future, part.mini) rx with
        | (none, e) => (none, call, e)
        | (some outcome, e) => (none, call.setStage index (.ended outcome), e)
      | _ => (none, call, e)
    | none => (none, call, e)
  | .exchanging topology parts, .close =>
    match roundOutcome topology { result := call.result } parts with
    | some o => (none, call.closeRound e now topology parts o)
    | none => (none, call, e)
  | .remapping _ current _ _, .resume view =>
    if view.hasReached current then (none, call.nextRound, e) else (none, call, e)
  | .remapping requested current mini giveUpAt, .giveUp =>
    if giveUpAt ≤ now then (none, call.abandon e now requested current mini)
    else (none, call, e)
  | _, _ => (none, call, e)

end Call

end Enlistment
