import Enlistment.Config
import Enlistment.Message.Response
import Enlistment.Node.Staging
import Enlistment.Stream.Decoder
import Enlistment.Stream.Encoder

/-!
# Primary nodes

A node checks a request against its topology view, rebuilds its rows, stages them
and commits what was staged. User code may change the topology while rows are
staged, so the request is checked once more before the commit.
-/

namespace Enlistment

/-- The state of a node that requests change. -/
structure NodeState where
  store : Store := {}
  /-- The number of the last write without a snapshot. -/
  writeSeq : Int64 := 0
  enlistedRequests : UInt64 := 0
  deriving DecidableEq, Repr

namespace NodeState

/-- Makes changes one after the other. -/
def applyAll (s : NodeState) (ops : List StoreOp) : NodeState :=
  { s with store := ops.foldl Store.apply s.store }

/-- Stages rows and leaves the state alone. -/
def stageRows {σ : Type} (s : NodeState) (ctx : ApplyContext σ) (rows : List (EnlistedRow σ))
    (state : σ) : Except EnlistError Staged × σ :=
  stageFrom s.store ctx 0 rows { batch := { writeSeq := s.writeSeq } } state

/-- Makes the changes of a batch. -/
def commit (s : NodeState) (batch : StagedBatch) : NodeState :=
  { s.applyAll batch.ops with
    writeSeq := batch.writeSeq
    enlistedRequests := s.enlistedRequests + 1 }

/-- Releases the locks of a transaction and gives their number. -/
def releaseLocks (s : NodeState) (owner : LockVersion) : Nat × NodeState :=
  let released := s.applyAll [.unlock owner]
  (s.store.lockedKeys - released.store.lockedKeys, released)

/-- Drops versions that are superseded at or below a horizon. -/
def vacuum (s : NodeState) (horizon : EntryVersion) : NodeState := s.applyAll [.vacuum horizon]

/-- The value of a key that a snapshot sees, or the newest value. -/
def get (s : NodeState) (key : Value) (snapshot : Option Snapshot) :
    Except EnlistError (Option Value) :=
  decodeStored (s.store.visible key.encode snapshot)

end NodeState

/-- A state that holds a node's view of the topology. User code may change it. -/
class HasTopology (σ : Type) where
  topology : σ → TopologyView
  /-- The state with another view. -/
  setTopology : σ → TopologyView → σ

/-- A node that owns partitions of a cache. -/
structure Node (σ : Type) where
  id : NodeId
  config : EnlistConfig
  loader : ClassLoader σ
  context : MarshalContext
  state : NodeState := {}

/-- A summary of a node. -/
structure NodeStatus where
  id : NodeId
  keys : Nat
  lockedKeys : Nat
  topology : TopologyVersion
  enlistedRequests : UInt64
  deriving DecidableEq, Repr

/-- Why a node could not answer some octets. -/
inductive HandleError where
  | decode (e : Wire.CodecError)
  | truncated
  | encode (e : Wire.CodecError)
  deriving DecidableEq, Repr

/-- The chain of causes of a failure to answer. -/
def HandleError.chain : HandleError → CauseChain
  | decode e => ["Failed to decode enlist request", e.message]
  | truncated => ["Truncated enlist request"]
  | encode e => ["Failed to encode enlist response", e.message]

/-- The chain of causes of a refused configuration. -/
def ConfigError.chain (e : ConfigError) : CauseChain := ["Invalid enlist config", e.message]

namespace Node

variable {σ : Type}

/-- A node without rows. -/
def start (id : NodeId) (config : EnlistConfig) (partitions : UInt32) (loader : ClassLoader σ) :
    Except ConfigError (Node σ) :=
  config.validate.map fun _ =>
    { id, config, loader, context := .ofCache config.cacheId partitions }

/-- Releases the locks of a transaction and gives their number. -/
def finishTransaction (n : Node σ) (lock : LockVersion) : Nat × Node σ :=
  let r := n.state.releaseLocks lock
  (r.1, { n with state := r.2 })

/-- Drops versions that are superseded at or below a horizon. -/
def vacuum (n : Node σ) (horizon : EntryVersion) : Node σ :=
  { n with state := n.state.vacuum horizon }

variable [HasTopology σ]

open HasTopology (topology)

/-- The summary of a node. -/
def status (n : Node σ) (state : σ) : NodeStatus :=
  { id := n.id
    keys := n.state.store.length
    lockedKeys := n.state.store.lockedKeys
    topology := (topology state).version
    enlistedRequests := n.state.enlistedRequests }

/-- The checks of a request before its rows are rebuilt. -/
def precheck (n : Node σ) (req : EnlistRequest σ) (state : σ) : Except EnlistError Unit :=
  if req.base.cacheId ≠ n.config.cacheId then .error (.unknownCache req.base.cacheId)
  else
    match (topology state).validate req.topology [] n.id with
    | .error e => .error e
    | .ok () =>
      if req.snapshot.isSome ≠ n.config.mvccEnabled then
        .error (.mvccModeMismatch n.config.mvccEnabled req.snapshot.isSome)
      else .ok ()

/-- Stages rows on a node and commits them if the request still fits the topology. -/
def applyRows (n : Node σ) (req : EnlistRequest σ) (op : Operation)
    (rows : List (EnlistedRow σ)) (state : σ) :
    Except EnlistError BatchOutcome × Node σ × σ :=
  let ctx : ApplyContext σ :=
    { op, filter := req.filter, snapshot := req.snapshot, lock := req.lock,
      needResult := req.needResult }
  match n.state.stageRows ctx rows state with
  | (.error e, state) => (.error e, n, state)
  | (.ok staged, state) =>
    let partitions := rows.map fun row => row.keyObject.partition
    match (topology state).validate req.topology partitions n.id with
    | .error e => (.error e, n, state)
    | .ok () => (.ok staged.outcome, { n with state := n.state.commit staged.batch }, state)

/-- Applies a request. -/
def enlist (n : Node σ) (req : EnlistRequest σ) (state : σ) :
    Except EnlistError BatchOutcome × Node σ × σ :=
  match n.precheck req state with
  | .error e => (.error e, n, state)
  | .ok () =>
    match req.unmarshal n.loader with
    | (.error e, _) => (.error (.unmarshal e), n, state)
    | (.ok (), req) =>
      let rows := req.takeRows.1
      let partitions := rows.map fun row => row.keyObject.partition
      match (topology state).validate req.topology partitions n.id with
      | .error e => (.error e, n, state)
      | .ok () =>
        match req.op with
        | none => (.ok {}, n, state)
        | some op => n.applyRows req op rows state

/-- The answer to a request with a given outcome. -/
def respond (req : EnlistRequest σ) (outcome : Except EnlistError BatchOutcome) :
    EnlistResponse :=
  let response := EnlistResponse.ofRequest req.base.cacheId req.futureId req.mini req.lock
  match outcome with
  | .error (.topologyMismatch _ current) => { response with remap := some current }
  | .error e => { response with error := some (.ofError e) }
  | .ok outcome =>
    let response := (response.withUpdateCount outcome.updated).withFailures outcome.failures
    if req.needResult then { response with result := some outcome.previous } else response

/-- Handles a request. Failures are reported in the answer. -/
def handleRequest (n : Node σ) (req : EnlistRequest σ) (state : σ) :
    EnlistResponse × Node σ × σ :=
  let r := n.enlist req state
  (respond req r.1, r.2)

/-- The request in some octets. -/
def decodeRequest (n : Node σ) (payload : Bytes) : Except HandleError (EnlistRequest σ) :=
  let decoder : Decoder := { accepted := [.request], maxLength := n.config.maxArrayLength }
  match (decoder.firstOf (payload.pieces n.config.chunkSize)).1 with
  | .error e => .error (.decode e)
  | .ok (some ⟨.request, record⟩) => .ok (WireForm.ofRecord record)
  | .ok _ => .error .truncated

/-- The octets of an answer. -/
def encodeResponse (n : Node σ) (response : EnlistResponse) : Except HandleError Bytes :=
  let draft : Draft := ⟨.response, WireForm.toRecord response.marshal⟩
  (draft.encodeChunked n.config.chunkSize).mapError .encode

/-- Answers a request given as octets with octets. -/
def handleBytes (n : Node σ) (payload : Bytes) (state : σ) :
    Except HandleError Bytes × Node σ × σ :=
  match n.decodeRequest payload with
  | .error e => (.error e, n, state)
  | .ok req =>
    let r := n.handleRequest req state
    (n.encodeResponse r.1, r.2)

end Node

end Enlistment
