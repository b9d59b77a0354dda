import Enlistment.Config
import Enlistment.Registry
import Enlistment.Topology

/-!
# The caller of an enlistment

An enlister sends batches of rows to the nodes that own them on behalf of
transactions. It numbers its requests and keeps track of those in flight.
-/

namespace Enlistment

/-- What all requests of one transaction have in common. -/
structure Transaction where
  lock : LockVersion
  snapshot : Option Snapshot := none
  threadId : Int64 := 0
  taskName : Option String := none
  /-- The time the transaction may take, if it is positive. -/
  timeoutMs : Int64 := 0
  /-- A client node started the transaction. -/
  client : Bool := false

/-- What a caller asks of one operation. -/
structure EnlistOptions (σ : Type) where
  filter : Option (Filter σ) := none
  /-- The caller wants the previous value of each row. -/
  needResult : Bool := false
  keepBinary : Bool := false
  /-- The time each request may take instead of the configured one. -/
  timeoutMs : Option Nat := none

/-- A row with its position in the caller's batch. -/
abbrev IndexedRow := Nat × Row

/-- The calling side of one node. -/
structure Enlister (σ : Type) where
  id : NodeId
  config : EnlistConfig
  loader : ClassLoader σ
  context : MarshalContext
  registry : Registry := {}
  /-- The number of the next request. -/
  nextMini : MiniId := 1
  nextMessageId : Int64 := 1

/-- The version of the classes that an enlister deploys. -/
def deployedVersion : String := "0.1.0"

namespace Enlister

variable {σ : Type}

/-- An enlister without requests in flight. Its messages name `loaderId` as the source
of its classes if the configuration asks for deployment info. -/
def start (id : NodeId) (config : EnlistConfig) (partitions : UInt32) (loader : ClassLoader σ)
    (loaderId : Uuid) : Except ConfigError (Enlister σ) :=
  config.validate.map fun _ =>
    { id, config, loader
      context := { MarshalContext.ofCache config.cacheId partitions with
        deployment :=
          if config.deploymentEnabled then some ⟨loaderId, .shared, deployedVersion⟩ else none } }

/-- Forgets the requests of an operation and gives their number. Requests on their way
still reach their nodes. -/
def cancel (e : Enlister σ) (future : FutureId) : Nat × Enlister σ :=
  let r := e.registry.cancel future
  (r.1, { e with registry := r.2 })

end Enlister

end Enlistment
