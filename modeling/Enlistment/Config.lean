import Enlistment.Wire.Header

/-!
# Configuration

The settings of enlistment for a cache on one node.
-/

namespace Enlistment

/-- The settings of a cache. -/
structure EnlistConfig where
  cacheId : Int32 := 1
  partitions : UInt32 := 1024
  /-- Attach deployment info to messages that refer to user classes. -/
  deploymentEnabled : Bool := false
  /-- Requests carry snapshots. -/
  mvccEnabled : Bool := false
  /-- Octets of the buffers that messages are written to and read from. -/
  chunkSize : Nat := 8 * 1024
  /-- Idle buffers kept by the pool. -/
  pooledBuffers : Nat := 16
  requestTimeoutMs : Nat := 10000
  /-- Attempts after a change of topology before an operation fails. -/
  maxRemapAttempts : UInt32 := 3
  /-- The longest byte string or array accepted from the wire. -/
  maxArrayLength : Nat := Wire.defaultMaxLength
  deriving DecidableEq, Repr

/-- What is wrong with a configuration. -/
inductive ConfigError where
  | noPartitions
  | chunkTooSmall (size : Nat)
  | noTimeout
  | arrayLimitOutOfRange (limit : Nat)
  deriving DecidableEq, Repr

/-- The wording of a fault in a configuration. -/
def ConfigError.message : ConfigError → String
  | noPartitions => "partitions must be positive"
  | chunkTooSmall size =>
    "chunk_size must be at least " ++ toString Wire.minBufferLength ++ " bytes, got " ++
      toString size
  | noTimeout => "request_timeout_ms must be positive"
  | arrayLimitOutOfRange limit => "max_array_len out of range: " ++ toString limit

/-- Checks a configuration and names its first fault. -/
def EnlistConfig.validate (c : EnlistConfig) : Except ConfigError Unit :=
  if c.partitions = 0 then .error .noPartitions
  else if c.chunkSize < Wire.minBufferLength then .error (.chunkTooSmall c.chunkSize)
  else if c.requestTimeoutMs = 0 then .error .noTimeout
  else if c.maxArrayLength = 0 ∨ Wire.maxWireLength < c.maxArrayLength then
    .error (.arrayLimitOutOfRange c.maxArrayLength)
  else .ok ()

end Enlistment
