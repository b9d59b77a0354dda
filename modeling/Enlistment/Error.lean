import Enlistment.Identity
import Enlistment.Registry.State
import Enlistment.Value.Encoding
import Enlistment.Version
import Enlistment.Wire.Error

/-!
# Failures

Each layer has its own causes of failure: bringing rows into wire form, rebuilding
them, and enlisting as a whole. Every cause is worded in one place.
-/

namespace Enlistment

/-- Why rows could not be brought into wire form. -/
inductive MarshalError where
  | nullKey (index : Nat)
  | missingValue (index : Nat)
  | rowShape (index : Nat) (op : Operation)
  | missingOperation
  deriving DecidableEq, Repr

/-- The wording of a failure to bring rows into wire form. -/
def MarshalError.message : MarshalError → String
  | nullKey index => "row " ++ toString index ++ ": key is null"
  | missingValue index =>
    "row " ++ toString index ++ ": value is required by the operation but absent"
  | rowShape index op =>
    "row " ++ toString index ++ ": row shape does not match operation " ++ op.name
  | missingOperation => "rows present but the enlist operation is absent"

/-- Why a message could not be rebuilt. -/
inductive UnmarshalError where
  | decode (e : DecodeError)
  | classNotFound (name : String)
  | missingOperation
  | typeMismatch (reason : String)
  deriving DecidableEq, Repr

/-- The wording of a failure to rebuild a message. -/
def UnmarshalError.message : UnmarshalError → String
  | decode e => "failed to decode cache object: " ++ e.message
  | classNotFound name => "class not found: " ++ name
  | missingOperation => "rows present but the enlist operation is absent"
  | typeMismatch reason => "type mismatch: " ++ reason

/-- Messages of nested causes, the outermost first. -/
abbrev CauseChain := List String

/-- The wording of a chain of causes. -/
def CauseChain.message (chain : CauseChain) : String := String.intercalate ": " chain

/-- Why an enlistment failed. -/
inductive EnlistError where
  | marshal (e : MarshalError)
  | unmarshal (e : UnmarshalError)
  | codec (e : Wire.CodecError)
  | topologyMismatch (requested current : TopologyVersion)
  | timeout (future : FutureId) (mini : MiniId) (afterMs : Nat)
  | predicateFailure (index : Nat)
  | mvccModeMismatch (cacheMvcc requestSnapshot : Bool)
  | noPrimary (partition : Int32)
  | unknownCache (cacheId : Int32)
  | remote (text : String)
  | cancelled (future : FutureId) (mini : MiniId)
  | invalidTransition (future : FutureId) (mini : MiniId) (old new : RequestState)
  | notRegistered (future : FutureId) (mini : MiniId)
  | remapLimit (attempts : UInt32)
  | transport (chain : CauseChain)
  deriving DecidableEq, Repr

namespace EnlistError

/-- The wording of the request an error is about. -/
def requestText (future : FutureId) (mini : MiniId) : String :=
  "request " ++ future.render ++ "/" ++ toString mini

/-- The wording of a failed enlistment. -/
def message : EnlistError → String
  | marshal e => e.message
  | unmarshal e => e.message
  | codec e => e.message
  | topologyMismatch requested current =>
    "topology mismatch: request mapped on " ++ requested.render ++ ", node is on " ++
      current.render
  | timeout future mini afterMs =>
    requestText future mini ++ " timed out after " ++ toString afterMs ++ " ms"
  | predicateFailure index => "row " ++ toString index ++ " rejected by filter"
  | mvccModeMismatch cacheMvcc requestSnapshot =>
    "mvcc mode mismatch: cache mvcc=" ++ toString cacheMvcc ++ ", request snapshot=" ++
      toString requestSnapshot
  | noPrimary partition => "no primary node for partition " ++ toString partition
  | unknownCache cacheId => "unknown cache " ++ toString cacheId
  | remote text => "remote node failed the request: " ++ text
  | cancelled future mini => requestText future mini ++ " was cancelled"
  | invalidTransition future mini old new =>
    requestText future mini ++ " cannot move from " ++ old.name ++ " to " ++ new.name
  | notRegistered future mini => requestText future mini ++ " is not registered"
  | remapLimit attempts => "gave up after " ++ toString attempts ++ " remap attempts"
  | transport chain => "transport failure: " ++ chain.message

/-- Whether the request should be tried again on a newer topology. -/
def isRetriable : EnlistError → Bool
  | topologyMismatch .. => true
  | _ => false

end EnlistError

end Enlistment
