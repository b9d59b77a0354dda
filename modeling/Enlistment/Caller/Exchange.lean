import Enlistment.Message.Response
import Enlistment.Caller.Mapping
import Enlistment.Stream.Decoder
import Enlistment.Stream.Encoder

/-!
# Exchanges

An exchange sends the request of one part to its node and takes what comes back.
Whatever comes back is told to the registry, and the caller gets its outcome from
there.
-/

namespace Enlistment

/-- How an exchange ends. -/
inductive Exchange where
  | replied (bytes : Bytes)
  /-- The network failed. -/
  | failed (chain : CauseChain)
  | timedOut
  deriving DecidableEq, Repr

namespace Part

/-- The position in the caller's batch of a row of the part. -/
def callerIndex (part : Part) (index : Nat) : Nat :=
  match part.rows[index]? with
  | some row => row.1
  | none => index

/-- A failure to marshal the part, with the position of the row in the caller's batch. -/
def reindex (part : Part) : MarshalError → MarshalError
  | .nullKey index => .nullKey (part.callerIndex index)
  | .missingValue index => .missingValue (part.callerIndex index)
  | .rowShape index op => .rowShape (part.callerIndex index) op
  | .missingOperation => .missingOperation

end Part

namespace Enlister

variable {σ : Type}

/-- The octets of the request of a part. -/
def encodeRequest (e : Enlister σ) (part : Part) (req : EnlistRequest σ) :
    Except EnlistError Bytes :=
  match req.marshal e.context with
  | .error err => .error (.marshal (part.reindex err))
  | .ok req =>
    (Draft.encodeChunked ⟨.request, WireForm.toRecord req⟩ e.config.chunkSize).mapError .codec

/-- The response in some octets, with its values rebuilt. -/
def readReply (e : Enlister σ) (bytes : Bytes) : Except EnlistError EnlistResponse :=
  match decodeChunked [.response] bytes e.config.chunkSize with
  | .error err => .error (.codec err)
  | .ok ⟨.response, record⟩ =>
    match EnlistResponse.unmarshal e.context.keepBinary e.loader.hasClass
      (WireForm.ofRecord record) with
    | (.error err, _) => .error (.unmarshal err)
    | (.ok (), response) => .ok response
  | .ok draft => .error (.codec (.unexpectedType responseLayout.type draft.code))

/-- The registry after a request was registered and then sent, unless it could not be
brought into octets. Gives the position of its receiver and the octets. -/
def launch (registry : Registry) (key : RequestKey) (rx : Nat)
    (encoded : Except EnlistError Bytes) : Except EnlistError (Nat × Bytes) × Registry :=
  match encoded with
  | .error err =>
    match registry.transition key .failed with
    | (.error fault, registry) => (.error fault, registry)
    | (.ok (), registry) => (.error err, registry.complete key)
  | .ok payload =>
    match registry.transition key .marshalled with
    | (.error fault, registry) => (.error fault, registry)
    | (.ok (), registry) =>
      match registry.transition key .sent with
      | (.error fault, registry) => (.error fault, registry)
      | (.ok (), registry) => (.ok (rx, payload), registry)

/-- Registers and sends the request of a part, which is given its message id. -/
def dispatch (e : Enlister σ) (future : FutureId) (part : Part)
    (request : Int64 → EnlistRequest σ) : Except EnlistError (Nat × Bytes) × Enlister σ :=
  let key := (future, part.mini)
  match e.registry.register key with
  | (.error err, registry) => (.error err, { e with registry })
  | (.ok rx, registry) =>
    let r := launch registry key rx (e.encodeRequest part (request e.nextMessageId))
    (r.1, { e with registry := r.2, nextMessageId := e.nextMessageId + 1 })

/-- Hands a response to the request it answers. If nobody waits for it, the request it
came for fails. -/
def accept (registry : Registry) (key : RequestKey) (response : EnlistResponse) : Registry :=
  match registry.onResponse response with
  | (true, registry) => registry
  | (false, registry) =>
    (registry.onFailure key (.remote "response does not match the request")).2

/-- Tells the registry how the exchange of a request ended. -/
def settle (e : Enlister σ) (key : RequestKey) (limitMs : Nat) (x : Exchange) : Enlister σ :=
  { e with registry :=
      match x with
      | .failed chain => (e.registry.onFailure key (.transport chain)).2
      | .timedOut => (e.registry.onFailure key (.timeout key.1 key.2 limitMs)).2
      | .replied bytes =>
        match e.readReply bytes with
        | .error err => (e.registry.onFailure key err).2
        | .ok response => accept e.registry key response }

/-- The outcome at a receiver, if there is one. A closed receiver means that the
request was cancelled. -/
def collect (e : Enlister σ) (key : RequestKey) (rx : Nat) : Option Delivery × Enlister σ :=
  match e.registry.poll rx with
  | (.waiting, registry) => (none, { e with registry })
  | (.delivered outcome, registry) => (some outcome, { e with registry })
  | (_, registry) => (some (.error (.cancelled key.1 key.2)), { e with registry })

end Enlister

end Enlistment
