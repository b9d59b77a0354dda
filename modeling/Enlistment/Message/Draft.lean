import Enlistment.Message.Response
import Enlistment.Wire.Encoding

/-!
# Messages of any type

A draft is a message of some type as far as it has been read. Streams carry drafts
and know the types they accept.
-/

namespace Enlistment

open Wire

/-- The types of messages. -/
inductive MessageType where
  | topologyVersion
  | lockVersion
  | snapshot
  | deploymentInfo
  | key
  | value
  | invocation
  | filter
  | returnValue
  | rowFailure
  | error
  | request
  | response
  deriving DecidableEq, Repr

namespace MessageType

/-- The records of a type. -/
def Rec : MessageType → Type
  | topologyVersion => TopologyRecord
  | lockVersion => LockRecord
  | snapshot => SnapshotRecord
  | deploymentInfo => DeploymentRecord
  | key => KeyRecord
  | value => ValueRecord
  | invocation => InvokeRecord
  | filter => FilterRecord
  | returnValue => ReturnRecord
  | rowFailure => FailureRecord
  | error => ErrorRecord
  | request => RequestRecord
  | response => ResponseRecord

/-- The layout of a type. -/
def layout : (t : MessageType) → Layout t.Rec
  | topologyVersion => topologyLayout
  | lockVersion => lockLayout
  | snapshot => snapshotLayout
  | deploymentInfo => deploymentLayout
  | key => keyLayout
  | value => valueLayout
  | invocation => invokeLayout
  | filter => filterLayout
  | returnValue => returnLayout
  | rowFailure => failureLayout
  | error => errorLayout
  | request => requestLayout
  | response => responseLayout

/-- All types. -/
def all : List MessageType :=
  [topologyVersion, lockVersion, snapshot, deploymentInfo, key, value, invocation, filter,
    returnValue, rowFailure, error, request, response]

/-- The type among those accepted that a type number announces. -/
def ofCode? (accepted : List MessageType) (code : UInt16) : Option MessageType :=
  accepted.find? fun t => t.layout.type == code

/-- The types that share one connection. -/
def envelope : List MessageType := [request, response]

end MessageType

/-- A message as far as it has been read. -/
structure Draft where
  type : MessageType
  record : type.Rec

namespace Draft

/-- A message of a type of which nothing has been read. -/
def blank (t : MessageType) : Draft := ⟨t, t.layout.blank⟩

/-- Reads as much of a message as the octets at hand allow. -/
def read (maxLength : Nat) (d : Draft) (src : Source) : Reading Draft :=
  (d.type.layout.read maxLength d.record src).map fun record => ⟨d.type, record⟩

/-- Writes as much of a message as there is room for. -/
def write (d : Draft) (sink : Sink) : Writing := d.type.layout.write d.record sink

/-- The octets of a message. -/
def encode (d : Draft) : Bytes := d.type.layout.encode d.record

/-- The type number of a message. -/
def code (d : Draft) : UInt16 := d.type.layout.type

/-- The number of fields of a message. -/
def fieldCount (d : Draft) : Nat := d.type.layout.fieldCount

end Draft

/-- A message of any type. -/
inductive Message (σ : Type) where
  | topologyVersion (v : TopologyVersion)
  | lockVersion (v : LockVersion)
  | snapshot (s : Snapshot)
  | deploymentInfo (d : DeploymentInfo)
  | key (k : KeyObject)
  | value (v : ValueObject)
  | invocation (i : InvokeValue σ)
  | filter (f : Filter σ)
  | returnValue (r : ReturnValue)
  | rowFailure (f : RowFailure)
  | error (e : ErrorMessage)
  | request (r : EnlistRequest σ)
  | response (r : EnlistResponse)

namespace Message

variable {σ : Type}

/-- The draft that is written for a message. -/
def toDraft : Message σ → Draft
  | topologyVersion v => ⟨.topologyVersion, WireForm.toRecord v⟩
  | lockVersion v => ⟨.lockVersion, WireForm.toRecord v⟩
  | snapshot s => ⟨.snapshot, WireForm.toRecord s⟩
  | deploymentInfo d => ⟨.deploymentInfo, WireForm.toRecord d⟩
  | key k => ⟨.key, WireForm.toRecord k⟩
  | value v => ⟨.value, WireForm.toRecord v⟩
  | invocation i => ⟨.invocation, WireForm.toRecord i⟩
  | filter f => ⟨.filter, WireForm.toRecord f⟩
  | returnValue r => ⟨.returnValue, WireForm.toRecord r⟩
  | rowFailure f => ⟨.rowFailure, WireForm.toRecord f⟩
  | error e => ⟨.error, WireForm.toRecord e⟩
  | request r => ⟨.request, WireForm.toRecord r⟩
  | response r => ⟨.response, WireForm.toRecord r⟩

/-- The message of a draft. -/
def ofDraft : Draft → Message σ
  | ⟨.topologyVersion, r⟩ => topologyVersion (WireForm.ofRecord (M := TopologyVersion) r)
  | ⟨.lockVersion, r⟩ => lockVersion (WireForm.ofRecord (M := LockVersion) r)
  | ⟨.snapshot, r⟩ => snapshot (WireForm.ofRecord (M := Snapshot) r)
  | ⟨.deploymentInfo, r⟩ => deploymentInfo (WireForm.ofRecord (M := DeploymentInfo) r)
  | ⟨.key, r⟩ => key (WireForm.ofRecord (M := KeyObject) r)
  | ⟨.value, r⟩ => value (WireForm.ofRecord (M := ValueObject) r)
  | ⟨.invocation, r⟩ => invocation (WireForm.ofRecord (M := InvokeValue σ) r)
  | ⟨.filter, r⟩ => filter (WireForm.ofRecord (M := Filter σ) r)
  | ⟨.returnValue, r⟩ => returnValue (WireForm.ofRecord (M := ReturnValue) r)
  | ⟨.rowFailure, r⟩ => rowFailure (WireForm.ofRecord (M := RowFailure) r)
  | ⟨.error, r⟩ => error (WireForm.ofRecord (M := ErrorMessage) r)
  | ⟨.request, r⟩ => request (WireForm.ofRecord (M := EnlistRequest σ) r)
  | ⟨.response, r⟩ => response (WireForm.ofRecord (M := EnlistResponse) r)

/-- Brings a message into wire form. -/
def marshal (ctx : MarshalContext) : Message σ → Except MarshalError (Message σ)
  | key k => .ok (key (k.marshal ctx))
  | value v => .ok (value v.marshal)
  | invocation i => .ok (invocation i.marshal)
  | filter f => .ok (filter f.marshal)
  | returnValue r => .ok (returnValue r.marshal)
  | request r => (r.marshal ctx).map request
  | response r => .ok (response r.marshal)
  | m => .ok m

/-- Rebuilds a message from its wire form. A request says itself whether its objects
stay in binary form. -/
def unmarshal (keepBinary : Bool) (loader : ClassLoader σ) :
    Message σ → Except UnmarshalError Unit × Message σ
  | key k => (k.unmarshal keepBinary loader.hasClass).map id key
  | value v => (v.unmarshal keepBinary loader.hasClass).map id value
  | invocation i => (i.unmarshal keepBinary loader).map id invocation
  | filter f => (f.unmarshal keepBinary loader).map id filter
  | returnValue r => (r.unmarshal keepBinary loader.hasClass).map id returnValue
  | request r => (r.unmarshal loader).map id request
  | response r => (r.unmarshal keepBinary loader.hasClass).map id response
  | m => (.ok (), m)

/-- Messages are equal if they are of one type and equal in it. Requests have no
equality, as they may hold user code. -/
def same : Message σ → Message σ → Bool
  | topologyVersion a, topologyVersion b => a == b
  | lockVersion a, lockVersion b => a == b
  | snapshot a, snapshot b => a == b
  | deploymentInfo a, deploymentInfo b => a == b
  | key a, key b => a == b
  | value a, value b => a == b
  | invocation a, invocation b => a == b
  | filter a, filter b => a == b
  | returnValue a, returnValue b => a == b
  | rowFailure a, rowFailure b => a == b
  | error a, error b => a == b
  | response a, response b => a == b
  | _, _ => false

end Message

end Enlistment
