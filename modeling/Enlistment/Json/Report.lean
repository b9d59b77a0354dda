import Enlistment.Json
import Enlistment.Message.Draft
import Enlistment.Registry
import Enlistment.Store

/-!
# Reports

A report describes data in compact JSON for those who look at it from outside. Byte
strings and identifiers are given in hexadecimal digits, versions as arrays of their
components, and failures by their kind and their wording. Reports are not read back.
-/

namespace Enlistment

open Wire

/-- A type with reports. -/
class Report (A : Type) where
  report : A → Json

export Report (report)

namespace Bytes

/-- The hexadecimal digits of a byte string. -/
def hex (bs : Bytes) : String :=
  String.ofList (bs.flatMap fun b => [Nat.digitChar (b.toNat / 16), Nat.digitChar (b.toNat % 16)])

end Bytes

/-- The report of a failure. -/
def failureReport (kind text : String) : Json :=
  .object [("error", .text kind), ("message", .text text)]

instance : Report Json := ⟨id⟩

instance : Report Bool := ⟨.bool⟩

instance : Report String := ⟨.text⟩

instance : Report Nat := ⟨fun n => .int n⟩

instance : Report Int8 := ⟨fun n => .int n.toInt⟩

instance : Report Int32 := ⟨fun n => .int n.toInt⟩

instance : Report Int64 := ⟨fun n => .int n.toInt⟩

instance : Report UInt8 := ⟨fun n => .int n.toNat⟩

instance : Report UInt16 := ⟨fun n => .int n.toNat⟩

instance : Report UInt32 := ⟨fun n => .int n.toNat⟩

instance : Report UInt64 := ⟨fun n => .int n.toNat⟩

instance : Report Unit := ⟨fun _ => .text "ok"⟩

instance {A : Type} [Report A] : Report (List A) := ⟨fun items => .array (items.map report)⟩

instance : Report Bytes := ⟨fun bs => .text bs.hex⟩

instance {A : Type} [Report A] : Report (Option A) where
  report
    | none => .null
    | some a => report a

instance {E A : Type} [Report E] [Report A] : Report (Except E A) where
  report
    | .ok a => report a
    | .error e => report e

instance : Report Ordering where
  report
    | .lt => .int (-1)
    | .eq => .int 0
    | .gt => .int 1

instance : Report Uuid := ⟨fun id => .text (Uuid.hexDigits id 32)⟩

instance : Report FutureId := ⟨fun f => report f.id⟩

instance : Report TopologyVersion := ⟨fun v => .array [report v.major, report v.minor]⟩

instance : Report LockVersion :=
  ⟨fun v => .array [report v.topologyOrder, report v.order, report v.nodeOrder]⟩

instance : Report EntryVersion := ⟨fun v => .array [report v.coordinator, report v.counter]⟩

instance : Report Snapshot where
  report s := .object
    [("crd", report s.coordinator), ("counter", report s.counter),
      ("op_counter", report s.opCounter), ("cleanup", report s.cleanup),
      ("active", report s.active)]

instance : Report VersionedValue :=
  ⟨fun v => .array [report v.version.coordinator, report v.version.counter, report v.value]⟩

instance : Report Operation := ⟨fun op => .text op.name⟩

instance : Report RequestState := ⟨fun s => .text s.name⟩

instance : Report DeploymentInfo where
  report d := .object
    [("id", report d.loaderId), ("mode", .text d.mode.name), ("version", .text d.userVersion)]

mutual
/-- The report of a value. -/
def Value.toReport : Value → Json
  | .null => .object [("null", .bool true)]
  | .bool b => .bool b
  | .int n => report n
  | .text s => .text s
  | .bytes bs => .object [("bytes", .text bs.hex)]
  | .object className fields =>
    .object [("class", .text className), ("fields", .array (fieldReports fields))]
/-- The reports of named fields. -/
def Value.fieldReports : List (String × Value) → List Json
  | [] => []
  | (name, v) :: rest => .array [.text name, v.toReport] :: fieldReports rest
end

instance : Report Value := ⟨Value.toReport⟩

/-- The name of the kind of a wire error. -/
def Wire.CodecError.kind : CodecError → String
  | unexpectedType .. => "UnexpectedType"
  | unknownType .. => "UnknownType"
  | unsupportedVersion .. => "UnsupportedVersion"
  | fieldCountMismatch .. => "FieldCountMismatch"
  | nullElement => "NullElement"
  | lengthOverflow .. => "LengthOverflow"
  | invalidLength .. => "InvalidLength"
  | invalidOrdinal .. => "InvalidOrdinal"
  | notMarshalled => "NotMarshalled"
  | invalidPayload .. => "InvalidPayload"

/-- The name of the kind of a marshalling failure. -/
def MarshalError.kind : MarshalError → String
  | nullKey .. => "NullKey"
  | missingValue .. => "MissingValue"
  | rowShape .. => "RowShape"
  | missingOperation => "MissingOperation"

/-- The name of the kind of an unmarshalling failure. -/
def UnmarshalError.kind : UnmarshalError → String
  | decode .. => "Decode"
  | classNotFound .. => "ClassNotFound"
  | missingOperation => "MissingOperation"
  | typeMismatch .. => "TypeMismatch"

/-- The name of the kind of a failed enlistment, behind the layer it comes from. -/
def EnlistError.kind : EnlistError → String
  | marshal e => "Marshal." ++ e.kind
  | unmarshal e => "Unmarshal." ++ e.kind
  | codec e => "Codec." ++ e.kind
  | topologyMismatch .. => "Enlist.TopologyMismatch"
  | timeout .. => "Enlist.Timeout"
  | predicateFailure .. => "Enlist.PredicateFailure"
  | mvccModeMismatch .. => "Enlist.MvccModeMismatch"
  | noPrimary .. => "Enlist.NoPrimary"
  | unknownCache .. => "Enlist.UnknownCache"
  | remote .. => "Enlist.Remote"
  | cancelled .. => "Enlist.Cancelled"
  | invalidTransition .. => "Enlist.InvalidTransition"
  | notRegistered .. => "Enlist.NotRegistered"
  | remapLimit .. => "Enlist.RemapLimit"
  | transport .. => "Enlist.Transport"

instance : Report EnlistError := ⟨fun e => failureReport e.kind e.message⟩

instance : Report MarshalError := ⟨fun e => report (EnlistError.marshal e)⟩

instance : Report UnmarshalError := ⟨fun e => report (EnlistError.unmarshal e)⟩

instance : Report DecodeError := ⟨fun e => report (UnmarshalError.decode e)⟩

instance : Report CodecError := ⟨fun e => report (EnlistError.codec e)⟩

instance : Report Progress where
  report
    | .advance => .text "advance"
    | .incomplete => .text "incomplete"
    | .failed e => report e

instance : Report KeyObject where
  report k := .object
    [("part", report k.partition), ("bytes", report k.bytes), ("value", report k.value)]

instance : Report ValueObject where
  report v := .object [("bytes", report v.bytes), ("value", report v.value)]

instance : Report ReturnValue := ⟨fun r => report r.value⟩

instance : Report RowFailure := ⟨fun f => .array [report f.index, .text f.reason]⟩

instance : Report ErrorMessage where
  report m := .object
    [("kind", .text m.kind.name), ("text", .text m.text), ("display", .text m.render)]

instance : Report MessageBase where
  report b := .object
    [("cache_id", report b.cacheId), ("message_id", report b.messageId),
      ("last_aff", report b.lastAffinityChange), ("dep", report b.deployment)]

instance : Report Row where
  report
    | .key k => .object [("k", report k)]
    | .entry k v => .object [("k", report k), ("v", report v)]
    | .invoke k i => .object
        [("k", report k), ("proc", .text i.processor), ("args", report i.args)]

instance : Report EnlistResult where
  report r := .object
    [("previous", report r.previous), ("updated", report r.updated),
      ("failures", report r.failures)]

instance : Report EnlistResponse where
  report r := .object
    [("cache_id", report r.base.cacheId), ("fut", report r.futureId), ("mini", report r.mini),
      ("lock", report r.lock), ("result", report r.result),
      ("update_count", report r.updateCount), ("error", report r.error),
      ("remap", report r.remap), ("failures", report r.failures)]

instance : Report Receiver where
  report
    | .waiting => .text "empty"
    | .delivered outcome => report outcome
    | .closed => .text "closed"
    | .dropped => .text "dropped"

section

variable {σ : Type}

instance : Report (InvokeValue σ) where
  report i := .object
    [("processor", .text i.processor), ("args", report i.args),
      ("arg_values", report i.argValues), ("resolved", .bool i.resolved.isSome)]

instance : Report (Filter σ) where
  report f := .object
    [("kind", .text f.kind.name), ("class", report f.className),
      ("requires_deployment", .bool f.requiresDeployment)]

/-- The name of the shape of rows in wire form. -/
def WireRows.shape : WireRows σ → String
  | keysOnly _ => "keys"
  | entries .. => "entries"
  | invokes .. => "invokes"

/-- The report of what goes with the keys of rows in wire form. -/
def WireRows.valuesReport : WireRows σ → Json
  | keysOnly _ => .array []
  | entries _ values => report values
  | invokes _ items => report items

instance : Report (WireRows σ) where
  report rows := .object
    [("shape", .text rows.shape), ("keys", report rows.keys), ("values", rows.valuesReport),
      ("len", report rows.length), ("empty", .bool (rows.length == 0)),
      ("values_len", report rows.valuesLength)]

instance : Report (EnlistedRow σ) where
  report
    | .key k => .object [("key", report k)]
    | .entry k v => .object [("key", report k), ("value", report v)]
    | .invoke k i => .object [("key", report k), ("invoke", report i)]

instance : Report (EnlistRequest σ) where
  report r := .object
    [("dep", report r.base.deployment), ("last_aff", report r.base.lastAffinityChange),
      ("message_id", report r.base.messageId), ("cache_id", report r.base.cacheId),
      ("client_first", .bool r.clientFirst), ("filter", report r.filter),
      ("fut", report r.futureId), ("keep_binary", .bool r.keepBinary), ("lock", report r.lock),
      ("mini", report r.mini), ("snapshot", report r.snapshot),
      ("need_result", .bool r.needResult), ("op", report r.op), ("task_hash", report r.taskHash),
      ("thread_id", report r.threadId), ("timeout", report r.timeoutMs),
      ("top", report r.topology), ("tx_timeout", report r.txTimeoutMs),
      ("add_dep", .bool r.addDeployment), ("pending", report r.pending),
      ("wire", report r.wire), ("rows", report r.enlisted)]

instance : Report (Message σ) where
  report
    | .topologyVersion v => report v
    | .lockVersion v => report v
    | .snapshot s => report s
    | .deploymentInfo d => report d
    | .key k => report k
    | .value v => report v
    | .invocation i => report i
    | .filter f => report f
    | .returnValue r => report r
    | .rowFailure f => report f
    | .error e => report e
    | .request r => report r
    | .response r => report r

end

end Enlistment
