import Enlistment.Message.Basic

/-!
# Wire form of requests

The keys of a request come before its operation and the values after it, so the
rows are put together, and checked to fit, when all fields are there.
-/

namespace Enlistment

open Wire

/-- The slots of the fields every message about a cache starts with. -/
abbrev BaseSlots (S : Type) := Option DeploymentRecord × TopologyRecord × Int64 × Int32 × S

/-- The fields every message about a cache starts with. -/
def baseFields {S : Type} (rest : Fields S) : Fields (BaseSlots S) :=
  .cons (.optional deploymentLayout) (.cons (.required "lastAffChangedTopVer" topologyLayout)
    (.cons .int64 (.cons .int32 rest)))

/-- The slots that a message starts with. -/
def MessageBase.toSlots {S : Type} (base : MessageBase) (rest : S) : BaseSlots S :=
  (base.deployment.map WireForm.toRecord, WireForm.toRecord base.lastAffinityChange,
    base.messageId, base.cacheId, rest)

/-- The start of a message, from its slots. -/
def MessageBase.ofSlots {S : Type} : BaseSlots S → MessageBase
  | (deployment, lastAffinityChange, messageId, cacheId, _) =>
    { deployment := deployment.map WireForm.ofRecord
      lastAffinityChange := WireForm.ofRecord lastAffinityChange
      messageId, cacheId }

/-- Writes the field of a base that the state of the frame selects. -/
def MessageBase.writeField (base : MessageBase) (sink : Sink) : Writing :=
  let slots := base.toSlots ()
  match sink.stack.top.state with
  | 0 => (Field.optional deploymentLayout).write slots.1 sink
  | 1 => (Field.required "lastAffChangedTopVer" topologyLayout).write slots.2.1 sink
  | 2 => writeInt64 base.messageId sink
  | 3 => writeInt32 base.cacheId sink
  | state => .stop (.failed (.invalidPayload (.notBaseField state))) sink

/-- Reads the field of a base that the state of the frame selects. -/
def readBaseField (maxLength : Nat) (slots : BaseSlots Unit) (src : Source) :
    Reading (BaseSlots Unit) :=
  match src.stack.top.state with
  | 0 =>
    ((Field.optional deploymentLayout).read maxLength (-1) slots.1 src).map
      fun deployment => (deployment, slots.2)
  | 1 =>
    ((Field.required "lastAffChangedTopVer" topologyLayout).read maxLength (-1) slots.2.1 src).map
      fun affinity => (slots.1, affinity, slots.2.2)
  | 2 => (readInt64 slots.2.2.1 src).map fun id => (slots.1, slots.2.1, id, slots.2.2.2)
  | 3 =>
    (readInt32 slots.2.2.2.1 src).map fun id => (slots.1, slots.2.1, slots.2.2.1, id, ())
  | state => ⟨.failed (.invalidPayload (.notBaseField state)), slots, src⟩

/-- The operation an ordinal stands for on the wire. -/
def Operation.ofWire (n : Int8) : Except CodecError (Option Operation) :=
  if ordinalAllowed Operation.all.length true n then .ok (Operation.ofOrdinal? n)
  else .error (.invalidOrdinal "op" n)

/-- Slots for the keys of a request. -/
abbrev RequestKeys := KeysSlot KeyRecord

/-- Slots for the values or invocations of a request. -/
abbrev RequestValues := ValuesSlot ValueRecord InvokeRecord

/-- What goes with some keys, given the operation: values or invocations, as many as
there are keys, or nothing where the operation takes keys alone. -/
def assembleValues (op : Option Operation) (keys : List KeyRecord)
    (values : Option (List ValueRecord)) (invocations : Option (List InvokeRecord)) :
    Except CodecError (Option (List ValueRecord ⊕ List InvokeRecord)) :=
  let counted (count : Nat) (items : List ValueRecord ⊕ List InvokeRecord) :=
    if count = keys.length then Except.ok (some items)
    else .error (.invalidPayload (.valueCount keys.length count))
  let missing := Except.error (.invalidPayload (.valuesMissing op))
  match op, values, invocations with
  | none, none, none => .ok none
  | none, some values, none => counted values.length (.inl values)
  | some op, values, invocations =>
    if op.isDeleteOrLock then
      match values, invocations with
      | none, none => .ok none
      | some _, _ => .error (.invalidPayload (.valuesPresent op))
      | none, some _ => missing
    else if op.isInvoke then
      match values, invocations with
      | none, some invocations => counted invocations.length (.inr invocations)
      | _, _ => missing
    else
      match values, invocations with
      | some values, none => counted values.length (.inl values)
      | _, _ => missing
  | _, _, _ => missing

/-- Puts the rows that came in together. They are used up even if they do not fit. -/
def assembleRows (tag : Int8) (keys : RequestKeys) (values : RequestValues) :
    Except CodecError Unit × RequestKeys × RequestValues :=
  let assembled : Except CodecError (Option (List KeyRecord) ×
      Option (List ValueRecord ⊕ List InvokeRecord)) :=
    match keys.inbound with
    | none =>
      if values.inboundValues.isSome || values.inboundInvocations.isSome then
        .error (.invalidPayload .valuesWithoutKeys)
      else .ok (none, none)
    | some ks =>
      (assembleValues (Operation.ofOrdinal? tag) ks values.inboundValues values.inboundInvocations).map
        fun items => (some ks, items)
  match assembled with
  | .error e =>
    (.error e, { keys with inbound := none },
      { values with inboundValues := none, inboundInvocations := none })
  | .ok (ks, items) => (.ok (), { settled := ks }, { settled := items })

/-- The slots of a request after its base. -/
abbrev RequestSlots := Bool × Option FilterRecord × BitVec 128 × Bool × RequestKeys ×
  LockRecord × Int32 × Option SnapshotRecord × Bool × Int8 × Int32 × Int64 × Int64 ×
  TopologyRecord × Int64 × RequestValues × Unit

/-- Records of requests. -/
abbrev RequestRecord := Record (BaseSlots RequestSlots)

/-- Settles the rows of a request. -/
def settleRequest : BaseSlots RequestSlots → Except CodecError Unit × BaseSlots RequestSlots
  | (deployment, affinity, messageId, cacheId, clientFirst, filter, future, keepBinary, keys,
      lock, mini, snapshot, needResult, op, taskHash, threadId, timeout, topology, txTimeout,
      values, ()) =>
    match assembleRows op keys values with
    | (check, keys, values) =>
      (check, deployment, affinity, messageId, cacheId, clientFirst, filter, future, keepBinary,
        keys, lock, mini, snapshot, needResult, op, taskHash, threadId, timeout, topology,
        txTimeout, values, ())

/-- The layout of requests. -/
def requestLayout : Layout RequestRecord :=
  .message 159 (baseFields (.cons .flag (.cons (.optional filterLayout) (.cons .uint128
    (.cons .flag (.cons (.keys keyLayout) (.cons (.required "lockVer" lockLayout)
    (.cons .int32 (.cons (.optional snapshotLayout) (.cons .flag
    (.cons (.ordinal "op" 6 true (-1)) (.cons .int32 (.cons .int64 (.cons .int64
    (.cons (.required "topVer" topologyLayout) (.cons .int64
    (.cons (.values Operation.invoke.ordinal valueLayout invokeLayout) .nil)))))))))))))))))
    settleRequest

/-- The slots of rows in wire form. -/
def WireRows.toSlots {σ : Type} (rows : Option (WireRows σ)) (unconverted : Bool) :
    RequestKeys × RequestValues :=
  let items : Option (List ValueRecord ⊕ List InvokeRecord) :=
    match rows with
    | none | some (.keysOnly _) => none
    | some (.entries _ values) => some (.inl (values.map WireForm.toRecord))
    | some (.invokes _ items) => some (.inr (items.map WireForm.toRecord))
  ({ settled := rows.map fun rows => rows.keys.map WireForm.toRecord, unconverted },
    { settled := items })

/-- The rows in wire form, from their slots. -/
def WireRows.ofSlots {σ : Type} (keys : RequestKeys) (values : RequestValues) :
    Option (WireRows σ) :=
  keys.settled.map fun ks =>
    let ks := ks.map WireForm.ofRecord
    match values.settled with
    | none => .keysOnly ks
    | some (.inl items) => .entries ks (items.map WireForm.ofRecord)
    | some (.inr items) => .invokes ks (items.map WireForm.ofRecord)

instance {σ : Type} : WireForm (EnlistRequest σ) where
  Rec := RequestRecord
  layout := requestLayout
  toRecord req :=
    let unconverted := req.wire.isNone && (req.pending.getD []).length != 0
    let rows := WireRows.toSlots req.wire unconverted
    ⟨if req.addDeployment then deploymentFlag else 0,
      req.base.toSlots (req.clientFirst, req.filter.map WireForm.toRecord, req.futureId.id,
        req.keepBinary, rows.1, WireForm.toRecord req.lock, req.mini,
        req.snapshot.map WireForm.toRecord, req.needResult,
        (req.op.map Operation.ordinal).getD (-1), req.taskHash, req.threadId, req.timeoutMs,
        WireForm.toRecord req.topology, req.txTimeoutMs, rows.2, ())⟩
  ofRecord
    | ⟨flags, deployment, affinity, messageId, cacheId, clientFirst, filter, future, keepBinary,
        keys, lock, mini, snapshot, needResult, op, taskHash, threadId, timeout, topology,
        txTimeout, values, ()⟩ =>
      { base := .ofSlots (deployment, affinity, messageId, cacheId, ())
        clientFirst
        filter := filter.map WireForm.ofRecord
        futureId := ⟨future⟩
        keepBinary
        lock := WireForm.ofRecord lock
        mini
        snapshot := snapshot.map WireForm.ofRecord
        needResult
        op := Operation.ofOrdinal? op
        taskHash
        threadId
        timeoutMs := timeout
        topology := WireForm.ofRecord topology
        txTimeoutMs := txTimeout
        addDeployment := flags &&& deploymentFlag != 0
        wire := WireRows.ofSlots keys values }

end Enlistment
