import Enlistment.Message.Draft
import Enlistment.Proofs.Message.Rows

/-!
# What goes on the wire

The record of a message holds all of it but what its receiver rebuilds: the values of its
objects, resolved user code, and rows that are not in wire form.
-/

namespace Enlistment

open Wire

variable {σ : Type}

/-- A key as it goes on the wire, without its value. -/
def KeyObject.onWire (k : KeyObject) : KeyObject := { k with value := none }

/-- A value as it goes on the wire, without its rebuilt form. -/
def ValueObject.onWire (o : ValueObject) : ValueObject := { o with value := none }

/-- An invocation as it goes on the wire, without the resolved processor. -/
def InvokeValue.onWire (i : InvokeValue σ) : InvokeValue σ :=
  { i with args := i.args.map ValueObject.onWire, resolved := none }

/-- A filter as it goes on the wire, without the resolved predicate. -/
def Filter.onWire (f : Filter σ) : Filter σ :=
  { f with operand := f.operand.map ValueObject.onWire, resolved := none }

/-- A return value as it goes on the wire. -/
def ReturnValue.onWire (r : ReturnValue) : ReturnValue := ⟨r.object.map ValueObject.onWire⟩

/-- Rows in wire form as they go on the wire. -/
def WireRows.onWire : WireRows σ → WireRows σ
  | keysOnly keys => keysOnly (keys.map KeyObject.onWire)
  | entries keys values => entries (keys.map KeyObject.onWire) (values.map ValueObject.onWire)
  | invokes keys items => invokes (keys.map KeyObject.onWire) (items.map InvokeValue.onWire)

/-- A request as it goes on the wire, with its rows in wire form alone. -/
def EnlistRequest.onWire (req : EnlistRequest σ) : EnlistRequest σ :=
  { req with
    filter := req.filter.map Filter.onWire
    pending := none
    wire := req.wire.map WireRows.onWire
    enlisted := none }

/-- A response as it goes on the wire. -/
def EnlistResponse.onWire (r : EnlistResponse) : EnlistResponse :=
  { r with result := r.result.map fun values => values.map ReturnValue.onWire }

/-- A message as it goes on the wire. -/
def Message.onWire : Message σ → Message σ
  | key k => key k.onWire
  | value v => value v.onWire
  | invocation i => invocation i.onWire
  | filter f => filter f.onWire
  | returnValue r => returnValue r.onWire
  | request r => request r.onWire
  | response r => response r.onWire
  | m => m

/-! ## Ordinals -/

/-- A mode is read from its ordinal. -/
@[simp] theorem DeploymentMode.ofOrdinal_ordinal (mode : DeploymentMode) :
    ofOrdinal mode.ordinal = mode := by
  cases mode <;> rfl

/-- A kind of filter is read from its ordinal. -/
@[simp] theorem FilterKind.ofOrdinal_ordinal (kind : FilterKind) :
    ofOrdinal kind.ordinal = kind := by
  cases kind <;> rfl

/-- A kind of error is read from its ordinal. -/
@[simp] theorem ErrorKind.ofOrdinal_ordinal (kind : ErrorKind) :
    ofOrdinal kind.ordinal = kind := by
  cases kind <;> rfl

/-! ## Records -/

section

variable {M : Type} [WireForm M]

/-- What a record gives back of a message it gives back of a message that may be absent. -/
theorem option_ofRecord_toRecord (kept : M → M)
    (h : ∀ m : M, WireForm.ofRecord (WireForm.toRecord m) = kept m)
    (m : Option M) : (m.map WireForm.toRecord).map (WireForm.ofRecord (M := M)) = m.map kept := by
  rw [Option.map_map]
  exact Option.map_congr fun m _ => h m

/-- What a record gives back of a message it gives back of a list of messages. -/
theorem list_ofRecord_toRecord (kept : M → M)
    (h : ∀ m : M, WireForm.ofRecord (WireForm.toRecord m) = kept m)
    (ms : List M) : (ms.map WireForm.toRecord).map (WireForm.ofRecord (M := M)) = ms.map kept := by
  rw [List.map_map]
  exact List.map_congr_left fun m _ => h m

end

/-- A topology version goes on the wire as it is. -/
theorem TopologyVersion.ofRecord_toRecord (v : TopologyVersion) :
    WireForm.ofRecord (WireForm.toRecord v) = v := rfl

/-- A lock version goes on the wire as it is. -/
theorem LockVersion.ofRecord_toRecord (v : LockVersion) :
    WireForm.ofRecord (WireForm.toRecord v) = v := rfl

/-- A snapshot goes on the wire as it is, with its active transactions. -/
theorem Snapshot.ofRecord_toRecord (s : Snapshot) :
    WireForm.ofRecord (WireForm.toRecord s) = s := rfl

/-- Deployment info goes on the wire as it is. -/
theorem DeploymentInfo.ofRecord_toRecord (d : DeploymentInfo) :
    WireForm.ofRecord (WireForm.toRecord d) = d := by
  obtain ⟨loaderId, mode, userVersion⟩ := d
  cases mode <;> rfl

/-- A key comes back with its octets and its partition. -/
theorem KeyObject.ofRecord_toRecord (k : KeyObject) :
    WireForm.ofRecord (WireForm.toRecord k) = k.onWire := rfl

/-- A value comes back with its octets. -/
theorem ValueObject.ofRecord_toRecord (o : ValueObject) :
    WireForm.ofRecord (WireForm.toRecord o) = o.onWire := rfl

/-- An invocation comes back with the octets of its arguments. -/
theorem InvokeValue.ofRecord_toRecord (i : InvokeValue σ) :
    WireForm.ofRecord (WireForm.toRecord i) = i.onWire := by
  have hargs := list_ofRecord_toRecord _ ValueObject.ofRecord_toRecord i.args
  exact congrArg (fun args => ({ processor := i.processor, args } : InvokeValue σ)) hargs

/-- A filter comes back with its kind, the octets of its operand and its class. -/
theorem Filter.ofRecord_toRecord (f : Filter σ) :
    WireForm.ofRecord (WireForm.toRecord f) = f.onWire := by
  obtain ⟨kind, operand, className, resolved⟩ := f
  have hoperand := option_ofRecord_toRecord _ ValueObject.ofRecord_toRecord operand
  have hkind := FilterKind.ofOrdinal_ordinal kind
  show ({ kind := .ofOrdinal kind.ordinal
          operand := (operand.map WireForm.toRecord).map WireForm.ofRecord
          className := className } : Filter σ) = _
  rw [hkind, hoperand]
  rfl

/-- A return value comes back with the octets of its object. -/
theorem ReturnValue.ofRecord_toRecord (r : ReturnValue) :
    WireForm.ofRecord (WireForm.toRecord r) = r.onWire :=
  congrArg ReturnValue.mk (option_ofRecord_toRecord _ ValueObject.ofRecord_toRecord r.object)

/-- The failure of a row goes on the wire as it is. -/
theorem RowFailure.ofRecord_toRecord (f : RowFailure) :
    WireForm.ofRecord (WireForm.toRecord f) = f := rfl

/-- A reported error goes on the wire as it is. -/
theorem ErrorMessage.ofRecord_toRecord (m : ErrorMessage) :
    WireForm.ofRecord (WireForm.toRecord m) = m := by
  obtain ⟨kind, text⟩ := m
  cases kind <;> rfl

/-- The base of a message comes back from its slots. -/
theorem MessageBase.ofSlots_toSlots {S : Type} (base : MessageBase) (rest : S) :
    MessageBase.ofSlots (base.toSlots rest) = base := by
  obtain ⟨deployment, affinity, messageId, cacheId⟩ := base
  have hdeployment : (deployment.map WireForm.toRecord).map WireForm.ofRecord = deployment := by
    rw [option_ofRecord_toRecord id DeploymentInfo.ofRecord_toRecord, Option.map_id_apply]
  show MessageBase.mk ((deployment.map WireForm.toRecord).map WireForm.ofRecord) affinity messageId
    cacheId = _
  rw [hdeployment]

/-- Rows in wire form come back from their slots. -/
theorem WireRows.ofSlots_toSlots (rows : Option (WireRows σ)) (unconverted : Bool) :
    WireRows.ofSlots (WireRows.toSlots rows unconverted).1 (WireRows.toSlots rows unconverted).2 =
      rows.map WireRows.onWire := by
  have hkeys := list_ofRecord_toRecord _ KeyObject.ofRecord_toRecord
  have hvalues := list_ofRecord_toRecord _ ValueObject.ofRecord_toRecord
  have hitems := list_ofRecord_toRecord _ (InvokeValue.ofRecord_toRecord (σ := σ))
  rcases rows with _ | keys | ⟨keys, values⟩ | ⟨keys, items⟩
  · rfl
  · exact congrArg (fun ks => some (WireRows.keysOnly ks)) (hkeys keys)
  · show some (WireRows.entries _ _) = _
    rw [hkeys, hvalues]
    rfl
  · show some (WireRows.invokes _ _) = _
    rw [hkeys, hitems]
    rfl

/-- A request comes back from its record field by field. Its rows do if they are in wire
form. -/
theorem EnlistRequest.ofRecord_toRecord (req : EnlistRequest σ) :
    WireForm.ofRecord (WireForm.toRecord req) = req.onWire := by
  obtain ⟨base, clientFirst, filter, futureId, keepBinary, lock, mini, snapshot, needResult, op,
    taskHash, threadId, timeoutMs, topology, txTimeoutMs, addDeployment, pending, wire,
    enlisted⟩ := req
  let rows := WireRows.toSlots wire (wire.isNone && (pending.getD []).length != 0)
  have hfilter := option_ofRecord_toRecord _ (Filter.ofRecord_toRecord (σ := σ)) filter
  have hsnapshot : (snapshot.map WireForm.toRecord).map WireForm.ofRecord = snapshot := by
    rw [option_ofRecord_toRecord id Snapshot.ofRecord_toRecord, Option.map_id_apply]
  have hrows : WireRows.ofSlots rows.1 rows.2 = wire.map WireRows.onWire :=
    WireRows.ofSlots_toSlots wire _
  have hflag : ((if addDeployment then deploymentFlag else 0) &&& deploymentFlag != 0) =
      addDeployment := by
    cases addDeployment <;> rfl
  show EnlistRequest.mk (.ofSlots (base.toSlots ())) clientFirst
    ((filter.map WireForm.toRecord).map WireForm.ofRecord) futureId keepBinary lock mini
    ((snapshot.map WireForm.toRecord).map WireForm.ofRecord) needResult
    (Operation.ofOrdinal? ((op.map Operation.ordinal).getD (-1))) taskHash threadId timeoutMs
    topology txTimeoutMs ((if addDeployment then deploymentFlag else 0) &&& deploymentFlag != 0)
    none (WireRows.ofSlots rows.1 rows.2) none = _
  rw [base.ofSlots_toSlots, hfilter, hsnapshot, Operation.ofOrdinal?_getD, hflag, hrows]
  rfl

/-- An invocation that is read is as it goes on the wire. -/
theorem InvokeValue.onWire_ofRecord (r : InvokeRecord) :
    (WireForm.ofRecord r : InvokeValue σ).onWire = WireForm.ofRecord r := by
  obtain ⟨flags, args, processor, ⟨⟩⟩ := r
  have hargs : (args.settled.map WireForm.ofRecord).map ValueObject.onWire =
      args.settled.map WireForm.ofRecord := by
    rw [List.map_map]
    rfl
  exact congrArg (fun args => ({ processor := processor.string, args } : InvokeValue σ)) hargs

/-- A filter that is read is as it goes on the wire. -/
theorem Filter.onWire_ofRecord (r : FilterRecord) :
    (WireForm.ofRecord r : Filter σ).onWire = WireForm.ofRecord r := by
  obtain ⟨flags, kind, operand, className, ⟨⟩⟩ := r
  cases operand <;> rfl

/-- Rows that are read are as they go on the wire. -/
theorem WireRows.onWire_ofSlots {keys : RequestKeys} {values : RequestValues} {rows : WireRows σ}
    (h : WireRows.ofSlots keys values = some rows) : rows.onWire = rows := by
  obtain ⟨ks, -, rfl⟩ := Option.map_eq_some_iff.mp h
  have hkeys : (ks.map WireForm.ofRecord).map KeyObject.onWire = ks.map WireForm.ofRecord := by
    rw [List.map_map]
    rfl
  rcases values.settled with _ | items | items
  · exact congrArg keysOnly hkeys
  · have hvalues : (items.map WireForm.ofRecord).map ValueObject.onWire =
        items.map WireForm.ofRecord := by
      rw [List.map_map]
      rfl
    show entries _ _ = entries _ _
    rw [hkeys, hvalues]
  · have hitems : (items.map WireForm.ofRecord).map InvokeValue.onWire =
        items.map (WireForm.ofRecord (M := InvokeValue σ)) := by
      rw [List.map_map]
      exact List.map_congr_left fun item _ => InvokeValue.onWire_ofRecord item
    show invokes _ _ = invokes _ _
    rw [hkeys, hitems]

/-- A request that is read is as it goes on the wire. -/
theorem EnlistRequest.onWire_ofRecord (r : RequestRecord) :
    (WireForm.ofRecord r : EnlistRequest σ).onWire = WireForm.ofRecord r := by
  obtain ⟨flags, deployment, affinity, messageId, cacheId, clientFirst, filter, future, keepBinary,
    keys, lock, mini, snapshot, needResult, op, taskHash, threadId, timeout, topology, txTimeout,
    values, ⟨⟩⟩ := r
  have hfilter : (filter.map WireForm.ofRecord).map Filter.onWire =
      filter.map (WireForm.ofRecord (M := Filter σ)) := by
    rw [Option.map_map]
    exact Option.map_congr fun f _ => Filter.onWire_ofRecord f
  have hrows : (WireRows.ofSlots keys values).map WireRows.onWire =
      (WireRows.ofSlots keys values : Option (WireRows σ)) := by
    cases hrows : WireRows.ofSlots (σ := σ) keys values with
    | none => rfl
    | some rows => rw [Option.map_some, WireRows.onWire_ofSlots hrows]
  simp only [onWire, WireForm.ofRecord] at hfilter hrows ⊢
  rw [hfilter, hrows]

/-- A response comes back from its record field by field. -/
theorem EnlistResponse.ofRecord_toRecord (r : EnlistResponse) :
    WireForm.ofRecord (WireForm.toRecord r) = r.onWire := by
  obtain ⟨base, futureId, mini, lock, result, updateCount, error, remap, failures⟩ := r
  have hresult : (result.map fun items => items.map WireForm.toRecord).map
      (fun items => items.map WireForm.ofRecord) =
        result.map fun items => items.map ReturnValue.onWire := by
    rw [Option.map_map]
    exact Option.map_congr fun items _ =>
      list_ofRecord_toRecord _ ReturnValue.ofRecord_toRecord items
  have herror : (error.map WireForm.toRecord).map WireForm.ofRecord = error := by
    rw [option_ofRecord_toRecord id ErrorMessage.ofRecord_toRecord, Option.map_id_apply]
  have hremap : (remap.map WireForm.toRecord).map WireForm.ofRecord = remap := by
    rw [option_ofRecord_toRecord id TopologyVersion.ofRecord_toRecord, Option.map_id_apply]
  have hfailures : (failures.map fun items => items.map WireForm.toRecord).map
      (fun items => items.map WireForm.ofRecord) = failures := by
    rw [Option.map_map]
    refine (Option.map_congr fun items _ => ?_).trans Option.map_id_apply
    exact (list_ofRecord_toRecord id RowFailure.ofRecord_toRecord items).trans (List.map_id items)
  show EnlistResponse.mk (.ofSlots (base.toSlots ())) futureId mini lock
    ((result.map fun items => items.map WireForm.toRecord).map
      fun items => items.map WireForm.ofRecord) updateCount
    ((error.map WireForm.toRecord).map WireForm.ofRecord)
    ((remap.map WireForm.toRecord).map WireForm.ofRecord)
    ((failures.map fun items => items.map WireForm.toRecord).map
      fun items => items.map WireForm.ofRecord) = _
  rw [base.ofSlots_toSlots, hresult, herror, hremap, hfailures]
  rfl

/-- The draft of a message gives it back as far as it goes on the wire. -/
theorem Message.ofDraft_toDraft (m : Message σ) : ofDraft m.toDraft = m.onWire := by
  cases m with
  | topologyVersion v => rfl
  | lockVersion v => rfl
  | snapshot s => rfl
  | deploymentInfo d => exact congrArg deploymentInfo d.ofRecord_toRecord
  | key k => rfl
  | value v => rfl
  | invocation i => exact congrArg invocation i.ofRecord_toRecord
  | filter f => exact congrArg filter f.ofRecord_toRecord
  | returnValue r => exact congrArg returnValue r.ofRecord_toRecord
  | rowFailure f => rfl
  | error e => exact congrArg error e.ofRecord_toRecord
  | request r => exact congrArg request r.ofRecord_toRecord
  | response r => exact congrArg response r.ofRecord_toRecord

end Enlistment
