import Enlistment.Proofs.Message.Layouts
import Enlistment.Proofs.Message.Rows
import Enlistment.Proofs.Wire.Canonical
import Enlistment.Proofs.Wire.Parsing

/-!
# Records as those of messages

A message forgets nothing about a regular record: the record of the message that a regular
record gives is that record again. Settling a message does nothing but to hand over its rows.
-/

namespace Enlistment

open Wire

variable {σ : Type}

/-! ## Settling -/

/-- Values that are put together with keys are those that came in. -/
theorem assembleValues_eq {op : Option Operation} {keys : List KeyRecord}
    {values : Option (List ValueRecord)} {invocations : Option (List InvokeRecord)}
    {items : Option (List ValueRecord ⊕ List InvokeRecord)}
    (h : assembleValues op keys values invocations = .ok items) :
    items = (values.map .inl).or (invocations.map .inr) := by
  unfold assembleValues at h
  rcases op with _ | op <;> rcases values with _ | values <;>
    rcases invocations with _ | invocations <;> simp only at h <;> (repeat' split at h) <;>
    first | (cases h; rfl) | cases h

/-- Rows that are put together are those that came in. -/
theorem assembleRows_eq {tag : Int8} {keys keys' : RequestKeys} {values values' : RequestValues}
    (h : assembleRows tag keys values = (.ok (), keys', values')) :
    keys' = (Field.keys keyLayout).handedOver keys ∧ values' =
      (Field.values Operation.invoke.ordinal valueLayout invokeLayout).handedOver values := by
  obtain ⟨inbound, settled, unconverted⟩ := keys
  obtain ⟨inboundValues, inboundInvocations, settledValues⟩ := values
  cases inbound with
  | none =>
    cases inboundValues <;> cases inboundInvocations <;>
      simp only [assembleRows, Option.isSome_none, Option.isSome_some, Bool.or_false, Bool.or_true,
        Bool.or_self, Bool.false_eq_true, if_false, if_true] at h <;> cases h
    exact ⟨rfl, rfl⟩
  | some ks =>
    cases hitems :
      assembleValues (Operation.ofOrdinal? tag) ks inboundValues inboundInvocations with
    | error e =>
      simp only [assembleRows, hitems, Except.map] at h
      cases h
    | ok items =>
      obtain rfl := assembleValues_eq hitems
      simp only [assembleRows, hitems, Except.map] at h
      cases h
      exact ⟨rfl, rfl⟩

/-- Settling a request does nothing but to hand over its rows. -/
theorem requestLayout_handsOver : requestLayout.HandsOver := by
  constructor
  · intro slots settled h
    obtain ⟨deployment, affinity, messageId, cacheId, clientFirst, filter, future, keepBinary, keys,
      lock, mini, snapshot, needResult, op, taskHash, threadId, timeout, topology, txTimeout,
      values, ⟨⟩⟩ := slots
    rcases hrows : assembleRows op keys values with ⟨check, keys', values'⟩
    simp only [settleRequest, hrows] at h
    obtain ⟨rfl, rfl⟩ := Prod.mk.inj h
    obtain ⟨rfl, rfl⟩ := assembleRows_eq hrows
    rfl
  · simp [topologyLayout, lockLayout, snapshotLayout, deploymentLayout, keyLayout, valueLayout,
      invokeLayout, filterLayout, baseFields, Layout.plain, Layout.HandsOver, Fields.HandOver,
      Field.HandsOver, Fields.handedOver, Field.handedOver]

/-- Settling a message of any type does nothing but to hand over its rows. -/
theorem MessageType.layout_handsOver (t : MessageType) : t.layout.HandsOver := by
  cases t with
  | request => exact requestLayout_handsOver
  | _ =>
    simp [layout, topologyLayout, lockLayout, snapshotLayout, deploymentLayout, keyLayout,
      valueLayout, invokeLayout, filterLayout, returnLayout, failureLayout, errorLayout,
      responseLayout, baseFields, Layout.plain, Layout.HandsOver, Fields.HandOver, Field.HandsOver,
      Fields.handedOver, Field.handedOver]

/-! ## Ordinals -/

/-- What holds of -1, if it may stand for an absent element, and of all positions in a list holds
of every ordinal that is allowed. -/
theorem Wire.ordinalAllowed_elim {count : Nat} {optional : Bool} {p : Int8 → Prop}
    (habsent : optional = true → p (-1)) (h : ∀ k < count, p (Int8.ofNat k)) {n : Int8}
    (hn : ordinalAllowed count optional n = true) : p n := by
  simp only [ordinalAllowed, Bool.or_eq_true, Bool.and_eq_true, beq_iff_eq,
    decide_eq_true_eq] at hn
  rcases hn with ⟨hoptional, rfl⟩ | ⟨hle, hlt⟩
  · exact habsent hoptional
  · have hle : 0 ≤ n.toInt := Int8.le_iff_toInt_le.mp hle
    have hbound := n.toInt_lt
    have hposition : Int8.ofNat n.toInt.toNat = n := by
      rw [← Int8.toInt_inj, Int8.toInt_ofNat_of_lt (by omega)]
      omega
    exact hposition ▸ h n.toInt.toNat (by omega)

/-- A mode that is looked up has its position. -/
theorem DeploymentMode.ordinal_ofOrdinal {n : Int8} (h : ordinalAllowed 4 false n = true) :
    (ofOrdinal n).ordinal = n :=
  ordinalAllowed_elim (p := fun n => (ofOrdinal n).ordinal = n) (by nofun) (by decide) h

/-- A kind of filter that is looked up has its position. -/
theorem FilterKind.ordinal_ofOrdinal {n : Int8} (h : ordinalAllowed 4 false n = true) :
    (ofOrdinal n).ordinal = n :=
  ordinalAllowed_elim (p := fun n => (ofOrdinal n).ordinal = n) (by nofun) (by decide) h

/-- A kind of error that is looked up has its position. -/
theorem ErrorKind.ordinal_ofOrdinal {n : Int8} (h : ordinalAllowed 5 false n = true) :
    (ofOrdinal n).ordinal = n :=
  ordinalAllowed_elim (p := fun n => (ofOrdinal n).ordinal = n) (by nofun) (by decide) h

/-- An operation that is looked up has its position, and -1 stands for none. -/
theorem Operation.ordinal_ofOrdinal? {n : Int8} (h : ordinalAllowed 6 true n = true) :
    ((ofOrdinal? n).map ordinal).getD (-1) = n :=
  ordinalAllowed_elim (p := fun n => ((ofOrdinal? n).map ordinal).getD (-1) = n) (fun _ => rfl)
    (by decide) h

/-! ## Records -/

/-- Only the header of a request may carry a flag. -/
theorem Wire.Layout.Regular.unflagged {S : Type} {type : UInt16} {fields : Fields S}
    {settle : S → Except CodecError Unit × S} {record : Record S}
    (h : (Layout.message type fields settle).Regular record) (htype : type ≠ requestLayout.type) :
    record = Enlistment.unflagged record.slots := by
  obtain ⟨flags, slots⟩ := record
  obtain rfl : flags = 0 := by
    rcases h.1 with hzero | hkept
    · exact hzero
    · rwa [keptFlags, if_neg htype] at hkept
  rfl

/-- A text that has to be there is the text of its slot. -/
theorem Wire.TextSlot.ofString_string {onNull : NullText} {tag : Int8} {slot : TextSlot}
    (h : (Field.text onNull).Regular tag slot) (hkept : onNull.isKept = false) :
    TextSlot.ofString slot.string = slot := by
  obtain ⟨staged, text⟩ := slot
  obtain ⟨rfl, hnull⟩ := h
  cases text with
  | none => cases (hnull rfl).symm.trans hkept
  | some s => rfl

section

variable {M : Type} [WireForm M]

/-- What holds of the record of a message holds of that of a message that may be absent. -/
theorem option_toRecord_ofRecord {record : Option (WireForm.Rec M)}
    (h : ∀ r, record = some r → WireForm.toRecord (WireForm.ofRecord (M := M) r) = r) :
    (record.map (WireForm.ofRecord (M := M))).map WireForm.toRecord = record := by
  cases record with
  | none => rfl
  | some r => exact congrArg some (h r rfl)

/-- What holds of the record of a message holds of those of a list of messages. -/
theorem list_toRecord_ofRecord {records : List (WireForm.Rec M)}
    (h : ∀ r ∈ records, WireForm.toRecord (WireForm.ofRecord (M := M) r) = r) :
    (records.map (WireForm.ofRecord (M := M))).map WireForm.toRecord = records := by
  rw [List.map_map]
  exact (List.map_congr_left h).trans (List.map_id records)

/-- What holds of the record of a message holds of those of a list that may be absent. -/
theorem array_toRecord_ofRecord {records : Option (List (WireForm.Rec M))}
    (h : ∀ items, records = some items →
      ∀ r ∈ items, WireForm.toRecord (WireForm.ofRecord (M := M) r) = r) :
    (records.map fun items => items.map (WireForm.ofRecord (M := M))).map
      (fun items => items.map WireForm.toRecord) = records := by
  cases records with
  | none => rfl
  | some items => exact congrArg some (list_toRecord_ofRecord (h items rfl))

end

/-- The record of a topology version. -/
theorem TopologyVersion.toRecord_ofRecord {r : TopologyRecord} (h : topologyLayout.Regular r) :
    WireForm.toRecord (WireForm.ofRecord (M := TopologyVersion) r) = r :=
  (Layout.Regular.unflagged h (by decide)).symm

/-- The record of a lock version. -/
theorem LockVersion.toRecord_ofRecord {r : LockRecord} (h : lockLayout.Regular r) :
    WireForm.toRecord (WireForm.ofRecord (M := LockVersion) r) = r :=
  (Layout.Regular.unflagged h (by decide)).symm

/-- The record of a snapshot. -/
theorem Snapshot.toRecord_ofRecord {r : SnapshotRecord} (h : snapshotLayout.Regular r) :
    WireForm.toRecord (WireForm.ofRecord (M := Snapshot) r) = r :=
  (Layout.Regular.unflagged h (by decide)).symm

/-- The record of deployment info. -/
theorem DeploymentInfo.toRecord_ofRecord {r : DeploymentRecord} (h : deploymentLayout.Regular r) :
    WireForm.toRecord (WireForm.ofRecord (M := DeploymentInfo) r) = r := by
  rw [Layout.Regular.unflagged h (by decide)]
  obtain ⟨flags, loaderId, mode, version, ⟨⟩⟩ := r
  obtain ⟨-, ⟨-, hmode, hversion, -⟩, -⟩ := h
  show unflagged (loaderId, (DeploymentMode.ofOrdinal mode).ordinal,
    TextSlot.ofString version.string, ()) = _
  rw [DeploymentMode.ordinal_ofOrdinal hmode, TextSlot.ofString_string hversion rfl]

/-- The record of a key. -/
theorem KeyObject.toRecord_ofRecord {r : KeyRecord} (h : keyLayout.Regular r) :
    WireForm.toRecord (WireForm.ofRecord (M := KeyObject) r) = r :=
  (Layout.Regular.unflagged h (by decide)).symm

/-- The record of a value. -/
theorem ValueObject.toRecord_ofRecord {r : ValueRecord} (h : valueLayout.Regular r) :
    WireForm.toRecord (WireForm.ofRecord (M := ValueObject) r) = r :=
  (Layout.Regular.unflagged h (by decide)).symm

/-- The record of an invocation, with those of its arguments. -/
theorem InvokeValue.toRecord_ofRecord {r : InvokeRecord} (h : invokeLayout.Regular r) :
    WireForm.toRecord (WireForm.ofRecord (M := InvokeValue σ) r) = r := by
  rw [Layout.Regular.unflagged h (by decide)]
  obtain ⟨flags, ⟨staged, args⟩, processor, ⟨⟩⟩ := r
  obtain ⟨-, ⟨⟨rfl, hargs⟩, hprocessor, -⟩, -⟩ := h
  have hrecords : (args.map (WireForm.ofRecord (M := ValueObject))).map WireForm.toRecord = args :=
    list_toRecord_ofRecord fun r hr => ValueObject.toRecord_ofRecord (hargs r hr)
  show unflagged (BatchSlot.mk none ((args.map (WireForm.ofRecord (M := ValueObject))).map
    WireForm.toRecord), TextSlot.ofString processor.string, ()) = _
  rw [hrecords, TextSlot.ofString_string hprocessor rfl]

/-- The record of a filter, with that of its operand. -/
theorem Filter.toRecord_ofRecord {r : FilterRecord} (h : filterLayout.Regular r) :
    WireForm.toRecord (WireForm.ofRecord (M := Filter σ) r) = r := by
  rw [Layout.Regular.unflagged h (by decide)]
  obtain ⟨flags, kind, operand, ⟨staged, className⟩, ⟨⟩⟩ := r
  obtain ⟨-, ⟨hkind, hoperand, ⟨rfl, -⟩, -⟩, -⟩ := h
  have hrecord : (operand.map (WireForm.ofRecord (M := ValueObject))).map WireForm.toRecord =
      operand := option_toRecord_ofRecord fun r hr => ValueObject.toRecord_ofRecord (hoperand r hr)
  show unflagged ((FilterKind.ofOrdinal kind).ordinal,
    (operand.map (WireForm.ofRecord (M := ValueObject))).map WireForm.toRecord,
    ({ text := className } : TextSlot), ()) = _
  rw [FilterKind.ordinal_ofOrdinal hkind, hrecord]

/-- The record of a return value, with that of its object. -/
theorem ReturnValue.toRecord_ofRecord {r : ReturnRecord} (h : returnLayout.Regular r) :
    WireForm.toRecord (WireForm.ofRecord (M := ReturnValue) r) = r := by
  rw [Layout.Regular.unflagged h (by decide)]
  obtain ⟨flags, object, ⟨⟩⟩ := r
  obtain ⟨-, ⟨hobject, -⟩, -⟩ := h
  exact congrArg (fun object => unflagged (object, ()))
    (option_toRecord_ofRecord fun r hr => ValueObject.toRecord_ofRecord (hobject r hr))

/-- The record of the failure of a row. -/
theorem RowFailure.toRecord_ofRecord {r : FailureRecord} (h : failureLayout.Regular r) :
    WireForm.toRecord (WireForm.ofRecord (M := RowFailure) r) = r := by
  rw [Layout.Regular.unflagged h (by decide)]
  obtain ⟨flags, index, reason, ⟨⟩⟩ := r
  obtain ⟨-, ⟨-, hreason, -⟩, -⟩ := h
  exact congrArg (fun reason => unflagged (index, reason, ()))
    (TextSlot.ofString_string hreason rfl)

/-- The record of a reported error. -/
theorem ErrorMessage.toRecord_ofRecord {r : ErrorRecord} (h : errorLayout.Regular r) :
    WireForm.toRecord (WireForm.ofRecord (M := ErrorMessage) r) = r := by
  rw [Layout.Regular.unflagged h (by decide)]
  obtain ⟨flags, kind, text, ⟨⟩⟩ := r
  obtain ⟨-, ⟨hkind, htext, -⟩, -⟩ := h
  show unflagged ((ErrorKind.ofOrdinal kind).ordinal, TextSlot.ofString text.string, ()) = _
  rw [ErrorKind.ordinal_ofOrdinal hkind, TextSlot.ofString_string htext rfl]

/-- The slots that a message about a cache starts with, before any others. -/
theorem MessageBase.toSlots_ofSlots {S T : Type} {rest : Fields S} {tag : Int8}
    {slots : BaseSlots S} (h : (baseFields rest).Regular tag slots) (more : T) :
    (MessageBase.ofSlots slots).toSlots more =
      (slots.1, slots.2.1, slots.2.2.1, slots.2.2.2.1, more) := by
  obtain ⟨deployment, affinity, messageId, cacheId, slots⟩ := slots
  obtain ⟨hdeployment, haffinity, -⟩ := h
  have hrecord : (deployment.map (WireForm.ofRecord (M := DeploymentInfo))).map
      WireForm.toRecord = deployment :=
    option_toRecord_ofRecord fun r hr => DeploymentInfo.toRecord_ofRecord (hdeployment r hr)
  show ((deployment.map (WireForm.ofRecord (M := DeploymentInfo))).map WireForm.toRecord,
    WireForm.toRecord (WireForm.ofRecord (M := TopologyVersion) affinity), messageId, cacheId,
    more) = _
  rw [hrecord, TopologyVersion.toRecord_ofRecord haffinity]

/-- The record of a response, with those of the messages in it. -/
theorem EnlistResponse.toRecord_ofRecord {r : ResponseRecord} (h : responseLayout.Regular r) :
    WireForm.toRecord (WireForm.ofRecord (M := EnlistResponse) r) = r := by
  rw [Layout.Regular.unflagged h (by decide)]
  obtain ⟨flags, slots⟩ := r
  obtain ⟨-, hfields, -⟩ := h
  have hbase := fun more : ResponseSlots => MessageBase.toSlots_ofSlots hfields more
  obtain ⟨deployment, affinity, messageId, cacheId, future, mini, lock, result, updateCount, error,
    remap, failures, ⟨⟩⟩ := slots
  obtain ⟨-, -, -, -, -, -, hlock, hresult, -, herror, hremap, hfailures, -⟩ := hfields
  have hresult : (result.map fun items => items.map (WireForm.ofRecord (M := ReturnValue))).map
      (fun items => items.map WireForm.toRecord) = result :=
    array_toRecord_ofRecord fun items hitems r hr =>
      ReturnValue.toRecord_ofRecord (hresult items hitems r hr)
  have herror : (error.map (WireForm.ofRecord (M := ErrorMessage))).map WireForm.toRecord = error :=
    option_toRecord_ofRecord fun r hr => ErrorMessage.toRecord_ofRecord (herror r hr)
  have hremap : (remap.map (WireForm.ofRecord (M := TopologyVersion))).map WireForm.toRecord =
      remap := option_toRecord_ofRecord fun r hr => TopologyVersion.toRecord_ofRecord (hremap r hr)
  have hfailures : (failures.map fun items => items.map (WireForm.ofRecord (M := RowFailure))).map
      (fun items => items.map WireForm.toRecord) = failures :=
    array_toRecord_ofRecord fun items hitems r hr =>
      RowFailure.toRecord_ofRecord (hfailures items hitems r hr)
  refine (congrArg unflagged (hbase _)).trans ?_
  show unflagged (deployment, affinity, messageId, cacheId, future, mini,
    WireForm.toRecord (WireForm.ofRecord (M := LockVersion) lock),
    (result.map fun items => items.map (WireForm.ofRecord (M := ReturnValue))).map
      (fun items => items.map WireForm.toRecord), updateCount,
    (error.map (WireForm.ofRecord (M := ErrorMessage))).map WireForm.toRecord,
    (remap.map (WireForm.ofRecord (M := TopologyVersion))).map WireForm.toRecord,
    (failures.map fun items => items.map (WireForm.ofRecord (M := RowFailure))).map
      (fun items => items.map WireForm.toRecord), ()) = _
  rw [LockVersion.toRecord_ofRecord hlock, hresult, herror, hremap, hfailures]

/-- The slots of the rows of a request. -/
theorem WireRows.toSlots_ofSlots {op : Option Operation} {tag tag' : Int8} {keys : RequestKeys}
    {values : RequestValues} (hfit : RowsFit op keys.settled values.settled)
    (hkeys : (Field.keys keyLayout).Regular tag keys)
    (hvalues : (Field.values Operation.invoke.ordinal valueLayout invokeLayout).Regular tag'
      values) :
    WireRows.toSlots (WireRows.ofSlots (σ := σ) keys values) false = (keys, values) := by
  obtain ⟨hkeysSlot, hkeys⟩ := hkeys
  obtain ⟨hvaluesSlot, hvalues, hinvocations⟩ := hvalues
  rw [hkeysSlot, hvaluesSlot]
  generalize keys.settled = ks at hfit hkeys ⊢
  generalize values.settled = items at hfit hvalues hinvocations ⊢
  cases ks with
  | none =>
    obtain rfl : items = none := hfit
    rfl
  | some ks =>
    have hks : (ks.map (WireForm.ofRecord (M := KeyObject))).map WireForm.toRecord = ks :=
      list_toRecord_ofRecord fun r hr => KeyObject.toRecord_ofRecord (hkeys ks rfl r hr)
    rcases items with _ | found | found
    · exact congrArg (fun ks => (KeysSlot.mk none (some ks) false, _)) hks
    · have hfound : (found.map (WireForm.ofRecord (M := ValueObject))).map WireForm.toRecord =
          found := list_toRecord_ofRecord fun r hr =>
        ValueObject.toRecord_ofRecord ((hvalues found rfl).2 r hr)
      show (KeysSlot.mk none (some ((ks.map (WireForm.ofRecord (M := KeyObject))).map
        WireForm.toRecord)) false, ValuesSlot.mk none none (some (.inl ((found.map
        (WireForm.ofRecord (M := ValueObject))).map WireForm.toRecord)))) = _
      rw [hks, hfound]
    · have hfound : (found.map (WireForm.ofRecord (M := InvokeValue σ))).map WireForm.toRecord =
          found := list_toRecord_ofRecord fun r hr =>
        InvokeValue.toRecord_ofRecord ((hinvocations found rfl).2 r hr)
      show (KeysSlot.mk none (some ((ks.map (WireForm.ofRecord (M := KeyObject))).map
        WireForm.toRecord)) false, ValuesSlot.mk none none (some (.inr ((found.map
        (WireForm.ofRecord (M := InvokeValue σ))).map WireForm.toRecord)))) = _
      rw [hks, hfound]

/-- The record of a request, with those of its rows and of the other messages in it. -/
theorem EnlistRequest.toRecord_ofRecord {r : RequestRecord} (h : requestLayout.Regular r) :
    WireForm.toRecord (WireForm.ofRecord (M := EnlistRequest σ) r) = r := by
  obtain ⟨flags, slots⟩ := r
  obtain ⟨hflags, hfields, arrived, hsettle⟩ := h
  have hflag : (if (flags &&& deploymentFlag != 0) = true then deploymentFlag else 0) = flags := by
    have hflags : flags = 0 ∨ flags = deploymentFlag := hflags
    rcases hflags with rfl | rfl <;> rfl
  obtain ⟨deployment, affinity, messageId, cacheId, clientFirst, filter, future, keepBinary, keys,
    lock, mini, snapshot, needResult, op, taskHash, threadId, timeout, topology, txTimeout,
    values, ⟨⟩⟩ := slots
  have hbase : ∀ more : RequestSlots,
      (MessageBase.ofSlots (deployment, affinity, messageId, cacheId, ())).toSlots more =
        (deployment, affinity, messageId, cacheId, more) :=
    fun more => MessageBase.toSlots_ofSlots hfields more
  obtain ⟨-, -, -, -, -, hfilter, -, -, hkeys, hlock, -, hsnapshot, -, hop, -, -, -, htopology, -,
    hvalues, -⟩ := hfields
  have hfilter : (filter.map (WireForm.ofRecord (M := Filter σ))).map WireForm.toRecord = filter :=
    option_toRecord_ofRecord fun r hr => Filter.toRecord_ofRecord (hfilter r hr)
  have hsnapshot : (snapshot.map (WireForm.ofRecord (M := Snapshot))).map WireForm.toRecord =
      snapshot := option_toRecord_ofRecord fun r hr => Snapshot.toRecord_ofRecord (hsnapshot r hr)
  -- nothing is pending in a request that is read, so its rows count as converted
  have hconverted : ((WireRows.ofSlots (σ := σ) keys values).isNone &&
      ((none : Option (List (EnlistedRow σ))).getD []).length != 0) = false := Bool.and_false _
  have hrows : WireRows.toSlots (WireRows.ofSlots (σ := σ) keys values) false = (keys, values) :=
    WireRows.toSlots_ofSlots (settleRequest_fit hsettle) hkeys hvalues
  let record (flags : UInt8) (filter : Option FilterRecord) (rows : RequestKeys × RequestValues)
      (lock : LockRecord) (snapshot : Option SnapshotRecord) (op : Int8)
      (topology : TopologyRecord) : RequestRecord :=
    ⟨flags, (MessageBase.ofSlots (deployment, affinity, messageId, cacheId, ())).toSlots
      (clientFirst, filter, future, keepBinary, rows.1, lock, mini, snapshot, needResult, op,
        taskHash, threadId, timeout, topology, txTimeout, rows.2, ())⟩
  show record (if (flags &&& deploymentFlag != 0) = true then deploymentFlag else 0)
    ((filter.map (WireForm.ofRecord (M := Filter σ))).map WireForm.toRecord)
    (WireRows.toSlots (WireRows.ofSlots (σ := σ) keys values)
      ((WireRows.ofSlots (σ := σ) keys values).isNone &&
        ((none : Option (List (EnlistedRow σ))).getD []).length != 0))
    (WireForm.toRecord (WireForm.ofRecord (M := LockVersion) lock))
    ((snapshot.map (WireForm.ofRecord (M := Snapshot))).map WireForm.toRecord)
    (((Operation.ofOrdinal? op).map Operation.ordinal).getD (-1))
    (WireForm.toRecord (WireForm.ofRecord (M := TopologyVersion) topology)) = _
  rw [hflag, hfilter, hconverted, hrows, LockVersion.toRecord_ofRecord hlock, hsnapshot,
    Operation.ordinal_ofOrdinal? hop, TopologyVersion.toRecord_ofRecord htopology]
  exact congrArg (Record.mk flags) (hbase _)

/-- The draft of the message that a regular draft gives is that draft. -/
theorem Message.toDraft_ofDraft {d : Draft} (h : d.type.layout.Regular d.record) :
    (ofDraft d : Message σ).toDraft = d := by
  obtain ⟨type, record⟩ := d
  cases type with
  | topologyVersion => exact congrArg _ (TopologyVersion.toRecord_ofRecord h)
  | lockVersion => exact congrArg _ (LockVersion.toRecord_ofRecord h)
  | snapshot => exact congrArg _ (Snapshot.toRecord_ofRecord h)
  | deploymentInfo => exact congrArg _ (DeploymentInfo.toRecord_ofRecord h)
  | key => exact congrArg _ (KeyObject.toRecord_ofRecord h)
  | value => exact congrArg _ (ValueObject.toRecord_ofRecord h)
  | invocation => exact congrArg _ (InvokeValue.toRecord_ofRecord h)
  | filter => exact congrArg _ (Filter.toRecord_ofRecord h)
  | returnValue => exact congrArg _ (ReturnValue.toRecord_ofRecord h)
  | rowFailure => exact congrArg _ (RowFailure.toRecord_ofRecord h)
  | error => exact congrArg _ (ErrorMessage.toRecord_ofRecord h)
  | request => exact congrArg _ (EnlistRequest.toRecord_ofRecord h)
  | response => exact congrArg _ (EnlistResponse.toRecord_ofRecord h)

end Enlistment
