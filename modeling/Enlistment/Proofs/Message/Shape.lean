import Enlistment.Proofs.Message.Layouts
import Enlistment.Proofs.Message.Rows
import Enlistment.Proofs.Wire.Emission

/-!
# The shape of messages

Filters have what their kind needs, and rows in wire form fit the operation of their
request. The record of a message in this shape is sound, and a record that has been settled
is that of a message in this shape.
-/

namespace Enlistment

open Wire

variable {σ : Type}

/-- A filter that has what its kind needs. -/
structure Filter.Shaped (f : Filter σ) : Prop where
  operand : f.kind = .containsValue → f.operand.isSome = true
  className : f.kind = .custom → f.className.isSome = true

/-- What goes with the keys of rows in wire form. -/
def WireRows.items : WireRows σ → Option (List ValueObject ⊕ List (InvokeValue σ))
  | keysOnly _ => none
  | entries _ values => some (.inl values)
  | invokes _ items => some (.inr items)

/-- Whether rows in wire form fit an operation. -/
def WireRows.Fits (op : Option Operation) (rows : WireRows σ) : Prop :=
  ValuesFit op rows.length rows.items

/-- A request whose filter and rows in wire form are in shape. -/
structure EnlistRequest.Shaped (req : EnlistRequest σ) : Prop where
  filter : ∀ f, req.filter = some f → f.Shaped
  rows : ∀ rows, req.wire = some rows → rows.Fits req.op

/-- A message that is in shape. -/
def Message.Shaped : Message σ → Prop
  | filter f => f.Shaped
  | request r => r.Shaped
  | _ => True

/-! ## Messages in shape have sound records -/

/-- A record with nothing to settle is sound if its slots may arrive. -/
theorem Wire.Layout.sound_plain {S : Type} {type : UInt16} {fields : Fields S} {flags : UInt8}
    {slots : S} (hplain : fields.plain = true) (h : fields.Arrives (-1) slots) :
    (Layout.plain type fields).Sound ⟨flags, slots⟩ := by
  have harrived := fields.arrived_of_plain hplain h
  show fields.Arrives (-1) (fields.arrived slots) ∧
    ((Except.ok (), fields.arrived slots) : Except CodecError Unit × S) = (.ok (), slots)
  rw [harrived]
  exact ⟨h, rfl⟩

/-- The record of a topology version is sound. -/
theorem TopologyVersion.sound_toRecord (v : TopologyVersion) :
    topologyLayout.Sound (WireForm.toRecord v) :=
  Layout.sound_plain rfl ⟨trivial, trivial, trivial⟩

/-- The record of a lock version is sound. -/
theorem LockVersion.sound_toRecord (v : LockVersion) :
    lockLayout.Sound (WireForm.toRecord v) :=
  Layout.sound_plain rfl ⟨trivial, trivial, trivial, trivial⟩

/-- The record of a snapshot is sound. -/
theorem Snapshot.sound_toRecord (s : Snapshot) : snapshotLayout.Sound (WireForm.toRecord s) :=
  Layout.sound_plain rfl ⟨trivial, trivial, trivial, trivial, trivial, trivial⟩

/-- The field of a text that is there. -/
theorem arrives_ofString (onNull : NullText) (tag : Int8) (s : String) :
    (Field.text onNull).Arrives tag (.ofString s) :=
  ⟨rfl, fun h => by cases h⟩

/-- The record of deployment info is sound: its mode has an ordinal that is allowed. -/
theorem DeploymentInfo.sound_toRecord (d : DeploymentInfo) :
    deploymentLayout.Sound (WireForm.toRecord d) := by
  have hmode : ordinalAllowed 4 false d.mode.ordinal = true := by
    cases d.mode <;> rfl
  exact Layout.sound_plain rfl ⟨trivial, hmode, arrives_ofString _ _ _, trivial⟩

/-- The record of a key is sound. -/
theorem KeyObject.sound_toRecord (k : KeyObject) : keyLayout.Sound (WireForm.toRecord k) :=
  Layout.sound_plain rfl ⟨trivial, trivial, trivial⟩

/-- The record of a value is sound. -/
theorem ValueObject.sound_toRecord (o : ValueObject) : valueLayout.Sound (WireForm.toRecord o) :=
  Layout.sound_plain rfl ⟨trivial, trivial⟩

section

variable {M : Type} [WireForm M] {sound : WireForm.Rec M → Prop}

/-- A message that may be absent is sound if every message is. -/
theorem sound_option (h : ∀ m : M, sound (WireForm.toRecord m)) (m : Option M) :
    ∀ record, m.map WireForm.toRecord = some record → sound record := by
  intro record hrecord
  obtain ⟨m', -, rfl⟩ := Option.map_eq_some_iff.mp hrecord
  exact h m'

/-- The messages of a list are sound if every message is. -/
theorem sound_list (h : ∀ m : M, sound (WireForm.toRecord m)) (ms : List M) :
    ∀ record ∈ ms.map WireForm.toRecord, sound record := by
  intro record hrecord
  obtain ⟨m, -, rfl⟩ := List.mem_map.mp hrecord
  exact h m

/-- The messages of a list that may be absent are sound if every message is. -/
theorem sound_array (h : ∀ m : M, sound (WireForm.toRecord m)) (ms : Option (List M)) :
    ∀ records, ms.map (fun items => items.map WireForm.toRecord) = some records →
      ∀ record ∈ records, sound record := by
  intro records hrecords
  obtain ⟨items, -, rfl⟩ := Option.map_eq_some_iff.mp hrecords
  exact sound_list h items

end

/-- The record of an invocation is sound, with those of its arguments. -/
theorem InvokeValue.sound_toRecord (i : InvokeValue σ) :
    invokeLayout.Sound (WireForm.toRecord i) :=
  Layout.sound_plain rfl
    ⟨⟨rfl, sound_list ValueObject.sound_toRecord i.args⟩, arrives_ofString _ _ _, trivial⟩

/-- The record of a return value is sound, with that of its object. -/
theorem ReturnValue.sound_toRecord (r : ReturnValue) :
    returnLayout.Sound (WireForm.toRecord r) :=
  Layout.sound_plain rfl ⟨sound_option ValueObject.sound_toRecord r.object, trivial⟩

/-- The record of the failure of a row is sound. -/
theorem RowFailure.sound_toRecord (f : RowFailure) :
    failureLayout.Sound (WireForm.toRecord f) :=
  Layout.sound_plain rfl ⟨trivial, arrives_ofString _ _ _, trivial⟩

/-- The record of a reported error is sound: its kind has an ordinal that is allowed. -/
theorem ErrorMessage.sound_toRecord (m : ErrorMessage) :
    errorLayout.Sound (WireForm.toRecord m) := by
  have hkind : ordinalAllowed 5 false m.kind.ordinal = true := by
    cases m.kind <;> rfl
  exact Layout.sound_plain rfl ⟨hkind, arrives_ofString _ _ _, trivial⟩

/-- A filter in shape passes its check. -/
theorem Filter.Shaped.sound_toRecord {f : Filter σ} (h : f.Shaped) :
    filterLayout.Sound (WireForm.toRecord f) := by
  obtain ⟨kind, operand, className, resolved⟩ := f
  obtain ⟨hoperand, hclass⟩ := h
  have hkind : ordinalAllowed 4 false kind.ordinal = true := by
    cases kind <;> rfl
  have hcheck :
      checkFilter (kind.ordinal, operand.map WireForm.toRecord, { text := className }, ()) =
        .ok () := by
    cases kind with
    | hasValue => rfl
    | noValue => rfl
    | containsValue =>
      cases operand with
      | none => cases hoperand rfl
      | some o => rfl
    | custom =>
      cases className with
      | none => cases hclass rfl
      | some name => rfl
  refine ⟨⟨hkind, sound_option ValueObject.sound_toRecord operand, ⟨rfl, fun _ => rfl⟩, trivial⟩,
    ?_⟩
  exact congrArg (fun check => (check, _)) hcheck

/-- The fields that a message about a cache starts with. -/
theorem MessageBase.arrives_toSlots {S : Type} (base : MessageBase) {rest : Fields S} {slots : S}
    (h : rest.Arrives (-1) slots) : (baseFields rest).Arrives (-1) (base.toSlots slots) :=
  ⟨sound_option DeploymentInfo.sound_toRecord base.deployment,
    base.lastAffinityChange.sound_toRecord, trivial, trivial, h⟩

/-- The record of a response is sound, with those of the messages in it. -/
theorem EnlistResponse.sound_toRecord (r : EnlistResponse) :
    responseLayout.Sound (WireForm.toRecord r) :=
  Layout.sound_plain rfl (r.base.arrives_toSlots ⟨trivial, trivial, r.lock.sound_toRecord,
    sound_array ReturnValue.sound_toRecord r.result, trivial,
    sound_option ErrorMessage.sound_toRecord r.error,
    sound_option TopologyVersion.sound_toRecord r.remap,
    sound_array RowFailure.sound_toRecord r.rowFailures, trivial⟩)

/-- What goes with keys, as it arrives. -/
theorem values_arrived (selector : Int8) (items : Option (List ValueRecord ⊕ List InvokeRecord)) :
    (Field.values selector valueLayout invokeLayout).arrived { settled := items } =
      { inboundValues := items.bind Sum.getLeft?
        inboundInvocations := items.bind Sum.getRight? } := by
  rcases items with _ | values | items <;> rfl

/-- The slots of rows that fit their operation arrive as they should, and are put together
again. -/
theorem WireRows.arrives_toSlots {op : Option Operation} {rows : Option (WireRows σ)}
    (h : ∀ r, rows = some r → r.Fits op) :
    let tag := (op.map Operation.ordinal).getD (-1)
    let slots := WireRows.toSlots rows false
    let keys := (Field.keys keyLayout).arrived slots.1
    let values := (Field.values Operation.invoke.ordinal valueLayout invokeLayout).arrived slots.2
    (Field.keys keyLayout).Arrives (-1) keys ∧
      (Field.values Operation.invoke.ordinal valueLayout invokeLayout).Arrives tag values ∧
      assembleRows tag keys values = (.ok (), slots) := by
  intro tag slots keys values
  have hop : Operation.ofOrdinal? tag = op := Operation.ofOrdinal?_getD op
  have hkeys : (Field.keys keyLayout).Arrives (-1) keys := by
    refine ⟨rfl, rfl, fun items hitems => ?_⟩
    obtain ⟨r, -, rfl⟩ := Option.map_eq_some_iff.mp hitems
    exact sound_list KeyObject.sound_toRecord r.keys
  have hfit : RowsFit (Operation.ofOrdinal? tag) slots.1.settled slots.2.settled := by
    rw [hop]
    rcases rows with _ | ks | ⟨ks, vs⟩ | ⟨ks, is⟩
    · rfl
    all_goals
      have hfits := h _ rfl
      simp only [Fits, ValuesFit, length, WireRows.keys, items] at hfits
      simpa [RowsFit, ValuesFit, slots, toSlots, WireRows.keys] using hfits
  have hrows := assembleRows_of_fit hfit
  have harrived : values = { inboundValues := slots.2.settled.bind Sum.getLeft?
                             inboundInvocations := slots.2.settled.bind Sum.getRight? } :=
    values_arrived Operation.invoke.ordinal slots.2.settled
  refine ⟨hkeys, ?_, by rw [harrived]; exact hrows⟩
  rcases rows with _ | ks | ⟨ks, vs⟩ | ⟨ks, is⟩
  · exact ⟨rfl, fun _ hitems => (Option.some_ne_none _ hitems.symm).elim,
      fun _ hitems => (Option.some_ne_none _ hitems.symm).elim⟩
  · exact ⟨rfl, fun _ hitems => (Option.some_ne_none _ hitems.symm).elim,
      fun _ hitems => (Option.some_ne_none _ hitems.symm).elim⟩
  · obtain ⟨-, hnone⟩ := h _ rfl
    have htag : tag ≠ Operation.invoke.ordinal := by
      intro htag
      obtain rfl : some Operation.invoke = op := by rw [← hop, htag, Operation.ofOrdinal?_ordinal]
      cases (hnone _ rfl).2
    refine ⟨rfl, fun items hitems => ⟨htag, ?_⟩,
      fun _ hitems => (Option.some_ne_none _ hitems.symm).elim⟩
    rw [← Option.some.inj hitems]
    exact sound_list ValueObject.sound_toRecord vs
  · obtain ⟨-, o, rfl, hinvoke⟩ := h _ rfl
    have htag : tag = Operation.invoke.ordinal := by
      cases o <;> first | rfl | cases hinvoke
    refine ⟨rfl, fun _ hitems => (Option.some_ne_none _ hitems.symm).elim,
      fun items hitems => ⟨htag, ?_⟩⟩
    rw [← Option.some.inj hitems]
    exact sound_list InvokeValue.sound_toRecord is

/-- A request in shape whose rows are in wire form has a sound record. -/
theorem EnlistRequest.Shaped.sound_toRecord {req : EnlistRequest σ} (h : req.Shaped)
    (hconverted : (req.wire.isNone && (req.pending.getD []).length != 0) = false) :
    requestLayout.Sound (WireForm.toRecord req) := by
  obtain ⟨base, clientFirst, filter, futureId, keepBinary, lock, mini, snapshot, needResult, op,
    taskHash, threadId, timeoutMs, topology, txTimeoutMs, addDeployment, pending, wire,
    enlisted⟩ := req
  obtain ⟨hfilter, hrows⟩ := h
  obtain ⟨hkeys, hvalues, hassemble⟩ := WireRows.arrives_toSlots hrows
  have hfilter' : ∀ record, filter.map WireForm.toRecord = some record →
      filterLayout.Sound record := by
    intro record hrecord
    obtain ⟨f, hf, rfl⟩ := Option.map_eq_some_iff.mp hrecord
    exact (hfilter f hf).sound_toRecord
  have hop : ordinalAllowed 6 true ((op.map Operation.ordinal).getD (-1)) = true := by
    rcases op with _ | op
    · rfl
    · cases op <;> rfl
  let settled (r : Except CodecError Unit × RequestKeys × RequestValues) :
      Except CodecError Unit × BaseSlots RequestSlots :=
    (r.1, base.toSlots (clientFirst, filter.map WireForm.toRecord, futureId.id, keepBinary, r.2.1,
      WireForm.toRecord lock, mini, snapshot.map WireForm.toRecord, needResult,
      (op.map Operation.ordinal).getD (-1), taskHash, threadId, timeoutMs,
      WireForm.toRecord topology, txTimeoutMs, r.2.2, ()))
  have hrecord : WireForm.toRecord (EnlistRequest.mk base clientFirst filter futureId keepBinary
      lock mini snapshot needResult op taskHash threadId timeoutMs topology txTimeoutMs
      addDeployment pending wire enlisted) = ⟨if addDeployment then deploymentFlag else 0,
        (settled (.ok (), WireRows.toSlots wire false)).2⟩ := by
    rw [← hconverted]
    rfl
  rw [hrecord]
  refine ⟨base.arrives_toSlots ⟨trivial, hfilter', trivial, trivial, hkeys, lock.sound_toRecord,
    trivial, sound_option Snapshot.sound_toRecord snapshot, trivial, hop, trivial, trivial, trivial,
    topology.sound_toRecord, trivial, hvalues, trivial⟩, ?_⟩
  exact congrArg settled hassemble

/-- A request that can be written has no rows left to be brought into wire form. -/
theorem EnlistRequest.converted_of_ready {req : EnlistRequest σ}
    (h : requestLayout.ready (WireForm.toRecord req) = true) :
    (req.wire.isNone && (req.pending.getD []).length != 0) = false := by
  have hkeys : (Field.keys keyLayout).ready
      (WireRows.toSlots req.wire (req.wire.isNone && (req.pending.getD []).length != 0)).1 =
        true := by
    simp only [Layout.ready, requestLayout, baseFields, Fields.ready, Bool.and_eq_true] at h
    exact h.2.2.2.2.2.2.2.2.1
  exact (Bool.not_eq_true' _).mp hkeys

/-- A message in shape that can be written has a sound record. -/
theorem Message.Shaped.sound_toDraft {m : Message σ} (h : m.Shaped)
    (hready : m.toDraft.type.layout.ready m.toDraft.record = true) :
    m.toDraft.type.layout.Sound m.toDraft.record := by
  cases m with
  | topologyVersion v => exact v.sound_toRecord
  | lockVersion v => exact v.sound_toRecord
  | snapshot s => exact s.sound_toRecord
  | deploymentInfo d => exact d.sound_toRecord
  | key k => exact k.sound_toRecord
  | value v => exact v.sound_toRecord
  | invocation i => exact i.sound_toRecord
  | filter f => exact Filter.Shaped.sound_toRecord h
  | returnValue r => exact r.sound_toRecord
  | rowFailure f => exact f.sound_toRecord
  | error e => exact e.sound_toRecord
  | request r => exact EnlistRequest.Shaped.sound_toRecord h (r.converted_of_ready hready)
  | response r => exact r.sound_toRecord

/-! ## Settled records are those of messages in shape -/

/-- A kind other than the first is looked up at its own position. -/
theorem FilterKind.eq_ordinal {n : Int8} {kind : FilterKind} (h : ofOrdinal n = kind)
    (hne : kind ≠ hasValue) : n = kind.ordinal := by
  unfold ofOrdinal at h
  cases hfind : all.find? fun kind => kind.ordinal == n with
  | none =>
    rw [hfind] at h
    exact absurd h.symm hne
  | some found =>
    rw [hfind] at h
    obtain rfl : found = kind := h
    have hfound : (found.ordinal == n) = true := by simpa using List.find?_some hfind
    exact (eq_of_beq hfound).symm

/-- A filter whose record has been settled is in shape. -/
theorem Filter.shaped_ofRecord {r : FilterRecord} (h : filterLayout.Settled r) :
    (WireForm.ofRecord r : Filter σ).Shaped := by
  obtain ⟨flags, kind, operand, className, ⟨⟩⟩ := r
  obtain ⟨slots, hslots⟩ := h
  obtain ⟨hcheck, rfl⟩ : checkFilter slots = .ok () ∧ slots = (kind, operand, className, ()) :=
    Prod.mk.inj hslots
  constructor
  · intro hkind
    obtain rfl := FilterKind.eq_ordinal hkind (by decide)
    cases operand with
    | none => cases hcheck
    | some o => rfl
  · intro hkind
    obtain rfl := FilterKind.eq_ordinal hkind (by decide)
    obtain ⟨staged, _ | name⟩ := className
    · cases operand <;> cases hcheck
    · rfl

/-- A request whose record has been settled, with the messages in it, is in shape. -/
theorem EnlistRequest.shaped_ofRecord {r : RequestRecord} (h : requestLayout.Settled r)
    (hfields : requestLayout.FieldsSettled requestLayout.fieldCount r) :
    (WireForm.ofRecord r : EnlistRequest σ).Shaped := by
  obtain ⟨flags, deployment, affinity, messageId, cacheId, clientFirst, filter, future, keepBinary,
    keys, lock, mini, snapshot, needResult, op, taskHash, threadId, timeout, topology, txTimeout,
    values, ⟨⟩⟩ := r
  have hfilter : ∀ m, filter = some m → filterLayout.Settled m := hfields.2.2.2.2.2.1
  have hfit : RowsFit (Operation.ofOrdinal? op) keys.settled values.settled := by
    obtain ⟨slots, hsettle⟩ := h
    exact settleRequest_fit hsettle
  constructor
  · intro f hf
    obtain ⟨m, hm, rfl⟩ := Option.map_eq_some_iff.mp hf
    exact Filter.shaped_ofRecord (hfilter m hm)
  · intro rows hrows
    obtain ⟨ks, hks, rfl⟩ := Option.map_eq_some_iff.mp hrows
    rw [hks] at hfit
    show ValuesFit (Operation.ofOrdinal? op) _ _
    rcases hsettled : values.settled with _ | items | items <;> rw [hsettled] at hfit <;>
      simpa [RowsFit, ValuesFit, WireRows.length, WireRows.keys, WireRows.items] using hfit

end Enlistment
