import Enlistment.Proofs.Message.Rebuilding
import Enlistment.Proofs.Stream.Building
import Enlistment.Proofs.Stream.Chunking

/-!
# Requests from row to row

A request whose rows have been brought into wire form has all octets that are written, so it is
encoded through any buffer. If its lengths keep to the limit of its receiver, the receiver gets
the rows of the caller.
-/

namespace Enlistment

open Wire

variable {σ : Type}

/-! ## A request in wire form can be written -/

/-- Whether all objects of rows in wire form have octets. -/
def WireRows.Filled : WireRows σ → Prop
  | keysOnly keys => ∀ k ∈ keys, k.bytes.isSome = true
  | entries keys values =>
    (∀ k ∈ keys, k.bytes.isSome = true) ∧ ∀ v ∈ values, v.bytes.isSome = true
  | invokes keys items =>
    (∀ k ∈ keys, k.bytes.isSome = true) ∧ ∀ i ∈ items, ∀ a ∈ i.args, a.bytes.isSome = true

/-- A request that is in wire form: its rows have been converted, and all objects in it have
octets. -/
structure EnlistRequest.Filled (req : EnlistRequest σ) : Prop where
  converted : (req.wire.isNone && (req.pending.getD []).length != 0) = false
  rows : ∀ wire, req.wire = some wire → wire.Filled
  operand : ∀ f o, req.filter = some f → f.operand = some o → o.bytes.isSome = true

/-- Rows that are brought into wire form have all of their octets. -/
theorem EnlistRequest.convertRows_filled {ctx : MarshalContext} {op : Option Operation}
    {rows : List Row} {wire : WireRows σ} (h : convertRows ctx op rows = .ok wire) :
    wire.Filled := by
  obtain ⟨-, rfl, rfl⟩ | ⟨o, -, -, rfl⟩ := convertRows_eq h
  · exact List.forall_mem_nil _
  · have hkeys : ∀ k ∈ (rows.map (Row.form (σ := σ) ctx)).map EnlistedRow.keyObject,
        k.bytes.isSome = true := by
      intro k hk
      obtain ⟨r, hr, rfl⟩ := List.mem_map.mp hk
      obtain ⟨row, -, rfl⟩ := List.mem_map.mp hr
      cases row <;> rfl
    unfold wireRowsOf
    split
    · exact hkeys
    · split
      · refine ⟨hkeys, fun i hi a ha => ?_⟩
        obtain ⟨r, hr, hri⟩ := List.mem_filterMap.mp hi
        obtain ⟨row, -, rfl⟩ := List.mem_map.mp hr
        cases row with
        | invoke k invocation =>
          obtain rfl := Option.some.inj hri
          obtain ⟨v, -, rfl⟩ := List.mem_map.mp ha
          rfl
        | _ => cases hri
      · refine ⟨hkeys, fun v hv => ?_⟩
        obtain ⟨r, hr, hrv⟩ := List.mem_filterMap.mp hv
        obtain ⟨row, -, rfl⟩ := List.mem_map.mp hr
        cases row with
        | entry k v' =>
          obtain rfl := Option.some.inj hrv
          rfl
        | _ => cases hrv

/-- A request without rows in wire form is in wire form once it is marshalled, if its filter is
whole. -/
theorem EnlistRequest.filled_of_marshal {ctx : MarshalContext} {req marshalled : EnlistRequest σ}
    (hwire : req.wire = none) (h : req.marshal ctx = .ok marshalled)
    (hwhole : ∀ f, req.filter = some f → f.Whole) : marshalled.Filled := by
  obtain ⟨deployment, addDeployment, wire, rfl, hconverted⟩ := marshal_eq h
  refine ⟨Bool.and_false _, fun w hw => ?_, fun f o hf ho => ?_⟩
  · obtain ⟨-, hnone⟩ | ⟨rows, w', -, rfl, hconvert⟩ := hconverted
    · cases hw.symm.trans (hnone.trans hwire)
    · obtain rfl := Option.some.inj hw
      exact convertRows_filled hconvert
  · obtain ⟨f₀, hf₀, rfl⟩ := Option.map_eq_some_iff.mp hf
    obtain ⟨o₀, ho₀, rfl⟩ := Option.map_eq_some_iff.mp ho
    obtain ⟨v, hv⟩ := hwhole f₀ hf₀ o₀ ho₀
    obtain ⟨_ | bs, _ | v⟩ := o₀
    · cases hv
    all_goals rfl

/-- A key with octets can be written. -/
theorem KeyObject.prepared {k : KeyObject} (h : k.bytes.isSome = true) :
    keyLayout.Prepared (WireForm.toRecord k) :=
  ⟨rfl, trivial, h, trivial, trivial⟩

/-- A value with octets can be written. -/
theorem ValueObject.prepared {o : ValueObject} (h : o.bytes.isSome = true) :
    valueLayout.Prepared (WireForm.toRecord o) :=
  ⟨h, trivial, trivial⟩

/-- An invocation whose arguments have octets can be written. -/
theorem InvokeValue.prepared {i : InvokeValue σ} (h : ∀ a ∈ i.args, a.bytes.isSome = true) :
    invokeLayout.Prepared (WireForm.toRecord i) := by
  refine ⟨rfl, fun r hr => ?_, rfl, trivial, trivial⟩
  obtain ⟨a, ha, rfl⟩ := List.mem_map.mp hr
  exact ValueObject.prepared (h a ha)

/-- A filter whose operand has octets can be written. -/
theorem Filter.prepared {f : Filter σ} (h : ∀ o, f.operand = some o → o.bytes.isSome = true) :
    filterLayout.Prepared (WireForm.toRecord f) := by
  refine ⟨rfl, trivial, rfl, fun r hr => ?_, rfl, trivial, trivial⟩
  obtain ⟨o, ho, rfl⟩ := Option.map_eq_some_iff.mp hr
  exact ValueObject.prepared (h o ho)

/-- Rows whose objects have octets can be written. -/
theorem WireRows.prepared {rows : Option (WireRows σ)}
    (h : ∀ wire, rows = some wire → wire.Filled) :
    let slots := WireRows.toSlots rows false
    (Field.keys keyLayout).Prepared slots.1 ∧
      (Field.values Operation.invoke.ordinal valueLayout invokeLayout).Prepared slots.2 := by
  have hkeys : ∀ keys : List KeyObject, (∀ k ∈ keys, k.bytes.isSome = true) →
      ∀ r ∈ keys.map WireForm.toRecord, keyLayout.Prepared r := by
    intro keys hfilled r hr
    obtain ⟨k, hk, rfl⟩ := List.mem_map.mp hr
    exact KeyObject.prepared (hfilled k hk)
  rcases rows with _ | keys | ⟨keys, values⟩ | ⟨keys, items⟩
  · exact ⟨fun _ hnone => (Option.some_ne_none _ hnone.symm).elim,
      ⟨fun _ hnone => (Option.some_ne_none _ hnone.symm).elim,
        fun _ hnone => (Option.some_ne_none _ hnone.symm).elim⟩⟩
  · refine ⟨fun records hrecords => ?_,
      ⟨fun _ hnone => (Option.some_ne_none _ hnone.symm).elim,
        fun _ hnone => (Option.some_ne_none _ hnone.symm).elim⟩⟩
    rw [← Option.some.inj hrecords]
    exact hkeys keys (h _ rfl)
  · obtain ⟨hfilledKeys, hfilledValues⟩ := h _ rfl
    refine ⟨fun records hrecords => ?_, ⟨fun records hrecords r hr => ?_,
      fun records hrecords => ?_⟩⟩
    · rw [← Option.some.inj hrecords]
      exact hkeys keys hfilledKeys
    · rw [← Sum.inl.inj (Option.some.inj hrecords)] at hr
      obtain ⟨v, hv, rfl⟩ := List.mem_map.mp hr
      exact ValueObject.prepared (hfilledValues v hv)
    · cases Option.some.inj hrecords
  · obtain ⟨hfilledKeys, hfilledItems⟩ := h _ rfl
    refine ⟨fun records hrecords => ?_, ⟨fun records hrecords => ?_,
      fun records hrecords r hr => ?_⟩⟩
    · rw [← Option.some.inj hrecords]
      exact hkeys keys hfilledKeys
    · cases Option.some.inj hrecords
    · rw [← Sum.inr.inj (Option.some.inj hrecords)] at hr
      obtain ⟨i, hi, rfl⟩ := List.mem_map.mp hr
      exact InvokeValue.prepared (hfilledItems i hi)

/-- A topology version can be written. -/
theorem TopologyVersion.prepared (v : TopologyVersion) :
    topologyLayout.Prepared (WireForm.toRecord v) :=
  ⟨rfl, trivial, rfl, trivial, trivial⟩

/-- A request in wire form can be written. -/
theorem EnlistRequest.Filled.prepared {req : EnlistRequest σ} (h : req.Filled) :
    requestLayout.Prepared (WireForm.toRecord req) := by
  obtain ⟨hkeys, hvalues⟩ := WireRows.prepared h.rows
  have hready : (!(req.wire.isNone && (req.pending.getD []).length != 0)) = true := by
    rw [h.converted]
    rfl
  have hfilter : ∀ record, req.filter.map WireForm.toRecord = some record →
      filterLayout.Prepared record := by
    intro record hrecord
    obtain ⟨f, hf, rfl⟩ := Option.map_eq_some_iff.mp hrecord
    exact Filter.prepared fun o ho => h.operand f o hf ho
  have hdeployment : ∀ record, req.base.deployment.map WireForm.toRecord = some record →
      deploymentLayout.Prepared record :=
    fun record _ => ⟨rfl, trivial, rfl, trivial, rfl, trivial, trivial⟩
  have hsnapshot : ∀ record, req.snapshot.map WireForm.toRecord = some record →
      snapshotLayout.Prepared record :=
    fun record _ => ⟨rfl, trivial, rfl, trivial, rfl, trivial, rfl, trivial, rfl, trivial, trivial⟩
  have hlock : lockLayout.Prepared (WireForm.toRecord req.lock) :=
    ⟨rfl, trivial, rfl, trivial, rfl, trivial, trivial⟩
  exact ⟨rfl, hdeployment, rfl, req.base.lastAffinityChange.prepared, rfl, trivial, rfl, trivial,
    rfl, trivial, rfl, hfilter, rfl, trivial, rfl, trivial, hready, hkeys, rfl, hlock, rfl, trivial,
    rfl, hsnapshot, rfl, trivial, rfl, trivial, rfl, trivial, rfl, trivial, rfl, trivial, rfl,
    req.topology.prepared, rfl, trivial, rfl, hvalues, trivial⟩

/-! ## Lengths on the wire -/

/-- The filter and the rows of a request keep to its limit, and so does the number of rows. -/
theorem EnlistRequest.within_parts {limit : Nat} {req : EnlistRequest σ}
    (h : requestLayout.Within limit (WireForm.toRecord req)) :
    (∀ f, req.filter = some f → filterLayout.Within limit (WireForm.toRecord f)) ∧
      ∀ wire, req.wire = some wire →
        wire.length ≤ limit ∧
        (∀ k ∈ wire.keys, keyLayout.Within limit (WireForm.toRecord k)) ∧
        (∀ keys values, wire = .entries keys values →
          ∀ v ∈ values, valueLayout.Within limit (WireForm.toRecord v)) ∧
        ∀ keys items, wire = .invokes keys items →
          ∀ i ∈ items, invokeLayout.Within limit (WireForm.toRecord i) := by
  simp only [Layout.Within, requestLayout, baseFields, Fields.Within] at h
  have hfilter : ∀ record, req.filter.map WireForm.toRecord = some record →
      filterLayout.Within limit record := h.2.2.2.2.2.1
  have hkeys : (Field.keys keyLayout).Within limit (WireRows.toSlots req.wire false).1 :=
    h.2.2.2.2.2.2.2.2.1
  have hvalues : (Field.values Operation.invoke.ordinal valueLayout invokeLayout).Within limit
      (WireRows.toSlots req.wire false).2 := h.2.2.2.2.2.2.2.2.2.2.2.2.2.2.2.2.2.2.2.1
  refine ⟨fun f hf => hfilter _ (by rw [hf, Option.map_some]), fun wire hwire => ⟨?_, ?_, ?_, ?_⟩⟩
  · have hcount := (hkeys (wire.keys.map WireForm.toRecord) (by rw [hwire]; rfl)).1
    rwa [List.length_map] at hcount
  · intro k hk
    have hall := (hkeys (wire.keys.map WireForm.toRecord) (by rw [hwire]; rfl)).2
    exact hall _ (List.mem_map_of_mem hk)
  · rintro keys values rfl v hv
    have hall := (hvalues.1 (values.map WireForm.toRecord) (by rw [hwire]; rfl)).2
    exact hall _ (List.mem_map_of_mem hv)
  · rintro keys items rfl i hi
    have hall := (hvalues.2 (items.map WireForm.toRecord) (by rw [hwire]; rfl)).2
    exact hall _ (List.mem_map_of_mem hi)

/-- The values of the caller's rows keep to the limit of the request that carries them. -/
theorem EnlistRequest.values_within {limit : Nat} {ctx : MarshalContext} {op : Option Operation}
    {rows : List Row} {wire : WireRows σ} (hconvert : convertRows ctx op rows = .ok wire)
    {sent : EnlistRequest σ} (hwire : sent.wire = some wire)
    (h : requestLayout.Within limit (WireForm.toRecord sent)) :
    ∀ row ∈ rows, ∀ v ∈ row.values, v.encode.length ≤ limit := by
  obtain ⟨-, hkeys, hvalues, hitems⟩ := (within_parts h).2 wire hwire
  intro row hrow
  have hkey : row.keyValue.encode.length ≤ limit := by
    have hmem : KeyObject.ofKey ctx row.keyValue ∈ wire.keys := by
      rw [convertRows_keys hconvert]
      exact List.mem_map_of_mem hrow
    exact (hkeys _ hmem).2.1 _ rfl
  obtain ⟨-, rfl, -⟩ | ⟨o, -, hfits, hput⟩ := convertRows_eq hconvert
  · cases hrow
  · have hmem : row.form (σ := σ) ctx ∈ rows.map (Row.form ctx) := List.mem_map_of_mem hrow
    cases row with
    | key k => exact List.forall_mem_singleton.mpr hkey
    | entry k v =>
      obtain ⟨hkeysOnly, hinvoke⟩ := hfits _ hrow
      have hv : ValueObject.complete v ∈
          (rows.map (Row.form (σ := σ) ctx)).filterMap EnlistedRow.valueObject? :=
        List.mem_filterMap.mpr ⟨_, hmem, rfl⟩
      rw [wireRowsOf, hkeysOnly, hinvoke, if_neg Bool.false_ne_true, if_neg Bool.false_ne_true]
        at hput
      exact List.forall_mem_cons.mpr
        ⟨hkey, List.forall_mem_singleton.mpr ((hvalues _ _ hput _ hv).1 _ rfl)⟩
    | invoke k i =>
      have hinvoke : o.isInvoke = true := hfits _ hrow
      have hi : (⟨i.processor, i.args.map ValueObject.complete, none⟩ : InvokeValue σ) ∈
          (rows.map (Row.form (σ := σ) ctx)).filterMap EnlistedRow.invocation? :=
        List.mem_filterMap.mpr ⟨_, hmem, rfl⟩
      rw [wireRowsOf, Operation.isDeleteOrLock_of_isInvoke hinvoke, hinvoke,
        if_neg Bool.false_ne_true, if_pos rfl] at hput
      refine List.forall_mem_cons.mpr ⟨hkey, fun v hv => ?_⟩
      have harg : WireForm.toRecord (ValueObject.complete v) ∈
          (i.args.map ValueObject.complete).map WireForm.toRecord :=
        List.mem_map_of_mem (List.mem_map_of_mem hv)
      exact ((hitems _ _ hput _ hi).1.2 _ harg).1 _ rfl

/-- The octets of the operand of a filter keep to the limit of the request that carries them. -/
theorem EnlistRequest.operand_within {limit : Nat} {req sent : EnlistRequest σ}
    (hsent : sent.filter = req.filter.map Filter.marshal)
    (h : requestLayout.Within limit (WireForm.toRecord sent)) {f : Filter σ} {o : ValueObject}
    {bs : Bytes} (hf : req.filter = some f) (ho : f.operand = some o)
    (hbs : o.marshal.bytes = some bs) : bs.length ≤ limit := by
  have hfilter := (within_parts h).1 f.marshal (by rw [hsent, hf, Option.map_some])
  have hrecord : f.marshal.operand.map WireForm.toRecord =
      some (WireForm.toRecord o.marshal) := by
    rw [Filter.marshal, ho]
    rfl
  exact (hfilter.2.1 _ hrecord).1 _ hbs

/-! ## From the caller's rows to the receiver's -/

/-- Whether a loader knows the code that a request names and, unless its objects stay in binary
form, their classes. -/
structure EnlistRequest.KnownTo (loader : ClassLoader σ) (req : EnlistRequest σ) : Prop where
  processor : ∀ row ∈ req.pending.getD [], ∀ name, row.processor? = some name →
    (loader.processor name).isSome = true
  predicate : ∀ f name, req.filter = some f → f.className = some name →
    (loader.predicate name).isSome = true
  rows : req.keepBinary = false → ∀ row ∈ req.pending.getD [], ∀ v ∈ row.values,
    v.Known loader.hasClass
  operand : req.keepBinary = false → ∀ f v, req.filter = some f → f.operandContent = some v →
    v.Known loader.hasClass

/-- A receiver that knows what a request refers to can look into its values. -/
theorem Value.readable_of_known {keepBinary : Bool} {hasClass : String → Bool} {v : Value}
    (h : keepBinary = false → v.Known hasClass) : v.Readable keepBinary hasClass := by
  cases keepBinary with
  | true => exact .inl rfl
  | false => exact .inr (h rfl)

namespace EnlistRequest

variable {ctx : MarshalContext} {loader : ClassLoader σ} {maxLength : Nat}
  {req marshalled : EnlistRequest σ}

/-- Octets that keep to a limit of the wire are not too long for the numbers in them. -/
theorem short_of_within {v : Value} (hlimit : maxLength ≤ maxWireLength)
    (h : v.encode.length ≤ maxLength) : v.Short :=
  Nat.lt_of_le_of_lt (Nat.le_trans h hlimit) (by decide)

/-- The receiver of a request that keeps to a limit of the wire rebuilds it, if it knows what the
request refers to. -/
theorem rebuilt_of_knownTo (hwire : req.wire = none) (hwhole : ∀ f, req.filter = some f → f.Whole)
    (hmarshal : req.marshal ctx = .ok marshalled) (hlimit : maxLength ≤ maxWireLength)
    (hwithin : requestLayout.Within maxLength (WireForm.toRecord marshalled))
    (hloader : req.KnownTo loader) :
    ∃ received, marshalled.onWire.unmarshal loader = (.ok (), received) ∧
      req.ReceivedAs ctx loader received := by
  obtain ⟨deployment, addDeployment, wire, hmarshalled, hconverted⟩ := marshal_eq hmarshal
  refine unmarshal_marshalled hwire hmarshal (fun row hrow => ?_) fun f hf => ?_
  · obtain ⟨hnone, -⟩ | ⟨rows, w, hpending, rfl, hconvert⟩ := hconverted
    · rw [hnone] at hrow
      cases hrow
    · have hrow' : row ∈ rows := by rwa [hpending] at hrow
      have hvalues := values_within hconvert (by rw [hmarshalled]) hwithin row hrow'
      exact ⟨fun v hv => short_of_within hlimit (hvalues v hv),
        fun v hv => Value.readable_of_known fun hbinary => hloader.rows hbinary row hrow v hv,
        hloader.processor row hrow⟩
  · refine ⟨fun o ho => ?_, fun name hname => hloader.predicate f name hf hname⟩
    obtain ⟨v, hv⟩ := hwhole f hf o ho
    have hoperand : f.operandContent = some v := by
      rw [Filter.operandContent, ho]
      show o.content.toOption = some v
      rw [hv]
      rfl
    refine ⟨v, hv, fun hnone => ?_, Value.readable_of_known fun hbinary =>
      hloader.operand hbinary f v hf hoperand⟩
    have hbytes : o.marshal.bytes = some v.encode := by
      obtain ⟨bytes, value⟩ := o
      obtain rfl : bytes = none := hnone
      cases value with
      | none => cases hv
      | some found =>
        obtain rfl : found = v := Except.ok.inj hv
        rfl
    exact short_of_within hlimit (operand_within (by rw [hmarshalled]) hwithin hf ho hbytes)

/-- A request in shape that is in wire form can be written, and read under its limit. -/
theorem Filled.legible {accepted : List MessageType} (h : marshalled.Filled)
    (hshaped : marshalled.Shaped) (hlimit : maxLength ≤ maxWireLength)
    (hwithin : requestLayout.Within maxLength (WireForm.toRecord marshalled))
    (haccepted : .request ∈ accepted) :
    (Message.request marshalled).toDraft.Accepted ∧
      (Message.request marshalled).toDraft.Legible accepted maxLength := by
  have hfits : requestLayout.Within maxWireLength (WireForm.toRecord marshalled) :=
    hwithin.mono hlimit
  have hsound : requestLayout.Sound (WireForm.toRecord marshalled) :=
    hshaped.sound_toRecord h.converted
  exact ⟨Draft.accepted_of_prepared h.prepared hfits, ⟨haccepted, hsound, hfits, hwithin⟩⟩

/-- A request in shape that is in wire form has an encoding through buffers of any size, and
whichever way this encoding is cut, its receiver decodes the request from it and nothing else. -/
theorem Filled.received {accepted : List MessageType} (h : marshalled.Filled)
    (hshaped : marshalled.Shaped) (hlimit : maxLength ≤ maxWireLength)
    (hwithin : requestLayout.Within maxLength (WireForm.toRecord marshalled))
    (haccepted : .request ∈ accepted) (chunk : Nat) :
    ∃ bs, (Message.request marshalled).toDraft.encodeChunked chunk = .ok bs ∧
      ∀ pieces : List Bytes, pieces.flatten = bs →
        let result := Decoder.receive { accepted, maxLength } pieces
        result.messages.map Message.ofDraft = [.request marshalled.onWire] ∧
          result.outcome = .ok () ∧ result.decoder.pending = [] := by
  obtain ⟨hwritable, hlegible⟩ := h.legible hshaped hlimit hwithin haccepted
  refine ⟨(Message.request marshalled).toDraft.encode, hwritable.encodeChunked_eq chunk,
    fun pieces hpieces => ?_⟩
  rw [Decoder.receive_encoding hlegible hpieces]
  exact ⟨congrArg (fun m => [m]) (Message.ofDraft_toDraft (.request marshalled)), rfl, rfl⟩

/-- The rows of a caller arrive. Let a request whose rows are not in wire form be marshalled such
that no length in it is beyond the limit of its receiver. Its filter may have been made or received,
if only the octets of the operand can be decoded. Through buffers of any size the request has an
encoding, and whichever way this encoding is cut, the receiver decodes one and the same request from
it and nothing else. Unmarshalling succeeds with any loader that knows what the request refers to.
Its rows are those of the caller in order, its filter accepts what it should, and the rest of it is
as it was built. -/
theorem received_as_built {accepted : List MessageType} (hbuilt : (Message.request req).Built)
    (hwire : req.wire = none) (hwhole : ∀ f, req.filter = some f → f.Whole)
    (hmarshal : req.marshal ctx = .ok marshalled) (hlimit : maxLength ≤ maxWireLength)
    (hwithin : requestLayout.Within maxLength (WireForm.toRecord marshalled))
    (haccepted : .request ∈ accepted) (hloader : req.KnownTo loader) :
    ∃ decoded received, decoded.unmarshal loader = (.ok (), received) ∧
      req.ReceivedAs ctx loader received ∧
      ∀ chunk, ∃ bs, (Message.request marshalled).toDraft.encodeChunked chunk = .ok bs ∧
        ∀ pieces : List Bytes, pieces.flatten = bs →
          let result := Decoder.receive { accepted, maxLength } pieces
          result.messages.map Message.ofDraft = [.request decoded] ∧
            result.outcome = .ok () ∧ result.decoder.pending = [] := by
  obtain ⟨received, hreceived, hsame⟩ :=
    rebuilt_of_knownTo hwire hwhole hmarshal hlimit hwithin hloader
  have hshaped : req.Shaped := hbuilt.shaped
  exact ⟨marshalled.onWire, received, hreceived, hsame,
    (filled_of_marshal hwire hmarshal hwhole).received (hshaped.marshal hmarshal) hlimit hwithin
      haccepted⟩

/-- An invocation with an object and a number for arguments, sent under a filter of a user class
through buffers of 20 octets and cut behind its seventh octet. -/
theorem received_invocation :
    let point : Value := .object "Point" [("x", .int 3)]
    let processor : EntryProcessor Unit := ⟨fun _ entry _ => ⟨.ok none, entry, ()⟩⟩
    let predicate : RowPredicate Unit := ⟨fun _ _ current => (current.isNone, ())⟩
    let loader := ClassLoader.ofRegistrations ["Point"] [("Move", processor)] [("New", predicate)]
    let ctx : MarshalContext := .ofCache 5 8
    let req : EnlistRequest Unit :=
      { op := some .invoke, filter := some (.custom "New")
        pending := some [.invoke (.text "k") ⟨"Move", [point, .int 1]⟩] }
    ∃ bs decoded received, (req.marshal ctx).map (fun marshalled =>
        (Message.request marshalled).toDraft.encodeChunked 20) = .ok (.ok bs) ∧
      (Decoder.receive { accepted := MessageType.envelope } [bs.take 7, bs.drop 7]).messages.map
        Message.ofDraft = [.request decoded] ∧
      decoded.unmarshal loader = (.ok (), received) ∧
      received.enlisted = some [.invoke
        ⟨ctx.partitionOfValue (.text "k"), some (Value.text "k").encode, some (.text "k")⟩
        ⟨"Move", [⟨some point.encode, some point⟩, ⟨some (Value.int 1).encode, some (.int 1)⟩],
          some processor⟩] := by
  intro point processor predicate loader ctx req
  have hbuilt : (Message.request req).Built := by
    refine .request req rfl fun f hf => ?_
    obtain rfl := Option.some.inj hf
    exact .custom "New"
  have hwhole : ∀ f, req.filter = some f → f.Whole := by
    intro f hf
    obtain rfl := Option.some.inj hf
    exact Filter.whole_of_made (.inr (.inr (.inr ⟨"New", rfl⟩)))
  have hloader : req.KnownTo loader := by
    refine ⟨fun row hrow name hname => ?_, fun f name hf hname => ?_, fun _ row hrow v hv => ?_,
      fun _ f v hf hv => ?_⟩
    · obtain rfl := List.mem_singleton.mp hrow
      obtain rfl := Option.some.inj hname
      rfl
    · obtain rfl := Option.some.inj hf
      obtain rfl := Option.some.inj hname
      rfl
    · obtain rfl := List.mem_singleton.mp hrow
      have hall : ∀ v ∈ [Value.text "k", point, .int 1], v.Known loader.hasClass := by
        simp only [List.forall_mem_cons, Value.Known]
        decide
      exact hall v hv
    · obtain rfl := Option.some.inj hf
      cases hv
  let marshalled : EnlistRequest Unit :=
    { req with
      pending := none
      wire := some (.invokes [.ofKey ctx (.text "k")]
        [⟨"Move", [.complete point, .complete (.int 1)], none⟩]) }
  have hmarshal : req.marshal ctx = .ok marshalled := rfl
  have haccepted : MessageType.request ∈ MessageType.envelope := by decide
  have hwithin : requestLayout.Within defaultMaxLength (WireForm.toRecord marshalled) := by decide
  obtain ⟨decoded, received, hreceived, hsame, hencode⟩ :=
    received_as_built hbuilt rfl hwhole hmarshal (by decide) hwithin haccepted hloader
  obtain ⟨bs, hbs, hdecode⟩ := hencode 20
  refine ⟨bs, decoded, received, ?_, (hdecode _ ?_).1, hreceived, hsame.rows⟩
  · rw [hmarshal]
    exact congrArg Except.ok hbs
  · rw [List.flatten_cons, List.flatten_cons, List.flatten_nil, List.append_nil,
      List.take_append_drop]

/-- The octets of a received filter's operand stand for no value. A request that is built with this
filter is marshalled and read, and no receiver can rebuild it. -/
theorem undecodable_operand_not_received :
    let ctx : MarshalContext := .ofCache 5 8
    ∃ (f : Filter Unit) (marshalled decoded : EnlistRequest Unit) (bs : Bytes),
      let req : EnlistRequest Unit :=
        { op := some .upsert, filter := some f, pending := some [.entry (.int 1) (.int 2)] }
      (Message.filter f).Built ∧ (Message.request req).Built ∧ req.marshal ctx = .ok marshalled ∧
      (Message.request marshalled).toDraft.encodeChunked 64 = .ok bs ∧
      (Decoder.receive { accepted := MessageType.envelope } [bs]).messages.map Message.ofDraft =
        [.request decoded] ∧
      ∀ loader : ClassLoader Unit,
        (decoded.unmarshal loader).1 = .error (.decode (.unknownVariant 9)) := by
  intro ctx
  let f : Filter Unit := { kind := .containsValue, operand := some (.ofBytes [9]) }
  let req : EnlistRequest Unit :=
    { op := some .upsert, filter := some f, pending := some [.entry (.int 1) (.int 2)] }
  let marshalled : EnlistRequest Unit :=
    { req with
      pending := none
      wire := some (.entries [.ofKey ctx (.int 1)] [.complete (.int 2)]) }
  have hf : (Message.filter f).Built := by
    have hshaped : f.Shaped := Filter.shaped_of_kind (.inr (.inr (.inl ⟨rfl, rfl⟩)))
    have hwithin : filterLayout.Within defaultMaxLength (WireForm.toRecord f) := by decide
    have hlegible : (Message.filter f).toDraft.Legible [.filter] defaultMaxLength :=
      ⟨List.mem_singleton_self _, hshaped.sound_toRecord, hwithin.mono (by decide), hwithin⟩
    exact Decoder.built_of_legible hlegible
  have hbuilt : (Message.request req).Built := by
    refine .request req rfl fun f' hf' => ?_
    obtain rfl := Option.some.inj hf'
    exact hf
  have hmarshal : req.marshal ctx = .ok marshalled := rfl
  have hshaped : req.Shaped := hbuilt.shaped
  have hfilled : marshalled.Filled := by
    refine ⟨rfl, fun wire hwire => ?_, fun f' o hf' ho => ?_⟩
    · obtain rfl := Option.some.inj hwire
      exact ⟨List.forall_mem_singleton.mpr rfl, List.forall_mem_singleton.mpr rfl⟩
    · obtain rfl := Option.some.inj hf'
      obtain rfl := Option.some.inj ho
      rfl
  have hwithin : requestLayout.Within defaultMaxLength (WireForm.toRecord marshalled) := by decide
  have haccepted : MessageType.request ∈ MessageType.envelope := by decide
  obtain ⟨bs, hbs, hdecode⟩ :=
    hfilled.received (hshaped.marshal hmarshal) (by decide) hwithin haccepted 64
  exact ⟨f, marshalled, marshalled.onWire, bs, hf, hbuilt, hmarshal, hbs,
    (hdecode [bs] List.flatten_singleton).1, fun loader => rfl⟩

end EnlistRequest

end Enlistment
