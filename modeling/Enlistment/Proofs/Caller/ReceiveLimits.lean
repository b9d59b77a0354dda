import Enlistment.Proofs.Caller.Network
import Enlistment.Proofs.Stream.Canonical
import Enlistment.Proofs.Stream.Responses

/-!
# Limits of what is received

Every length within a message is checked against the limit of the decoder that reads it. A node
reads its requests under the limit that is configured. A caller reads the responses under the
default limit instead, whatever is configured.
-/

namespace Enlistment

open Wire

variable {σ : Type}

/-! ## The first message of some octets -/

/-- Whether some octets begin with a message that keeps to a limit. -/
def Wire.Layout.Heads {R : Type} (layout : Layout R) (limit : Nat) (message : R)
    (bs : Bytes) : Prop :=
  layout.Within limit message ∧
    ∃ spelled rest, bs = spelled ++ rest ∧ layout.Spells limit message spelled

namespace Decoder

variable {accepted : List MessageType} {maxLength : Nat}

/-- A message that is found in the whole is found first in its pieces, if there was none to be
found before. -/
theorem firstOf_of_next {d : Decoder} {pieces : List Bytes} {draft : Draft}
    (hnone : d.next.1 = .ok none) (h : (d.feed pieces.flatten).next.1 = .ok (some draft)) :
    (d.firstOf pieces).1 = .ok (some draft) := by
  induction pieces generalizing d with
  | nil =>
    rw [List.flatten_nil, feed_nil, hnone] at h
    cases h
  | cons piece rest ih =>
    rw [List.flatten_cons, ← feed_append] at h
    have hfed := next_feed (d.feed piece) rest.flatten
    have hstill := next_feed (d.feed piece) []
    rw [feed_nil] at hstill
    unfold firstOf
    rcases hnext : (d.feed piece).next with ⟨e | _ | found, d'⟩ <;>
      simp only [hnext] at hfed hstill ⊢
    · generalize ((d.feed piece).feed rest.flatten).next = whole at h hfed
      cases hfed with
      | failure => cases h
    · generalize ((d.feed piece).feed rest.flatten).next = whole at h hfed
      cases hfed with
      | again result decoder =>
        have hagain : d'.next.1 = .ok none := by
          cases hstill with
          | again still _ => rw [← feed_nil d', ← still]
        exact ih hagain (result.symm.trans h)
    · generalize ((d.feed piece).feed rest.flatten).next = whole at h hfed
      cases hfed with
      | message draft' d'' => exact h

/-- Octets in which a message is found begin with this message, and it keeps to the limit. -/
theorem heads_of_firstOf {pieces : List Bytes} {draft : Draft} (hlimit : maxLength ≤ maxWireLength)
    (h : (({ accepted, maxLength } : Decoder).firstOf pieces).1 = .ok (some draft)) :
    draft.type.layout.Heads maxLength draft.record pieces.flatten := by
  have hnext := next_of_firstOf h
  rcases hr : (({ accepted, maxLength } : Decoder).feed pieces.flatten).next with ⟨result, d'⟩
  rw [hr] at hnext
  obtain rfl : result = .ok (some draft) := hnext
  obtain ⟨bs, hbs, hspells⟩ := next_spells ⟨rfl, rfl⟩ hr
  have hmin : min maxLength maxWireLength = maxLength := Nat.min_eq_left hlimit
  have hspelled : draft.type.layout.Spells maxLength draft.record bs := hmin ▸ hspells
  exact ⟨draft.type.layout.within_of_spells _ _ hspelled, bs, d'.pending, hbs, hspelled⟩

end Decoder

/-- A message is decoded from octets if it is the first one that is found in their pieces. -/
theorem decodeChunked_eq_ok {accepted : List MessageType} {bs : Bytes} {chunk : Nat}
    {draft : Draft} :
    decodeChunked accepted bs chunk = .ok draft ↔
      (({ accepted } : Decoder).firstOf (bs.pieces chunk)).1 = .ok (some draft) := by
  unfold decodeChunked
  rcases ({ accepted } : Decoder).firstOf (bs.pieces chunk) with ⟨_ | _ | found, d⟩ <;> simp

/-- What is found in the octets of a message in shape is this message, and it is found if and only
if it keeps to the limit. -/
theorem Message.Shaped.found_iff {m : Message σ} {bs : Bytes} {chunk maxLength : Nat}
    {accepted : List MessageType} (h : m.Shaped) (hencode : m.toDraft.encodeChunked chunk = .ok bs)
    (htype : m.toDraft.type ∈ accepted) (hlimit : maxLength ≤ maxWireLength) {pieces : List Bytes}
    (hpieces : pieces.flatten = bs) (draft : Draft) :
    (({ accepted, maxLength } : Decoder).firstOf pieces).1 = .ok (some draft) ↔
      draft = m.toDraft ∧ m.toDraft.type.layout.Within maxLength m.toDraft.record := by
  constructor
  · intro hfound
    obtain rfl := h.found_eq hencode htype hpieces hfound
    exact ⟨rfl, (Decoder.heads_of_firstOf hlimit hfound).1⟩
  · rintro ⟨rfl, hwithin⟩
    obtain ⟨hlegible, rfl⟩ := h.legible htype hencode hwithin
    have hnext := Decoder.next_encoding hlegible []
    rw [List.append_nil, ← hpieces] at hnext
    exact Decoder.firstOf_of_next rfl (congrArg Prod.fst hnext)

/-- What a caller decodes from the octets of a response is this response, and it is decoded if and
only if it keeps to the default limit. -/
theorem EnlistResponse.decodeChunked_iff {response : EnlistResponse} {chunk chunk' : Nat}
    {bytes : Bytes} (hencode : (Message.response (σ := σ) response).toDraft.encodeChunked chunk =
      .ok bytes) (draft : Draft) :
    decodeChunked [.response] bytes chunk' = .ok draft ↔
      draft = ⟨.response, WireForm.toRecord response⟩ ∧
        responseLayout.Within defaultMaxLength (WireForm.toRecord response) := by
  have hbuilt : (Message.response (σ := σ) response).Built :=
    .plain _ (fun f h => by cases h) fun r h => by cases h
  rw [decodeChunked_eq_ok]
  exact hbuilt.shaped.found_iff hencode (List.mem_singleton.mpr rfl) (by decide)
    (bytes.flatten_pieces chunk') draft

/-- A response for a cache that reports one skipped row. -/
def EnlistResponse.ofFailure (cacheId : Int32) (failure : RowFailure) : EnlistResponse :=
  { base := { cacheId }, rowFailures := some [failure] }

/-- A response that reports one skipped row keeps to a limit that is not zero if and only if the
reason does. -/
theorem EnlistResponse.within_ofFailure {limit : Nat} {cacheId : Int32} {failure : RowFailure} :
    responseLayout.Within limit (WireForm.toRecord (ofFailure cacheId failure)) ↔
      1 ≤ limit ∧ (Bytes.ofText failure.reason).length ≤ limit := by
  simp [ofFailure, WireForm.toRecord, responseLayout, topologyLayout, lockLayout, failureLayout,
    baseFields, MessageBase.toSlots, TextSlot.ofString, Layout.plain, Layout.Within,
    Fields.Within, Field.Within]

/-! ## Both ends -/

/-- A configuration that passes its check has a limit that the wire can express. -/
theorem EnlistConfig.maxArrayLength_le {config : EnlistConfig} (h : config.validate = .ok ()) :
    config.maxArrayLength ≤ maxWireLength := by
  by_contra hlong
  have hfault : config.maxArrayLength = 0 ∨ maxWireLength < config.maxArrayLength :=
    .inr (Nat.lt_of_not_le hlong)
  simp only [validate, if_pos hfault] at h
  repeat' split at h
  all_goals cases h

/-- A node decodes a request from octets if it is the first message that is found in their pieces
under the limit of the node. -/
theorem Node.decodeRequest_eq_ok {n : Node σ} {payload : Bytes} {req : EnlistRequest σ} :
    n.decodeRequest payload = .ok req ↔ ∃ record,
      (({ accepted := [.request], maxLength := n.config.maxArrayLength } : Decoder).firstOf
        (payload.pieces n.config.chunkSize)).1 = .ok (some ⟨.request, record⟩) ∧
        WireForm.ofRecord record = req := by
  constructor
  · intro hread
    simp only [decodeRequest] at hread
    split at hread
    · cases hread
    · next record hfound => exact ⟨record, hfound, Except.ok.inj hread⟩
    · cases hread
  · rintro ⟨record, hfound, rfl⟩
    simp only [decodeRequest, hfound]

/-- A request that keeps to a limit declares no more keys than that. -/
theorem EnlistRequest.length_declaredKeys_le {limit : Nat} {record : RequestRecord}
    (h : requestLayout.Within limit record) :
    (WireForm.ofRecord record : EnlistRequest σ).declaredKeys.length ≤ limit := by
  obtain ⟨flags, deployment, affinity, messageId, cacheId, clientFirst, filter, future, keepBinary,
    keys, lock, mini, snapshot, needResult, op, taskHash, threadId, timeout, topology, txTimeout,
    values, ⟨⟩⟩ := record
  have hkeys : ∀ items, keys.settled = some items → items.length ≤ limit := by
    simp only [requestLayout, baseFields, Layout.Within, Fields.Within, Field.Within] at h
    obtain ⟨-, -, -, -, -, -, -, -, hkeys, -⟩ := h
    exact fun items hitems => (hkeys items hitems).1
  cases hsettled : keys.settled with
  | none =>
    simp only [WireForm.ofRecord, declaredKeys, WireRows.ofSlots, hsettled]
    exact Nat.zero_le _
  | some items =>
    have hlength := hkeys items hsettled
    simp only [WireForm.ofRecord, declaredKeys, WireRows.ofSlots, hsettled, Option.map_some]
    split <;> simpa [WireRows.keys] using hlength

/-- The rows that a node rebuilds from octets are no more than its limit. -/
theorem Node.length_rows_le {n : Node σ} (hlimit : n.config.maxArrayLength ≤ maxWireLength)
    {payload : Bytes} {req req' : EnlistRequest σ} (hread : n.decodeRequest payload = .ok req)
    (hreq : req.unmarshal n.loader = (.ok (), req')) :
    req'.takeRows.1.length ≤ n.config.maxArrayLength := by
  obtain ⟨record, hfound, rfl⟩ := decodeRequest_eq_ok.mp hread
  have hwithin := (Decoder.heads_of_firstOf hlimit hfound).1
  exact Nat.le_trans (EnlistRequest.unmarshal_length_le hreq)
    (EnlistRequest.length_declaredKeys_le hwithin)

/-- What a node decodes from the octets of a request is this request, and it is decoded if and only
if it keeps to the limit of the node. -/
theorem Node.decodeRequest_iff {n : Node σ} (hlimit : n.config.maxArrayLength ≤ maxWireLength)
    {request : EnlistRequest σ} (hbuilt : (Message.request request).Built) {chunk : Nat}
    {bytes : Bytes} (hencode : (Message.request request).toDraft.encodeChunked chunk = .ok bytes)
    (req : EnlistRequest σ) :
    n.decodeRequest bytes = .ok req ↔ req = request.onWire ∧
      requestLayout.Within n.config.maxArrayLength (WireForm.toRecord request) := by
  have hfound := hbuilt.shaped.found_iff hencode (List.mem_singleton.mpr rfl) hlimit
    (bytes.flatten_pieces n.config.chunkSize)
  rw [decodeRequest_eq_ok]
  constructor
  · rintro ⟨record, hrecord, rfl⟩
    obtain ⟨hdraft, hwithin⟩ := (hfound _).mp hrecord
    cases hdraft
    exact ⟨request.ofRecord_toRecord, hwithin⟩
  · rintro ⟨rfl, hwithin⟩
    exact ⟨_, (hfound _).mpr ⟨rfl, hwithin⟩, request.ofRecord_toRecord⟩

/-- A node refuses a payload, or the payload begins with a request that keeps to the limit of the
node, and the node handles this request. -/
theorem Node.handleBytes_heads [HasTopology σ] {n : Node σ}
    (hlimit : n.config.maxArrayLength ≤ maxWireLength) (payload : Bytes) (state : σ) :
    (∃ err, n.handleBytes payload state = (.error err, n, state)) ∨
      ∃ record, requestLayout.Heads n.config.maxArrayLength record payload ∧
        n.handleBytes payload state =
          let r := n.handleRequest (WireForm.ofRecord record) state
          (n.encodeResponse r.1, r.2) := by
  unfold handleBytes
  cases hread : n.decodeRequest payload with
  | error err => exact .inl ⟨err, rfl⟩
  | ok req =>
    obtain ⟨record, hfound, rfl⟩ := decodeRequest_eq_ok.mp hread
    have hheads := Decoder.heads_of_firstOf hlimit hfound
    rw [Bytes.flatten_pieces] at hheads
    exact .inr ⟨record, hheads, rfl⟩

/-- A caller fails a request by its reply, or the reply begins with a response that keeps to the
default limit, and the caller accepts this response with its values rebuilt. -/
theorem Enlister.settle_heads (e : Enlister σ) (bytes : Bytes) (key : RequestKey)
    (limitMs : Nat) :
    (∃ err, e.settle key limitMs (.replied bytes) =
      { e with registry := (e.registry.onFailure key err).2 }) ∨
      ∃ record response, responseLayout.Heads defaultMaxLength record bytes ∧
        EnlistResponse.unmarshal e.context.keepBinary e.loader.hasClass
          (WireForm.ofRecord record) = (.ok (), response) ∧
        e.settle key limitMs (.replied bytes) =
          { e with registry := accept e.registry key response } := by
  cases hread : e.readReply bytes with
  | error err => exact .inl ⟨err, by simp only [settle, hread]⟩
  | ok response =>
    have hsettle : e.settle key limitMs (.replied bytes) =
        { e with registry := accept e.registry key response } := by
      simp only [settle, hread]
    unfold readReply at hread
    split at hread
    · cases hread
    · next record hdecode =>
      have hheads := Decoder.heads_of_firstOf (by decide) (decodeChunked_eq_ok.mp hdecode)
      rw [Bytes.flatten_pieces] at hheads
      split at hread
      · cases hread
      · next found hunmarshal =>
        obtain rfl := Except.ok.inj hread
        exact .inr ⟨record, found, hheads, hunmarshal, hsettle⟩
    · cases hread

namespace EnlistConfig

/-- The array limit of a configuration that passes its check binds the node that uses it: what
the node handles keeps to it, and from the octets of a request the node decodes this request if it
keeps to the limit, and nothing otherwise. In the same way a caller is bound by the default limit,
whatever is configured. -/
theorem array_limit_of_ends [HasTopology σ] {n : Node σ} (hvalid : n.config.validate = .ok ())
    (e : Enlister σ) :
    (∀ payload state,
      (∃ err, n.handleBytes payload state = (.error err, n, state)) ∨
        ∃ record, requestLayout.Heads n.config.maxArrayLength record payload ∧
          n.handleBytes payload state =
            let r := n.handleRequest (WireForm.ofRecord record) state
            (n.encodeResponse r.1, r.2)) ∧
    (∀ (request : EnlistRequest σ) chunk bytes, (Message.request request).Built →
      (Message.request request).toDraft.encodeChunked chunk = .ok bytes →
      ∀ req, n.decodeRequest bytes = .ok req ↔ req = request.onWire ∧
        requestLayout.Within n.config.maxArrayLength (WireForm.toRecord request)) ∧
    (∀ bytes key limitMs,
      (∃ err, e.settle key limitMs (.replied bytes) =
        { e with registry := (e.registry.onFailure key err).2 }) ∨
        ∃ record response, responseLayout.Heads defaultMaxLength record bytes ∧
          EnlistResponse.unmarshal e.context.keepBinary e.loader.hasClass
            (WireForm.ofRecord record) = (.ok (), response) ∧
          e.settle key limitMs (.replied bytes) =
            { e with registry := Enlister.accept e.registry key response }) ∧
    ∀ response chunk bytes,
      (Message.response (σ := σ) response).toDraft.encodeChunked chunk = .ok bytes →
      ∀ draft, decodeChunked [.response] bytes e.config.chunkSize = .ok draft ↔
        draft = ⟨.response, WireForm.toRecord response⟩ ∧
          responseLayout.Within defaultMaxLength (WireForm.toRecord response) := by
  have hlimit := maxArrayLength_le hvalid
  exact ⟨fun payload state => n.handleBytes_heads hlimit payload state,
    fun _ _ _ hbuilt hencode req => Node.decodeRequest_iff hlimit hbuilt hencode req,
    fun bytes key limitMs => e.settle_heads bytes key limitMs,
    fun response _ _ hencode draft => response.decodeChunked_iff hencode draft⟩

/-- A response with a reason of twenty octets is decoded by a caller whose limit is eight. -/
theorem array_limit_of_eight :
    let config : EnlistConfig := { maxArrayLength := 8 }
    let loader : ClassLoader TopologyView := .ofRegistrations [] [] []
    let n : Node TopologyView := { id := 1, config, loader, context := .ofCache 1 1024 }
    let e : Enlister TopologyView := { id := 3, config, loader, context := .ofCache 1 1024 }
    let response : EnlistResponse := .ofFailure 1 ⟨1, "entry already exists"⟩
    n.config.validate = .ok () ∧
      ¬ responseLayout.Within config.maxArrayLength (WireForm.toRecord response) ∧
      ∃ bytes, (Message.response (σ := TopologyView) response).toDraft.encodeChunked 20 =
          .ok bytes ∧
        decodeChunked [.response] bytes e.config.chunkSize =
          .ok ⟨.response, WireForm.toRecord response⟩ := by
  intro config loader n e response
  have hvalid : n.config.validate = .ok () := rfl
  have hlength : (Bytes.ofText "entry already exists").length = 20 := by decide
  have hwithin : responseLayout.Within defaultMaxLength (WireForm.toRecord response) :=
    EnlistResponse.within_ofFailure.mpr ⟨by decide, hlength ▸ by decide⟩
  have hbeyond : ¬ responseLayout.Within config.maxArrayLength (WireForm.toRecord response) := by
    intro h
    have hreason := (EnlistResponse.within_ofFailure.mp h).2
    rw [hlength] at hreason
    exact absurd hreason (by decide)
  have hfilled : response.Filled := nofun
  have hwritable := (hfilled.legible (σ := TopologyView) (List.mem_singleton.mpr rfl) (by decide)
    hwithin).1
  have hencode := hwritable.encodeChunked_eq 20
  obtain ⟨-, -, -, hdecode⟩ := array_limit_of_ends hvalid e
  exact ⟨hvalid, hbeyond, _, hencode, (hdecode response _ _ hencode _).mpr ⟨rfl, hwithin⟩⟩

/-- The limit is eight at both ends. A row is inserted twice in one batch, and the call accepts
the reason for which the second one is skipped, a text of twenty octets. -/
theorem long_reason_accepted :
    let config : EnlistConfig := { partitions := 16, maxArrayLength := 8 }
    let view := TopologyView.ofNodes [1] 16
    let loader : ClassLoader TopologyView := .ofRegistrations [] [] []
    let node : Node TopologyView := { id := 1, config, loader, context := .ofCache 1 16 }
    let e : Enlister TopologyView := { id := 3, config, loader, context := .ofCache 1 16 }
    let rows := [Row.entry (.int 1) (.text "a"), Row.entry (.int 1) (.text "b")]
    let reason := "entry already exists"
    let s := (Network.start e [node] view ⟨7⟩ { lock := ⟨1, 1, 100⟩ } .insert rows {} 0).run
      [.event 0 (.map view.readings), .event 0 (.send 0), .arrive 0 0, .answer 1 0, .event 1 (.collect 0),
        .event 1 .close, .event 1 (.map view.readings)]
    config.validate = .ok () ∧ config.maxArrayLength < (Bytes.ofText reason).length ∧
      s.call.phase.result? = some { updated := 1, failures := [⟨1, reason⟩] } := by
  decide +kernel

end EnlistConfig

end Enlistment
