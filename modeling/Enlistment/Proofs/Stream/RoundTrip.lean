import Enlistment.Proofs.Message.Records
import Enlistment.Proofs.Message.Views
import Enlistment.Proofs.Stream.Building
import Enlistment.Proofs.Stream.Sending
import Enlistment.Proofs.Wire.RoundTrip

/-!
# Receiving what was sent

Messages that are encoded one behind the other come out of a decoder as they went on the
wire, in order and with nothing left over, however the stream was cut. A part of an
encoding comes to nothing but a call for more.
-/

namespace Enlistment

open Wire

variable {σ : Type}

/-- The octets of a message written in parts are those left to write at the start. -/
theorem Encoder.encodeParts_owes {d : Draft} {room : Nat} (calls : Nat) {e : Encoder}
    {bs : Bytes} (h : encodeParts d room calls e = .ok bs) : Owes d.write e.stack bs := by
  induction calls generalizing e bs with
  | zero => cases h
  | succ calls ih =>
    have hbefore : ∀ rest, (d.write ⟨e.stack, room⟩).progress = .incomplete →
        Owes d.write (d.write ⟨e.stack, room⟩).sink.stack rest →
        Owes d.write e.stack ((d.write ⟨e.stack, room⟩).emitted ++ rest) :=
      fun rest hshort howes => howes.before (d.type.layout.continuable d.record) hshort
    simp only [encodeParts, encode] at h
    rcases hw : d.write ⟨e.stack, room⟩ with ⟨_ | _ | error, emitted, sink⟩ <;>
      rw [hw] at hbefore <;> simp only [hw] at h
    · obtain rfl := Except.ok.inj h
      exact ⟨room, by rw [hw], by rw [hw]⟩
    · cases emitted with
      | nil => cases h
      | cons b emitted =>
        cases hrest : encodeParts d room calls ⟨sink.stack⟩ with
        | error error => simp [hrest, Except.map] at h
        | ok rest =>
          simp only [Progress.isAdvance_incomplete, Bool.false_eq_true, if_false, hrest, Except.map,
            Except.ok.injEq] at h
          rw [← h]
          exact hbefore rest rfl (ih hrest)
    · cases h

/-- A buffer that is long enough takes a message that can be written as a whole. -/
theorem Draft.Accepted.encodeChunked {d : Draft} (h : d.Accepted) {chunk : Nat}
    (hchunk : d.encode.length ≤ chunk) : d.encodeChunked chunk = .ok d.encode := by
  have hroom : d.encode.length ≤ max chunk minBufferLength :=
    Nat.le_trans hchunk (Nat.le_max_left _ _)
  obtain ⟨hadvance, hemitted⟩ : (d.write ⟨{}, max chunk minBufferLength⟩).progress = .advance ∧
      (d.write ⟨{}, max chunk minBufferLength⟩).emitted = d.encode :=
    h.owes.of_le (d.type.layout.continuable d.record) hroom
  rcases hw : d.write ⟨{}, max chunk minBufferLength⟩ with ⟨progress, emitted, sink⟩
  rw [hw] at hadvance hemitted
  obtain rfl : progress = .advance := hadvance
  obtain rfl : emitted = d.encode := hemitted
  simp only [Draft.encodeChunked, encodeThrough, Encoder.encodeParts, Encoder.encode, hw]

/-- A message that a decoder of some types and some limit can read from its encoding. -/
structure Draft.Legible (accepted : List MessageType) (maxLength : Nat) (d : Draft) : Prop where
  type_mem : d.type ∈ accepted
  sound : d.type.layout.Sound d.record
  fits : d.type.layout.Within maxWireLength d.record
  within : d.type.layout.Within maxLength d.record

/-- A message that has been encoded was ready to be written, keeps to the limit of the wire and
has one encoding. -/
theorem Draft.encoded {d : Draft} {chunk : Nat} {bs : Bytes}
    (h : d.encodeChunked chunk = .ok bs) :
    d.type.layout.ready d.record = true ∧ d.type.layout.Within maxWireLength d.record ∧
      bs = d.encode := by
  obtain ⟨room, hadvance, hemitted⟩ := Encoder.encodeParts_owes _ h
  obtain ⟨hbs, hfits, -⟩ := d.type.layout.emits d.record ⟨{}, room⟩ .empty hadvance
  exact ⟨d.type.layout.ready_of_write hadvance, hfits, hemitted.symm.trans hbs⟩

/-- A message in shape that has been encoded is legible, and has one encoding. -/
theorem Message.Shaped.legible {accepted : List MessageType} {maxLength chunk : Nat}
    {m : Message σ} {bs : Bytes} (h : m.Shaped) (htype : m.toDraft.type ∈ accepted)
    (hencode : m.toDraft.encodeChunked chunk = .ok bs)
    (hwithin : m.toDraft.type.layout.Within maxLength m.toDraft.record) :
    m.toDraft.Legible accepted maxLength ∧ bs = m.toDraft.encode := by
  obtain ⟨hready, hfits, hbs⟩ := Draft.encoded hencode
  exact ⟨⟨htype, h.sound_toDraft hready, hfits, hwithin⟩, hbs⟩

namespace Decoder

variable {accepted : List MessageType} {maxLength : Nat}

/-- A decoder that stands before a message whose type it accepts starts on it. -/
theorem start_announced {t : MessageType} (htype : t ∈ accepted) {bs : Bytes}
    (h : Announces t.layout.create t.layout.blank bs) (more : Bytes) :
    ({ accepted, maxLength, pending := bs ++ more } : Decoder).start = .ok (some (.blank t)) := by
  obtain ⟨hlong, -, hcreate⟩ := h.take_two more
  have hcode : uint16Of ((bs ++ more).take 2) = t.layout.type := by
    unfold Layout.create at hcreate
    split at hcreate
    · next hcode => exact hcode
    · cases hcreate
  simp only [start, if_neg hlong, hcode, MessageType.ofCode?_type htype]

/-- A decoder that stands before the fields of a message reads them and settles the message. -/
theorem next_formed {t : MessageType} (htype : t ∈ accepted) {record : t.Rec} {bs : Bytes}
    (h : t.layout.Formed (min maxLength maxWireLength) record bs) (more : Bytes) :
    ∃ s, ({ accepted, maxLength, pending := bs ++ more } : Decoder).next =
      ({ accepted, maxLength, pending := bs ++ more } : Decoder).after
        ⟨.ofCheck (t.layout.settle record).1, ⟨t, (t.layout.settle record).2⟩, ⟨s, more⟩⟩ := by
  have hlawful := t.layout_lawful
  have hstart : ({ accepted, maxLength, pending := bs ++ more } : Decoder).start =
      .ok (some (.blank t)) := start_announced htype (h.announces hlawful) more
  obtain ⟨s, hread⟩ := h.read hlawful .empty more
  refine ⟨s, ?_⟩
  rw [next_of_start hstart]
  simp only [Draft.read, Draft.blank, hread, Reading.map]

/-- A decoder that stands before what spells a message gives it and stands behind it. -/
theorem next_spelled {d : Draft} (htype : d.type ∈ accepted) {bs : Bytes}
    (h : d.type.layout.Spells (min maxLength maxWireLength) d.record bs) (more : Bytes) :
    ({ accepted, maxLength, pending := bs ++ more } : Decoder).next =
      (.ok (some d), { accepted, maxLength, pending := more }) := by
  obtain ⟨arrived, hformed, hsettle⟩ := h.formed
  obtain ⟨s, hnext⟩ := next_formed htype hformed more
  rw [hsettle] at hnext
  exact hnext

/-- A decoder that stands before an encoding gives its message and stands behind it. -/
theorem next_encoding {d : Draft} (h : d.Legible accepted maxLength) (more : Bytes) :
    ({ accepted, maxLength, pending := d.encode ++ more } : Decoder).next =
      (.ok (some d), { accepted, maxLength, pending := more }) := by
  have hwithin : d.type.layout.Within (min maxLength maxWireLength) d.record := by
    rw [Nat.min_def]
    split
    · exact h.within
    · exact h.fits
  exact next_spelled h.type_mem
    (d.type.layout.spells_encode d.type.layout_handsOver _ h.sound hwithin) more

/-- Every message that can be read is one that can come about. -/
theorem built_of_legible {d : Draft} (h : d.Legible accepted maxLength) :
    (Message.ofDraft d : Message σ).Built := by
  have hnext := next_encoding h []
  rw [List.append_nil] at hnext
  exact .decoded (.feed d.encode .fresh) hnext

/-- A decoder that stands before encodings gives their messages in order. -/
theorem drains_encodings {ds : List Draft} (h : ∀ d ∈ ds, d.Legible accepted maxLength) :
    Drains { accepted, maxLength, pending := ds.flatMap Draft.encode } ds (.ok ())
      { accepted, maxLength } := by
  induction ds with
  | nil => exact .dry rfl
  | cons d ds ih =>
    obtain ⟨hd, hds⟩ := List.forall_mem_cons.mp h
    exact .message (next_encoding hd _) (ih hds)

/-- A message that is fed in any pieces is received as it was sent, with nothing left over. -/
theorem receive_encoding {d : Draft} (h : d.Legible accepted maxLength) {pieces : List Bytes}
    (hpieces : pieces.flatten = d.encode) :
    receive { accepted, maxLength } pieces = ⟨[d], .ok (), { accepted, maxLength }⟩ := by
  have hdrains := drains_encodings (List.forall_mem_singleton.mpr h)
  rw [List.flatMap_singleton, ← hpieces] at hdrains
  exact receive_of_drains hdrains

/-- Part of an encoding is not enough for a message, and no reason for a failure. -/
theorem next_part {d : Draft} (h : d.Legible accepted maxLength) {bs more : Bytes}
    (hmore : more ≠ []) (hbs : bs ++ more = d.encode) :
    ∃ d', ({ accepted, maxLength, pending := bs } : Decoder).next = (.ok none, d') := by
  have hfed := next_feed { accepted, maxLength, pending := bs } more
  have hall := next_encoding h []
  rw [List.append_nil, ← hbs] at hall
  rw [show ({ accepted, maxLength, pending := bs } : Decoder).feed more =
    { accepted, maxLength, pending := bs ++ more } from rfl, hall] at hfed
  generalize ({ accepted, maxLength, pending := bs } : Decoder).next = part at hfed ⊢
  generalize hwhole : ((.ok (some d), { accepted, maxLength, pending := [] }) :
    Except CodecError (Option Draft) × Decoder) = whole at hfed
  cases hfed with
  | message found d' =>
    -- a message found in a part would leave the rest of the encoding over
    have hpending : [] = d'.pending ++ more := congrArg (fun r => r.2.pending) hwhole
    exact absurd (List.append_eq_nil_iff.mp hpending.symm).2 hmore
  | failure e d' d'' => cases hwhole
  | again result decoder => exact ⟨_, rfl⟩

/-- Messages that came about, encoded one behind the other, come back as they went on the
wire. Let `sent` be such messages with their encodings, all of accepted types and with all
lengths within the limit. Fed in any pieces, the encodings give exactly these messages in
order, without a failure and with nothing left over. And a proper part of one encoding, fed
in any pieces, gives neither a message nor a failure. -/
theorem receive_encodings (sent : List (Message σ × Bytes)) (hbuilt : ∀ p ∈ sent, p.1.Built)
    (htype : ∀ p ∈ sent, p.1.toDraft.type ∈ accepted)
    (hencode : ∀ p ∈ sent, ∃ chunk, p.1.toDraft.encodeChunked chunk = .ok p.2)
    (hwithin : ∀ p ∈ sent, p.1.toDraft.type.layout.Within maxLength p.1.toDraft.record) :
    (∀ pieces : List Bytes, pieces.flatten = sent.flatMap Prod.snd →
      let received := receive { accepted, maxLength } pieces
      received.messages.map Message.ofDraft = sent.map (fun p => p.1.onWire) ∧
        received.outcome = .ok () ∧ received.decoder.pending = []) ∧
    ∀ p ∈ sent, ∀ (pieces : List Bytes) (more : Bytes), more ≠ [] →
      pieces.flatten ++ more = p.2 →
      let received := receive { accepted, maxLength } pieces
      received.messages = [] ∧ received.outcome = .ok () := by
  have hlegible : ∀ p ∈ sent,
      p.1.toDraft.Legible accepted maxLength ∧ p.2 = p.1.toDraft.encode := by
    intro p hp
    obtain ⟨chunk, hchunk⟩ := hencode p hp
    exact (hbuilt p hp).shaped.legible (htype p hp) hchunk (hwithin p hp)
  have hfirst : Drains { accepted, maxLength } [] (.ok ()) { accepted, maxLength } := .dry rfl
  constructor
  · intro pieces hpieces received
    let drafts := sent.map fun p => p.1.toDraft
    have hdrafts : ∀ d ∈ drafts, d.Legible accepted maxLength := by
      intro d hd
      obtain ⟨p, hp, rfl⟩ := List.mem_map.mp hd
      exact (hlegible p hp).1
    have hoctets : pieces.flatten = drafts.flatMap Draft.encode := by
      rw [hpieces, List.flatMap_map, List.flatMap_def, List.flatMap_def]
      exact congrArg List.flatten (List.map_congr_left fun p hp => (hlegible p hp).2)
    obtain ⟨last, hlast, heq⟩ := receive_drains pieces hfirst
    have hall := drains_encodings hdrafts
    rw [← hoctets] at hall
    obtain ⟨hmessages, houtcome, rfl⟩ := hlast.unique hall
    have hmessages' : received.messages = drafts := hmessages
    refine ⟨?_, houtcome, ?_⟩
    · rw [hmessages', List.map_map]
      exact List.map_congr_left fun p _ => p.1.ofDraft_toDraft
    · rw [← heq houtcome]
  · intro p hp pieces more hmore hpieces received
    obtain ⟨hd, hencoding⟩ := hlegible p hp
    obtain ⟨d', hnext⟩ := next_part hd hmore (hpieces.trans hencoding)
    obtain ⟨last, hlast, -⟩ := receive_drains pieces hfirst
    obtain ⟨hmessages, houtcome, -⟩ := hlast.unique (.dry hnext)
    exact ⟨hmessages, houtcome⟩

/-- A marshalled request to lock no rows and the response to it, cut within the header of the
request, and the first 40 octets of the request alone. -/
theorem receive_request_and_response :
    let request : EnlistRequest Unit :=
      { futureId := ⟨7⟩, mini := 1, op := some .lock, filter := some (.custom "Odd")
        wire := some (.keysOnly []) }
    let response : EnlistResponse :=
      { futureId := ⟨7⟩, mini := 1, result := some [], rowFailures := some [⟨0, "locked"⟩] }
    let octets := (Message.request request).toDraft.encode ++ (Message.response (σ := Unit)
      response).toDraft.encode
    let received := receive { accepted := MessageType.envelope, maxLength := 64 }
      [octets.take 3, octets.drop 3]
    let part := receive { accepted := MessageType.envelope, maxLength := 64 }
      [(Message.request request).toDraft.encode.take 40]
    (received.messages.map Message.ofDraft = [.request request, .response response] ∧
        received.outcome = .ok () ∧ received.decoder.pending = []) ∧
      part.messages = [] ∧ part.outcome = .ok () := by
  intro request response octets received part
  let sent : List (Message Unit × Bytes) :=
    [(.request request, (Message.request request).toDraft.encode),
      (.response response, (Message.response (σ := Unit) response).toDraft.encode)]
  let pending : EnlistRequest Unit := { request with pending := some [], wire := none }
  have hfilter : ∀ f, pending.filter = some f → (Message.filter f).Built := by
    intro f hf
    obtain rfl := Option.some.inj hf
    exact .custom "Odd"
  have hmarshal : (Message.request pending).marshal (.ofCache 5 8) = .ok (.request request) := rfl
  have hrequest : (Message.request request).Built :=
    (Message.Built.request pending rfl hfilter).marshal hmarshal
  have hresponse : (Message.response response : Message Unit).Built :=
    .plain _ (fun f h => by cases h) fun r h => by cases h
  have hbuilt : ∀ p ∈ sent, p.1.Built :=
    List.forall_mem_cons.mpr ⟨hrequest, List.forall_mem_singleton.mpr hresponse⟩
  have htype : ∀ p ∈ sent, p.1.toDraft.type ∈ MessageType.envelope :=
    List.forall_mem_cons.mpr ⟨by decide, List.forall_mem_singleton.mpr (by decide)⟩
  have hacceptedRequest : (Message.request request).toDraft.Accepted := ⟨200, by decide +kernel⟩
  have hacceptedResponse : (Message.response (σ := Unit) response).toDraft.Accepted :=
    ⟨200, by decide +kernel⟩
  have hencode : ∀ p ∈ sent, ∃ chunk, p.1.toDraft.encodeChunked chunk = .ok p.2 :=
    List.forall_mem_cons.mpr ⟨⟨_, hacceptedRequest.encodeChunked (Nat.le_refl _)⟩,
      List.forall_mem_singleton.mpr ⟨_, hacceptedResponse.encodeChunked (Nat.le_refl _)⟩⟩
  have hwithin : ∀ p ∈ sent, p.1.toDraft.type.layout.Within 64 p.1.toDraft.record := by
    decide
  obtain ⟨hall, hpart⟩ := receive_encodings sent hbuilt htype hencode hwithin
  have hwhole : [octets.take 3, octets.drop 3].flatten = sent.flatMap Prod.snd := by
    simp [sent, octets, List.take_append_drop]
  have hmore : (Message.request request).toDraft.encode.drop 40 ≠ [] := by decide +kernel
  exact ⟨hall _ hwhole, hpart _ (List.mem_cons_self ..) _ _ hmore (by simp)⟩

end Decoder

end Enlistment
