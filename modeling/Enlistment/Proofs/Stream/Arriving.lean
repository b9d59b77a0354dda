import Enlistment.Proofs.Stream.Delivery
import Enlistment.Proofs.Stream.Requests

/-!
# Requests that arrive

Whoever looks for a request in the octets of one finds it as it went on the wire, through whatever
buffers it was written and in whatever pieces it comes.
-/

namespace Enlistment

open Wire

variable {σ : Type}

namespace EnlistRequest

/-- What a receiver finds first in the octets of a request, through whatever buffers they were
written and in whatever pieces they come. -/
inductive ArrivesAs (sent : EnlistRequest σ) : EnlistRequest σ → Prop
  | read {chunk maxLength : Nat} {bs : Bytes} {pieces : List Bytes} {accepted : List MessageType}
      {draft : Draft} {decoded : EnlistRequest σ}
      (hencode : (Message.request sent).toDraft.encodeChunked chunk = .ok bs)
      (hpieces : pieces.flatten = bs) (htype : MessageType.request ∈ accepted)
      (hfound : (({ accepted, maxLength } : Decoder).firstOf pieces).1 = .ok (some draft))
      (hdecoded : Message.ofDraft draft = .request decoded) : ArrivesAs sent decoded

variable {ctx : MarshalContext} {req sent decoded : EnlistRequest σ}

/-- A request in shape arrives as it goes on the wire, and keeps to the limit of the wire. -/
theorem ArrivesAs.eq_onWire (h : sent.ArrivesAs decoded) (hshaped : sent.Shaped) :
    decoded = sent.onWire ∧ requestLayout.Within maxWireLength (WireForm.toRecord sent) := by
  obtain ⟨hencode, hpieces, htype, hfound, hdecoded⟩ := h
  have hmessage : (Message.request sent).Shaped := hshaped
  obtain rfl := hmessage.found_eq hencode htype hpieces hfound
  rw [Message.ofDraft_toDraft] at hdecoded
  exact ⟨(Message.request.inj hdecoded).symm, (Draft.encoded hencode).2.1⟩

/-- What arrives is a request that can come about. -/
theorem ArrivesAs.built (h : sent.ArrivesAs decoded) : (Message.request decoded).Built := by
  obtain ⟨-, -, -, hfound, hdecoded⟩ := h
  rw [← hdecoded]
  exact .decoded (.feed _ .fresh) (Prod.ext (Decoder.next_of_firstOf hfound) rfl)

/-- A request in shape that is in wire form arrives if it keeps to the limit of the wire. -/
theorem Filled.arrives (h : sent.Filled) (hshaped : sent.Shaped)
    (hwithin : requestLayout.Within maxWireLength (WireForm.toRecord sent)) :
    sent.ArrivesAs sent.onWire := by
  have htype : MessageType.request ∈ MessageType.envelope := List.mem_cons_self
  obtain ⟨hwritable, hlegible⟩ := h.legible hshaped (Nat.le_refl _) hwithin htype
  have hnext := Decoder.next_encoding hlegible []
  rw [List.append_nil] at hnext
  have hfound : (({ accepted := MessageType.envelope, maxLength := maxWireLength } :
      Decoder).firstOf [(Message.request sent).toDraft.encode]).1 =
        .ok (some (Message.request sent).toDraft) := by
    simp only [Decoder.firstOf, Decoder.feed, List.nil_append, hnext]
  exact .read (hwritable.encodeChunked_eq 64) List.flatten_singleton htype hfound
    (Message.ofDraft_toDraft _)

/-- A request whose rows are not in wire form arrives once it is marshalled, if its filter is whole
and it keeps to the limit of the wire. -/
theorem arrives_of_marshal (hbuilt : (Message.request req).Built) (hwire : req.wire = none)
    (hwhole : ∀ f, req.filter = some f → f.Whole) (hmarshal : req.marshal ctx = .ok sent)
    (hwithin : requestLayout.Within maxWireLength (WireForm.toRecord sent)) :
    sent.ArrivesAs sent.onWire := by
  have hshaped : req.Shaped := hbuilt.shaped
  exact (filled_of_marshal hwire hmarshal hwhole).arrives (hshaped.marshal hmarshal) hwithin

/-- A request that is written alike arrives alike. -/
theorem ArrivesAs.of_same_draft {other : EnlistRequest σ} (h : sent.ArrivesAs decoded)
    (hsame : (Message.request other).toDraft = (Message.request sent).toDraft) :
    other.ArrivesAs decoded := by
  obtain ⟨hencode, hpieces, htype, hfound, hdecoded⟩ := h
  exact .read (hsame ▸ hencode) hpieces htype hfound hdecoded

/-- An upsert of one entry keeps to the limit of the wire if the entry does. -/
theorem within_upsert (settings : MarshalContext) {key v : Value}
    (hkey : key.encode.length ≤ maxWireLength) (hv : v.encode.length ≤ maxWireLength) :
    requestLayout.Within maxWireLength (WireForm.toRecord
      ({ op := some .upsert
         wire := some (.entries [.ofKey settings key] [.complete v]) } : EnlistRequest σ)) := by
  have hone : 1 ≤ maxWireLength := by decide
  simp [WireForm.toRecord, requestLayout, topologyLayout, lockLayout, keyLayout, valueLayout,
    baseFields, MessageBase.toSlots, WireRows.toSlots, WireRows.keys, KeyObject.ofKey,
    ValueObject.complete, Layout.plain, Layout.Within, Fields.Within, Field.Within, hkey, hv, hone]

end EnlistRequest

end Enlistment
