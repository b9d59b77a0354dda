import Enlistment.Proofs.Wire.Emission
import Enlistment.Proofs.Wire.MessageContinuation
import Enlistment.Stream.Encoder

/-!
# Sending through buffers of any size

A message is written into one buffer after the other, each of whatever size. What has
been emitted is at every moment a part of one encoding, which does not depend on the
sizes, and the call that completes it is the one that says so.
-/

namespace Enlistment

open Wire

namespace Draft

/-- A message that can be written: some buffer takes the whole of it. -/
def Accepted (d : Draft) : Prop := ∃ room, (d.write ⟨{}, room⟩).progress = .advance

/-- Writes a message into buffers of the given sizes, one call for each, and gives all octets
emitted and the frames of the writer. -/
def writeThrough (d : Draft) : FrameStack → List Nat → Bytes × FrameStack
  | s, [] => ([], s)
  | s, room :: rooms =>
    let w := d.write ⟨s, room⟩
    let r := d.writeThrough w.sink.stack rooms
    (w.emitted ++ r.1, r.2)

/-- A writer at the start of an accepted message has its encoding left to write. -/
theorem Accepted.owes {d : Draft} (h : d.Accepted) : Owes d.write {} d.encode := by
  obtain ⟨room, hadvance⟩ := h
  exact ⟨room, hadvance, (d.type.layout.emits d.record ⟨{}, room⟩ .empty hadvance).1⟩

/-- A call emits the first part of what is left of a message, and says that the message is
complete if nothing is left after it. -/
theorem owes_step {d : Draft} {s : FrameStack} {rest : Bytes} (h : Owes d.write s rest)
    (room : Nat) :
    let w := d.write ⟨s, room⟩
    ∃ rest', w.emitted ++ rest' = rest ∧ Owes d.write w.sink.stack rest' ∧
      (w.progress = .advance ↔ rest' = []) ∧ ∀ e, w.progress ≠ .failed e := by
  intro w
  rcases h.step (d.type.layout.continuable d.record) room with
    ⟨hadvance, hemitted⟩ | ⟨hshort, rest', hrest, hne, howes⟩
  · refine ⟨[], by rw [List.append_nil]; exact hemitted, d.type.layout.owes_nil hadvance, ?_, ?_⟩
    · exact ⟨fun _ => rfl, fun _ => hadvance⟩
    · intro e he
      rw [show w.progress = .advance from hadvance] at he
      cases he
  · refine ⟨rest', hrest, howes, ?_, ?_⟩
    · constructor
      · intro hadvance
        rw [show w.progress = .incomplete from hshort] at hadvance
        cases hadvance
      · intro hnil
        exact absurd hnil hne
    · intro e he
      rw [show w.progress = .incomplete from hshort] at he
      cases he

/-- Whatever the sizes of the buffers, they take the first part of what is left of a message,
and the rest is still left. -/
theorem writeThrough_owes {d : Draft} (rooms : List Nat) {s : FrameStack} {rest : Bytes}
    (h : Owes d.write s rest) :
    ∃ rest', (d.writeThrough s rooms).1 ++ rest' = rest ∧
      Owes d.write (d.writeThrough s rooms).2 rest' := by
  induction rooms generalizing s rest with
  | nil => exact ⟨rest, rfl, h⟩
  | cons room rooms ih =>
    obtain ⟨rest₁, hrest₁, howes₁, -, -⟩ := owes_step h room
    obtain ⟨rest₂, hrest₂, howes₂⟩ := ih howes₁
    refine ⟨rest₂, ?_, howes₂⟩
    rw [writeThrough, List.append_assoc, hrest₂, hrest₁]

/-- No message is without octets. -/
theorem encode_ne_nil (d : Draft) : d.encode ≠ [] := by
  intro h
  have hle := d.type.layout.headerLength_le_encode d.record
  rw [show d.type.layout.encode d.record = [] from h] at hle
  simp [headerLength] at hle

end Draft

/-- What came of sending messages through buffers: the octets emitted, the messages not
completed yet, and whether one of them could not be written. -/
structure Sent where
  emitted : Bytes
  left : List Draft
  outcome : Except CodecError Unit

namespace Encoder

/-- Writes messages one after the other, each buffer taking the next part of the message
at hand. -/
def send (e : Encoder) : List Draft → List Nat → Sent
  | [], _ => ⟨[], [], .ok ()⟩
  | ds, [] => ⟨[], ds, .ok ()⟩
  | d :: ds, room :: rooms =>
    match e.encode d room with
    | (.failed error, _, _) => ⟨[], d :: ds, .error error⟩
    | (.incomplete, bs, e) =>
      let sent := e.send (d :: ds) rooms
      { sent with emitted := bs ++ sent.emitted }
    | (.advance, bs, e) =>
      let sent := e.send ds rooms
      { sent with emitted := bs ++ sent.emitted }

/-- What has been emitted is a part of what is left of the message at hand and of the messages
behind it, and it is all of that exactly if no message is left. -/
theorem send_owes (rooms : List Nat) {e : Encoder} {d : Draft} {ds : List Draft} {rest : Bytes}
    (h : Owes d.write e.stack rest) (hne : rest ≠ []) (hds : ∀ d ∈ ds, d.Accepted) :
    let sent := e.send (d :: ds) rooms
    sent.emitted <+: rest ++ ds.flatMap Draft.encode ∧ sent.outcome = .ok () ∧
      (sent.left = [] ↔ sent.emitted = rest ++ ds.flatMap Draft.encode) := by
  induction rooms generalizing e d ds rest with
  | nil =>
    refine ⟨List.nil_prefix, rfl, ?_, ?_⟩
    · intro hleft
      simp [send] at hleft
    · intro hall
      simp [send, hne] at hall
  | cons room rooms ih =>
    obtain ⟨rest', hrest, howes, hdone, hok⟩ := Draft.owes_step h room
    simp only [send, encode]
    rcases hw : d.write ⟨e.stack, room⟩ with ⟨_ | _ | error, emitted, sink⟩
    · rw [hw] at hrest hdone
      obtain rfl := hdone.mp rfl
      simp only [List.append_nil] at hrest
      subst hrest
      cases ds with
      | nil => simp [send]
      | cons d' ds =>
        obtain ⟨hd', hds'⟩ := List.forall_mem_cons.mp hds
        obtain ⟨hpart, houtcome, hleft⟩ := ih hd'.owes d'.encode_ne_nil hds'
        rw [List.flatMap_cons]
        refine ⟨?_, houtcome, ?_⟩
        · exact (List.prefix_append_right_inj emitted).mpr hpart
        · rw [List.append_cancel_left_eq]
          exact hleft
    · rw [hw] at hrest howes hdone
      have hne' : rest' ≠ [] := fun hnil => by simpa using hdone.mpr hnil
      obtain ⟨hpart, houtcome, hleft⟩ := ih (e := ⟨sink.stack⟩) howes hne' hds
      rw [← hrest, List.append_assoc]
      refine ⟨?_, houtcome, ?_⟩
      · exact (List.prefix_append_right_inj emitted).mpr hpart
      · rw [List.append_cancel_left_eq]
        exact hleft
    · rw [hw] at hok
      exact absurd rfl (hok error)

/-- Writing can be suspended at any octet. Let `ds` be messages that can be written. A
buffer that is long enough takes the whole encoding of one of them in one call. Through
buffers of any sizes, a writer emits parts of that same encoding, and the call that completes
the encoding is the one that says so. An encoder that is driven over all of `ds` emits parts
of their encodings one after the other, and all of them once no message is left. -/
theorem send_emits_encodings (ds : List Draft) (hds : ∀ d ∈ ds, d.Accepted) (rooms : List Nat) :
    let sent := send {} ds rooms
    (∀ d ∈ ds,
      (∀ room, d.encode.length ≤ room →
        (d.write ⟨{}, room⟩).progress = .advance ∧ (d.write ⟨{}, room⟩).emitted = d.encode) ∧
      ∀ room,
        let before := d.writeThrough {} rooms
        let w := d.write ⟨before.2, room⟩
        before.1 ++ w.emitted <+: d.encode ∧
          (w.progress = .advance ↔ before.1 ++ w.emitted = d.encode) ∧
          ∀ e, w.progress ≠ .failed e) ∧
    sent.emitted <+: ds.flatMap Draft.encode ∧ sent.outcome = .ok () ∧
      (sent.left = [] ↔ sent.emitted = ds.flatMap Draft.encode) := by
  intro sent
  constructor
  · intro d hd
    have howes := (hds d hd).owes
    refine ⟨fun room hroom => howes.of_le (d.type.layout.continuable d.record) hroom,
      fun room => ?_⟩
    obtain ⟨rest, hrest, howes'⟩ := Draft.writeThrough_owes rooms howes
    obtain ⟨rest', hrest', -, hdone, hok⟩ := Draft.owes_step howes' room
    rw [← hrest'] at hrest
    rw [← hrest, ← List.append_assoc]
    refine ⟨List.prefix_append _ rest', ?_, hok⟩
    rw [hdone, List.self_eq_append_right]
  · cases ds with
    | nil =>
      have hsent : sent = ⟨[], [], .ok ()⟩ := by cases rooms <;> rfl
      simp [hsent]
    | cons d ds =>
      obtain ⟨hd, hds'⟩ := List.forall_mem_cons.mp hds
      exact send_owes rooms hd.owes d.encode_ne_nil hds'

/-- A topology version and a value with two octets, sent through six buffers of which the
first two are too small for a header. -/
theorem send_two_messages :
    let ds := [(Message.topologyVersion ⟨4, 2⟩ : Message Unit).toDraft,
      (Message.value { bytes := some [7, 8] } : Message Unit).toDraft]
    (∀ d ∈ ds, d.Accepted) ∧
      (send {} ds [0, 5, 6, 16, 11, 1]).emitted = ds.flatMap Draft.encode := by
  intro ds
  have hds : ∀ d ∈ ds, d.Accepted :=
    List.forall_mem_cons.mpr ⟨⟨18, by decide⟩, List.forall_mem_singleton.mpr ⟨12, by decide⟩⟩
  have hleft : (send {} ds [0, 5, 6, 16, 11, 1]).left = [] := by rfl
  exact ⟨hds, (send_emits_encodings ds hds [0, 5, 6, 16, 11, 1]).2.2.2.mp hleft⟩

end Encoder

end Enlistment
