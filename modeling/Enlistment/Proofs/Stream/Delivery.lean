import Enlistment.Proofs.Stream.RoundTrip
import Enlistment.Proofs.Wire.Limits

/-!
# Delivering one message

A receiver that looks for the first message in the octets of one finds this message or none,
whatever its limit is and in whatever pieces it looks at them.
-/

namespace Enlistment

open Wire

variable {σ : Type}

/-- Pieces of at least one octet make up the octets they are taken from. -/
theorem Bytes.flatten_splitPieces {size count : Nat} {bs : Bytes} (hsize : 0 < size)
    (hcount : bs.length ≤ count) : (Bytes.splitPieces size count bs).flatten = bs := by
  induction count generalizing bs with
  | zero =>
    obtain rfl : bs = [] := List.eq_nil_of_length_eq_zero (Nat.le_zero.mp hcount)
    rfl
  | succ count ih =>
    cases bs with
    | nil => rfl
    | cons b bs =>
      have hrest : ((b :: bs).drop size).length ≤ count := by
        rw [List.length_drop]
        simp only [List.length_cons] at hcount ⊢
        omega
      rw [Bytes.splitPieces, List.flatten_cons, ih hrest, List.take_append_drop]
      exact fun h => by cases h

/-- The pieces of some octets make up these octets. -/
theorem Bytes.flatten_pieces (size : Nat) (bs : Bytes) : (bs.pieces size).flatten = bs :=
  Bytes.flatten_splitPieces (by omega) (Nat.le_refl _)

namespace Decoder

/-- The first message that is found in pieces is the one that is found in the whole. -/
theorem next_of_firstOf {d : Decoder} {pieces : List Bytes} {draft : Draft}
    (h : (d.firstOf pieces).1 = .ok (some draft)) :
    (d.feed pieces.flatten).next.1 = .ok (some draft) := by
  induction pieces generalizing d with
  | nil => cases h
  | cons piece rest ih =>
    rw [List.flatten_cons, ← feed_append]
    have hfed := next_feed (d.feed piece) rest.flatten
    unfold firstOf at h
    rcases hnext : (d.feed piece).next with ⟨e | _ | found, d'⟩ <;> simp only [hnext] at h hfed
    · cases h
    · generalize ((d.feed piece).feed rest.flatten).next = whole at hfed
      cases hfed with
      | again result decoder => rw [result, ih h]
    · generalize ((d.feed piece).feed rest.flatten).next = whole at hfed
      cases hfed with
      | message draft' d'' => exact h

/-- A message that is found under a limit is the one that is found without one. -/
theorem next_narrows {accepted : List MessageType} {maxLength : Nat} {bs : Bytes} {draft : Draft}
    (h : ({ accepted, maxLength, pending := bs } : Decoder).next.1 = .ok (some draft)) :
    ({ accepted, maxLength := maxWireLength, pending := bs } : Decoder).next.1 =
      .ok (some draft) := by
  have hsame : ({ accepted, maxLength, pending := bs } : Decoder).start =
      ({ accepted, maxLength := maxWireLength, pending := bs } : Decoder).start := rfl
  rcases hstart : ({ accepted, maxLength, pending := bs } : Decoder).start with e | _ | blank
  · simp only [next, hstart] at h
    cases h
  · simp only [next, hstart] at h
    cases h
  · rw [next_of_start hstart] at h
    rw [next_of_start (hsame ▸ hstart)]
    have hread := (blank.type.layout.narrows maxLength blank.record ⟨{}, bs⟩).map
      fun record => (⟨blank.type, record⟩ : Draft)
    rcases hread with ⟨e, he⟩ | hsame
    · simp only [Draft.read] at h
      rcases hr : (blank.type.layout.read maxLength blank.record ⟨{}, bs⟩).map
        (fun record => (⟨blank.type, record⟩ : Draft)) with ⟨progress, found, src⟩
      rw [hr] at he h
      obtain rfl : progress = .failed e := he
      cases h
    · simp only [Draft.read] at h ⊢
      rw [hsame] at h
      rcases hr : (blank.type.layout.read maxWireLength blank.record ⟨{}, bs⟩).map
        (fun record => (⟨blank.type, record⟩ : Draft)) with ⟨_ | _ | e, found, src⟩ <;>
        rw [hr] at h <;> exact h

end Decoder

/-- What is found in the octets of a message in shape is this message. -/
theorem Message.Shaped.found_eq {m : Message σ} {bs : Bytes} {chunk : Nat} (h : m.Shaped)
    (hencode : m.toDraft.encodeChunked chunk = .ok bs) {accepted : List MessageType}
    {maxLength : Nat} (htype : m.toDraft.type ∈ accepted) {pieces : List Bytes}
    (hpieces : pieces.flatten = bs) {draft : Draft}
    (hfound : (({ accepted, maxLength } : Decoder).firstOf pieces).1 = .ok (some draft)) :
    draft = m.toDraft := by
  have hwhole : ({ accepted, maxLength, pending := bs } : Decoder).next.1 = .ok (some draft) :=
    hpieces ▸ Decoder.next_of_firstOf hfound
  have hunlimited := Decoder.next_narrows hwhole
  obtain ⟨hlegible, rfl⟩ := h.legible htype hencode (Draft.encoded hencode).2.1
  have hsent := Decoder.next_encoding hlegible []
  rw [List.append_nil] at hsent
  rw [hsent] at hunlimited
  exact (Option.some.inj (Except.ok.inj hunlimited)).symm

end Enlistment
