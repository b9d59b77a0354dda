import Enlistment.Proofs.Stream.RoundTrip
import Enlistment.Proofs.Wire.Completion

/-!
# Encoding through a scratch buffer

A message that can be written is encoded through a scratch buffer of whatever size: every call
but the last one emits something, so the number of calls that is allowed is enough.
-/

namespace Enlistment

open Wire

/-- What is left of a message is encoded in parts, if a buffer holds every unit and there are
more calls than octets. -/
theorem Encoder.encodeParts_of_owes {d : Draft} {room : Nat} (hroom : minBufferLength ≤ room)
    (calls : Nat) {e : Encoder} {rest : Bytes} (h : Owes d.write e.stack rest)
    (hcalls : rest.length < calls) : encodeParts d room calls e = .ok rest := by
  induction calls generalizing e rest with
  | zero => exact absurd hcalls (Nat.not_lt_zero _)
  | succ calls ih =>
    obtain ⟨rest', hrest, howes, hdone, hok⟩ := Draft.owes_step h room
    have hmoves := d.type.layout.moves d.record ⟨e.stack, room⟩ hroom
    simp only [encodeParts, encode]
    rcases hw : d.write ⟨e.stack, room⟩ with ⟨_ | _ | error, emitted, sink⟩ <;>
      rw [hw] at hrest howes hdone hok
    · obtain rfl := hdone.mp rfl
      rw [List.append_nil] at hrest
      exact congrArg Except.ok hrest
    · have hne : emitted ≠ [] := by
        have hw' : d.type.layout.write d.record ⟨e.stack, room⟩ = ⟨.incomplete, emitted, sink⟩ := hw
        rw [hw'] at hmoves
        exact hmoves rfl
      cases emitted with
      | nil => exact absurd rfl hne
      | cons b emitted =>
        have hfewer : rest'.length < calls := by
          rw [← hrest, List.length_append, List.length_cons] at hcalls
          omega
        have hpart := ih (e := ⟨sink.stack⟩) howes hfewer
        simp only [Progress.isAdvance_incomplete, Bool.false_eq_true, if_false, hpart, Except.map,
          hrest]
    · exact absurd rfl (hok error)

/-- A message that can be written is encoded through a scratch buffer of any size. -/
theorem Draft.Accepted.encodeChunked_eq {d : Draft} (h : d.Accepted) (chunk : Nat) :
    d.encodeChunked chunk = .ok d.encode :=
  Encoder.encodeParts_of_owes (Nat.le_max_right _ _) _ h.owes (Nat.lt_succ_self _)

/-- A message that is ready with all the messages in it, and whose lengths fit, can be written. -/
theorem Draft.accepted_of_prepared {d : Draft} (hprepared : d.type.layout.Prepared d.record)
    (hwithin : d.type.layout.Within maxWireLength d.record) : d.Accepted := by
  have hstart : FrameStack.AtMessage {} := ⟨rfl, fun f hf => by cases hf⟩
  exact ⟨d.encode.length,
    d.type.layout.completes hprepared hwithin ⟨{}, d.encode.length⟩ hstart (Nat.le_refl _)⟩

end Enlistment
