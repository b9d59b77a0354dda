import Enlistment.Message.Draft
import Enlistment.Proofs.Wire.Arrival
import Enlistment.Proofs.Wire.Settling

/-!
# The layouts of all types of messages

No layout can be mistaken for another or for an absent message, the fields of each fit
its header, and settling a message leaves the messages in it alone.
-/

namespace Enlistment

open Wire

/-- Slots whose messages are as settled as those of other slots, field by field. -/
theorem Wire.Fields.Settled.cons {A S : Type} {field : Field A} {rest : Fields S} {a a' : A}
    {s s' : S} (hfield : field.Settled a → field.Settled a')
    (hrest : ∀ count, rest.Settled count s → rest.Settled count s') (count : Nat)
    (h : (Fields.cons field rest).Settled count (a, s)) :
    (Fields.cons field rest).Settled count (a', s') := by
  cases count with
  | zero => trivial
  | succ count => exact ⟨hfield h.1, hrest count h.2⟩

/-- Settling a request changes nothing but its rows. -/
theorem requestLayout_keepsSettled : requestLayout.KeepsSettled := by
  intro count slots h
  obtain ⟨deployment, affinity, messageId, cacheId, clientFirst, filter, future, keepBinary, keys,
    lock, mini, snapshot, needResult, op, taskHash, threadId, timeout, topology, txTimeout,
    values, ⟨⟩⟩ := slots
  refine .cons id (.cons id (.cons id (.cons id (.cons id (.cons id (.cons id (.cons id
    (.cons ?_ (.cons id (.cons id (.cons id (.cons id (.cons id (.cons id (.cons id (.cons id
    (.cons id (.cons id (.cons ?_ ?_))))))))))))))))))) count h
  · exact fun _ => trivial
  · exact fun _ => trivial
  · exact fun _ _ => trivial

namespace MessageType

/-- Settling a message of any type leaves the messages in it alone. -/
theorem layout_keepsSettled (t : MessageType) : t.layout.KeepsSettled := by
  cases t with
  | request => exact requestLayout_keepsSettled
  | _ => exact fun _ _ h => h

/-- The layouts of all types are lawful. -/
theorem layout_lawful (t : MessageType) : t.layout.Lawful := by
  cases t <;>
    simp [layout, topologyLayout, lockLayout, snapshotLayout, deploymentLayout, keyLayout,
      valueLayout, invokeLayout, filterLayout, returnLayout, failureLayout, errorLayout,
      requestLayout, responseLayout, baseFields, Layout.plain, Layout.Lawful, Fields.Lawful,
      Field.Lawful, Fields.count, nullType]

/-- A type number belongs to one type. -/
theorem layout_type_injective {t u : MessageType} (h : t.layout.type = u.layout.type) :
    t = u := by
  cases t <;> cases u <;> first | rfl | exact absurd h (by decide)

/-- The type number of an accepted type announces that type. -/
theorem ofCode?_type {accepted : List MessageType} {t : MessageType} (h : t ∈ accepted) :
    ofCode? accepted t.layout.type = some t := by
  induction accepted with
  | nil => cases h
  | cons u rest ih =>
    let announced (v : MessageType) : Bool := v.layout.type == t.layout.type
    show List.find? announced (u :: rest) = some t
    by_cases hu : announced u = true
    · rw [List.find?_cons_of_pos hu, layout_type_injective (eq_of_beq hu)]
    · rw [List.find?_cons_of_neg hu]
      have hne : t ≠ u := fun htu => hu (htu ▸ beq_self_eq_true t.layout.type)
      exact ih ((List.mem_cons.mp h).resolve_left hne)

end MessageType

end Enlistment
