import Enlistment.Proofs.Wire.MessageResumption

/-!
# What has been settled

A message is settled before it counts as read, however often reading it was suspended
or failed before. So a field that has been read holds nothing but settled messages, and
the frame of a message tells which of its fields those are.
-/

namespace Enlistment.Wire

/-- Whether the slots of a record came out of settling a message of its layout. -/
def Layout.Settled : {R : Type} → Layout R → R → Prop
  | _, .message _ _ settle, record => ∃ slots, settle slots = (.ok (), record.slots)

/-- Whether the message in a slot has been settled, if there is a single one. -/
def Field.Settled : {A : Type} → Field A → A → Prop
  | _, .optional layout, slot => ∀ message, slot = some message → layout.Settled message
  | _, .required _ layout, slot => layout.Settled slot
  | _, _, _ => True

/-- Whether the messages in the first `count` slots have been settled. -/
def Fields.Settled : {S : Type} → Fields S → (count : Nat) → S → Prop
  | _, .nil, _, _ => True
  | _, .cons _ _, 0, _ => True
  | _, .cons field rest, count + 1, slots => field.Settled slots.1 ∧ rest.Settled count slots.2

/-- Whether the messages in the first `count` fields of a record have been settled. -/
def Layout.FieldsSettled : {R : Type} → Layout R → (count : Nat) → R → Prop
  | _, .message _ fields _, count, record => fields.Settled count record.slots

/-- Whether settling a message leaves the messages in it as they were settled. -/
def Layout.KeepsSettled : {R : Type} → Layout R → Prop
  | _, .message _ fields settle =>
    ∀ count slots, fields.Settled count slots → fields.Settled count (settle slots).2

/-- Nothing is claimed about fields that have not been read. -/
theorem Fields.settled_zero {S : Type} (fields : Fields S) (slots : S) :
    fields.Settled 0 slots := by
  cases fields <;> trivial

/-- Nothing is claimed about fields that have not been read. -/
theorem Layout.fieldsSettled_zero {R : Type} (layout : Layout R) (record : R) :
    layout.FieldsSettled 0 record := by
  cases layout with
  | message type fields settle => exact fields.settled_zero record.slots

/-- A message that is complete has been settled. -/
theorem Layout.read_settled {R : Type} (layout : Layout R) (maxLength : Nat) (message : R)
    (src : Source) (h : (layout.read maxLength message src).progress = .advance) :
    layout.Settled (layout.read maxLength message src).slot := by
  cases layout with
  | message type fields settle =>
    simp only [read] at h ⊢
    split at h
    · next hheader =>
      rw [if_pos hheader]
      split at h
      · next hfields =>
        rw [if_pos hfields]
        split at h
        · next hcount =>
          rw [if_pos hcount]
          generalize (fields.read maxLength (-1) _ message.slots _).slot = slots at h ⊢
          rcases hsettle : settle slots with ⟨_ | _, slots'⟩ <;> rw [hsettle] at h
          · simp [Progress.ofCheck] at h
          · exact ⟨slots, hsettle⟩
        · next hcount =>
          simp only at h
          rw [h] at hcount
          exact absurd rfl hcount
      · next hfields =>
        simp only at h
        rw [h] at hfields
        exact absurd rfl hfields
    · next hheader =>
      simp only at h
      rw [h] at hheader
      exact absurd rfl hheader

section

variable {R : Type} {create : UInt16 → Option R} {read : R → Source → Reading R}
  {settled : R → Prop}

/-- A nested message that is complete is there and has been settled. -/
theorem resumeMessage_settled
    (hread : ∀ message src, (read message src).progress = .advance →
      settled (read message src).slot)
    (slot : Option R) (src : Source) (h : (resumeMessage read slot src).progress = .advance) :
    ∀ message, (resumeMessage read slot src).slot = some message → settled message := by
  intro message hmessage
  cases slot with
  | none => simp [resumeMessage] at h
  | some found =>
    obtain rfl := Option.some.inj hmessage
    exact hread found _ h

/-- A message that may be absent has been settled if it is there. -/
theorem readMessage_settled
    (hread : ∀ message src, (read message src).progress = .advance →
      settled (read message src).slot)
    (slot : Option R) (src : Source)
    (h : (readMessage create read slot src).progress = .advance) :
    ∀ message, (readMessage create read slot src).slot = some message → settled message := by
  unfold readMessage at h ⊢
  split at h
  · next hstarted =>
    rw [if_pos hstarted]
    exact resumeMessage_settled hread slot src h
  · next hstarted =>
    rw [if_neg hstarted]
    split at h
    · simp at h
    · next hlong =>
      rw [if_neg hlong]
      dsimp only at h ⊢
      split at h
      · next hnull =>
        rw [if_pos hnull]
        intro message hmessage
        simp at hmessage
      · next hnull =>
        rw [if_neg hnull]
        cases hcreate : create (uint16Of (src.input.take 2)) with
        | none => simp [hcreate] at h
        | some found =>
          simp only [hcreate] at h ⊢
          exact resumeMessage_settled hread (some found) _ h

/-- A message that must be there has been settled. -/
theorem readRequired_settled
    (hread : ∀ message src, (read message src).progress = .advance →
      settled (read message src).slot)
    (blank : R) (field : String) (slot : R) (src : Source)
    (h : (readRequired create blank read field slot src).progress = .advance) :
    settled (readRequired create blank read field slot src).slot := by
  have hmessage : (readMessage create read (some slot) src).progress = .advance →
      ∀ message, (readMessage create read (some slot) src).slot = some message →
        settled message := readMessage_settled hread (some slot) src
  unfold readRequired at h ⊢
  rcases hr : readMessage create read (some slot) src with ⟨_ | _ | e, _ | found, src'⟩ <;>
    rw [hr] at hmessage <;> simp only [hr] at h ⊢
  · simp at h
  · exact hmessage rfl found rfl
  all_goals simp at h

end

/-- A field that has been read holds settled messages. -/
theorem Field.read_settled {A : Type} (field : Field A) (maxLength : Nat) (tag : Int8) (slot : A)
    (src : Source) (h : (field.read maxLength tag slot src).progress = .advance) :
    field.Settled (field.read maxLength tag slot src).slot := by
  cases field with
  | optional layout => exact readMessage_settled (layout.read_settled maxLength) slot src h
  | required name layout =>
    exact readRequired_settled (layout.read_settled maxLength) layout.blank name slot src h
  | _ => trivial

/-- Reading on adds to the fields whose messages have been settled as many as it moves on,
and in the end all of them have been. -/
theorem Fields.read_settled : {S : Type} → (fields : Fields S) → (maxLength : Nat) →
    (tag : Int8) → (skip : Nat) → (slots : S) → (src : Source) → fields.Settled skip slots →
    let r := fields.read maxLength tag skip slots src
    ∃ more, r.source.stack.top.state = src.stack.top.state + more ∧
      fields.Settled (skip + more) r.slot ∧
      (r.progress = .advance → fields.Settled fields.count r.slot)
  | _, .nil, _, _, _, _, _, _ => ⟨0, rfl, trivial, fun _ => trivial⟩
  | _, .cons field rest, maxLength, tag, skip + 1, (slot, slots), src, h => by
    obtain ⟨more, hstate, hsettled, hall⟩ :=
      rest.read_settled maxLength (field.tag slot tag) skip slots src h.2
    refine ⟨more, hstate, ?_, fun hadvance => ⟨h.1, hall hadvance⟩⟩
    rw [Nat.add_right_comm]
    exact ⟨h.1, hsettled⟩
  | _, .cons field rest, maxLength, tag, 0, (slot, slots), src, _ => by
    have hkeeps := (field.resumable maxLength tag).keeps slot src
    have hfield := field.read_settled maxLength tag slot src
    simp only [Fields.read]
    rcases hr : field.read maxLength tag slot src with ⟨_ | _ | e, slot', src'⟩ <;>
      rw [hr] at hkeeps hfield
    · have hslot : field.Settled slot' := hfield rfl
      have hnext : src'.stack.nextField.top.state = src.stack.top.state + 1 :=
        congrArg Nat.succ hkeeps.state
      obtain ⟨more, hstate, hsettled, hall⟩ := rest.read_settled maxLength (field.tag slot' tag) 0
        slots { src' with stack := src'.stack.nextField } (rest.settled_zero slots)
      rw [Nat.zero_add] at hsettled
      refine ⟨more + 1, ?_, ?_, fun hadvance => ⟨hslot, hall hadvance⟩⟩
      · rw [Nat.add_comm more 1, ← Nat.add_assoc, ← hnext]
        exact hstate
      · rw [Nat.zero_add]
        exact ⟨hslot, hsettled⟩
    · exact ⟨0, hkeeps.state, Fields.settled_zero _ _, fun h => by simp [Reading.map] at h⟩
    · exact ⟨0, hkeeps.state, Fields.settled_zero _ _, fun h => by simp [Reading.map] at h⟩

/-- A header does not change which field comes next. -/
theorem readHeader_state (type : UInt16) (fieldCount : Nat) (src : Source) :
    (readHeader type fieldCount src).source.stack.top.state = src.stack.top.state := by
  unfold readHeader
  split
  · rfl
  · split
    · rfl
    · split <;> rfl

/-- A call leaves a record whose messages have been settled as far as its frame tells, and
in all fields once the record is complete. -/
theorem Layout.read_fieldsSettled {R : Type} (layout : Layout R) (hlayout : layout.KeepsSettled)
    (maxLength : Nat) (record : R) (src : Source)
    (h : layout.FieldsSettled src.stack.top.state record) :
    let r := layout.read maxLength record src
    layout.FieldsSettled r.source.stack.top.state r.slot ∧
      (r.progress = .advance → layout.FieldsSettled layout.fieldCount r.slot) := by
  cases layout with
  | message type fields settle =>
    have hheader := readHeader_state type fields.count src
    simp only [read]
    rcases hr : readHeader type fields.count src with ⟨_ | _ | e, u, src'⟩ <;> rw [hr] at hheader
    · have hstate : src'.stack.top.state = src.stack.top.state := hheader
      obtain ⟨more, hmore, hsettled, hall⟩ := fields.read_settled maxLength (-1)
        src'.stack.top.state record.slots src' (by rw [hstate]; exact h)
      rw [← hmore] at hsettled
      simp only [Progress.isAdvance_advance, if_true]
      rcases hr' : fields.read maxLength (-1) src'.stack.top.state record.slots src' with
        ⟨_ | _ | e, slots, src''⟩ <;> rw [hr'] at hsettled hall
      · simp only [Progress.isAdvance_advance, if_true]
        split
        · exact ⟨hlayout _ _ hsettled, fun _ => hlayout _ _ (hall rfl)⟩
        · exact ⟨hsettled, fun _ => hall rfl⟩
      · exact ⟨hsettled, fun h => by simp at h⟩
      · exact ⟨hsettled, fun h => by simp at h⟩
    · exact ⟨by rw [← hheader] at h; exact h, fun h => by simp at h⟩
    · exact ⟨by rw [← hheader] at h; exact h, fun h => by simp at h⟩

end Enlistment.Wire
