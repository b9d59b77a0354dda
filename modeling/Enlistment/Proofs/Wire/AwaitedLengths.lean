import Enlistment.Proofs.Wire.Capping

/-!
# Awaited lengths

A message that has been read up to a length goes on with the four octets of that length. As long
as they are not there a call does nothing, and if they do not spell a length under the limit it
fails and does nothing either. So no octet behind a bad length gets into a slot.
-/

namespace Enlistment.Wire

/-- Whether an array goes on with its length, or with a length in the element that has been
announced. -/
def awaitsInArray {R : Type} (awaits : Place → R → Bool) (p : Place) (slot : Option (List R)) :
    Bool :=
  if p.top.fieldStarted then
    decide (p.top.position < p.top.length) && p.top.messageStarted &&
      (slot.bind List.getLast?).any (awaits p.nested)
  else true

mutual
/-- Whether a message that is read up to a place goes on with a length. -/
def Layout.awaitsLength : {R : Type} → Layout R → Place → R → Bool
  | _, .message _ fields _, p, message =>
    p.top.headerDone && p.top.flags == message.flags &&
      fields.awaitsLength (-1) p.top.state p message.slots
/-- Whether fields go on with a length, behind the first `skip` of them. `tag` is the last ordinal
before the fields. -/
def Fields.awaitsLength : {S : Type} → Fields S → (tag : Int8) → (skip : Nat) → Place → S → Bool
  | _, .nil, _, _, _, _ => false
  | _, .cons field rest, tag, skip + 1, p, slots =>
    rest.awaitsLength (field.tag slots.1 tag) skip p slots.2
  | _, .cons field _, tag, 0, p, slots => field.awaitsLength tag p slots.1
/-- Whether a field goes on with a length: its own, or one in the message that it has announced. -/
def Field.awaitsLength : {A : Type} → Field A → (tag : Int8) → Place → A → Bool
  | _, .flag, _, _, _ => false
  | _, .ordinal _ _ _ _, _, _, _ => false
  | _, .int32, _, _, _ => false
  | _, .int64, _, _, _ => false
  | _, .uint128, _, _, _ => false
  | _, .bytes, _, p, _ => !p.top.fieldStarted
  | _, .text _, _, p, _ => !p.top.fieldStarted
  | _, .longs, _, p, _ => !p.top.fieldStarted
  | _, .optional layout, _, p, slot =>
    p.top.messageStarted && slot.any (layout.awaitsLength p.nested)
  | _, .required _ layout, _, p, slot =>
    p.top.messageStarted && layout.awaitsLength p.nested slot
  | _, .array layout, _, p, slot => awaitsInArray layout.awaitsLength p slot
  | _, .batch layout, _, p, slot => awaitsInArray layout.awaitsLength p slot.staged
  | _, .keys layout, _, p, slot => awaitsInArray layout.awaitsLength p slot.inbound
  | _, .values selector value invocation, tag, p, slot =>
    if tag = selector then awaitsInArray invocation.awaitsLength p slot.inboundInvocations
    else awaitsInArray value.awaitsLength p slot.inboundValues
end

/-- What comes of the octets at hand for a length if they are too few or do not spell a length
under the limit, and how many of them are taken. -/
inductive LengthStop (limit : Nat) (input : Bytes) : Progress → Nat → Prop
  | short (h : input.length < 4) : LengthStop limit input .incomplete 0
  | refused {e : CodecError} (h : 4 ≤ input.length)
      (he : decodeLength limit (int32Of (input.take 4)) = .error e) :
      LengthStop limit input (.failed e) 4

/-- Nothing is complete where a length stops a call. -/
theorem LengthStop.isAdvance {limit count : Nat} {input : Bytes} {progress : Progress}
    (h : LengthStop limit input progress count) : progress.isAdvance = false := by
  cases h <;> rfl

/-! ## Units -/

variable {limit count : Nat} {progress : Progress} {src : Source}

/-- The frames of a field that has not been started say so. -/
theorem fieldStarted_eq_false (h : (!src.stack.place.top.fieldStarted) = true) :
    src.stack.top.fieldStarted = false := by
  simpa [FrameStack.place] using h

/-- A unit whose length does not come is left alone. -/
theorem readSized_stops {A : Type} {what : String} {empty : A}
    {fill : Nat → A → Source → Reading A} {slot : Option A}
    (hfield : src.stack.top.fieldStarted = false)
    (h : LengthStop limit src.input progress count) :
    readSized limit what empty fill slot src = ⟨progress, slot, src.skip count⟩ := by
  unfold readSized
  rw [if_neg (by simp [hfield])]
  cases h with
  | short h => rw [if_pos h]; rfl
  | refused h he => rw [if_neg (Nat.not_lt.mpr h), he]

/-- A text whose length does not come is left alone. -/
theorem readTextField_stops {onNull : NullText} {slot : TextSlot}
    (hfield : src.stack.top.fieldStarted = false)
    (h : LengthStop limit src.input progress count) :
    readTextField limit onNull slot src = ⟨progress, slot, src.skip count⟩ := by
  have hbytes : readBytes limit slot.staged src = ⟨progress, slot.staged, src.skip count⟩ :=
    readSized_stops hfield h
  unfold readTextField readText
  rw [hbytes]
  cases h <;> rfl

/-- Numbers whose length does not come are left alone. -/
theorem readLongField_stops {slot : List Int64} (hfield : src.stack.top.fieldStarted = false)
    (h : LengthStop limit src.input progress count) :
    ((readLongs limit (some slot) src).map fun items => items.getD []) =
      ⟨progress, slot, src.skip count⟩ := by
  rw [show readLongs limit (some slot) src = ⟨progress, some slot, src.skip count⟩ from
    readSized_stops hfield h]
  rfl

/-! ## Nested messages -/

/-- Coming back from a nested message that was suspended leads to where it was entered. -/
theorem FrameStack.leave_enter {s : FrameStack} (h : s.deeper ≠ []) :
    s.enter.leave false = s := by
  obtain ⟨outer, top, deeper⟩ := s
  cases deeper with
  | nil => exact absurd rfl h
  | cons f rest => rfl

/-- A nested message that goes on with a length has frames of its own. -/
theorem Layout.deeper_ne_nil {R : Type} {layout : Layout R} {message : R} {p : Place}
    (h : layout.awaitsLength p.nested message = true) : p.deeper ≠ [] := by
  intro hnil
  cases layout with
  | message type fields settle => simp [Layout.awaitsLength, Place.nested, hnil] at h

section

variable {R : Type} {read : R → Source → Reading R}

/-- A nested message that stops where it goes on is left alone. -/
theorem readNested_stops {message : R} (hdeeper : src.stack.deeper ≠ [])
    (hstop : progress.isAdvance = false)
    (h : read message { src with stack := src.stack.enter } =
      ⟨progress, message, Source.skip { src with stack := src.stack.enter } count⟩) :
    readNested read message src = ⟨progress, message, src.skip count⟩ := by
  simp only [readNested, h, hstop, Source.skip, FrameStack.leave_enter hdeeper]

variable {create : UInt16 → Option R} {awaits : Place → R → Bool}
  (hread : ∀ message src, awaits src.stack.place message = true →
    LengthStop limit src.input progress count →
    read message src = ⟨progress, message, src.skip count⟩)
  (hdeeper : ∀ (p : Place) message, awaits p.nested message = true → p.deeper ≠ [])
include hread hdeeper

/-- A message that stops where it goes on is left alone. -/
theorem readMessage_stops {message : R} (hstarted : src.stack.top.messageStarted = true)
    (hawaits : awaits src.stack.place.nested message = true)
    (h : LengthStop limit src.input progress count) :
    readMessage create read (some message) src = ⟨progress, some message, src.skip count⟩ := by
  have hnested := readNested_stops (hdeeper _ _ hawaits) h.isAdvance
    (hread message { src with stack := src.stack.enter } hawaits h)
  unfold readMessage resumeMessage
  rw [if_pos hstarted]
  simp only [hnested, h.isAdvance, Bool.false_eq_true, if_false]

/-- An array that stops in its last element is left alone. -/
theorem readElements_stops {items : List R} {item : R} (missing : Nat)
    (hstarted : src.stack.top.messageStarted = true) (hlast : items.getLast? = some item)
    (hawaits : awaits src.stack.place.nested item = true)
    (h : LengthStop limit src.input progress count) :
    readElements create read (missing + 1) items src = ⟨progress, items, src.skip count⟩ := by
  have hnested := readNested_stops (hdeeper _ _ hawaits) h.isAdvance
    (hread item { src with stack := src.stack.enter } hawaits h)
  obtain ⟨front, rfl⟩ := List.getLast?_eq_some_iff.mp hlast
  simp only [readElements, readElement, if_pos hstarted, resumeElement, hlast, hnested,
    h.isAdvance, Bool.false_eq_true, if_false, List.dropLast_concat]

/-- An array that goes on with a length that does not come is left alone. -/
theorem readMessages_stops {slot : Option (List R)}
    (hawaits : awaitsInArray awaits src.stack.place slot = true)
    (h : LengthStop limit src.input progress count) :
    readMessages limit create read slot src = ⟨progress, slot, src.skip count⟩ := by
  cases hfield : src.stack.top.fieldStarted with
  | false => exact readSized_stops hfield h
  | true =>
    have hfield' : src.stack.place.top.fieldStarted = true := hfield
    simp only [awaitsInArray, hfield', if_true, Bool.and_eq_true, decide_eq_true_eq] at hawaits
    obtain ⟨⟨hroom, hstarted⟩, hany⟩ := hawaits
    obtain ⟨item, hitem, hawaits⟩ := (Option.any_eq_true ..).mp hany
    obtain ⟨items, rfl, hlast⟩ := Option.bind_eq_some_iff.mp hitem
    obtain ⟨missing, hmissing⟩ : ∃ missing,
        src.stack.top.length - src.stack.top.position = missing + 1 :=
      ⟨_, (Nat.succ_pred (Nat.sub_ne_zero_of_lt hroom)).symm⟩
    have helements : readElements create read (missing + 1) items src =
        ⟨progress, items, src.skip count⟩ :=
      readElements_stops hread hdeeper missing hstarted hlast hawaits h
    simp only [readMessages, readSized, hfield, if_true, resumeSized, hmissing, helements]
    rfl

end

/-! ## Messages -/

/-- Whether a field has no length in it and no message. -/
def Field.fixedWidth : {A : Type} → Field A → Bool
  | _, .flag | _, .ordinal _ _ _ _ | _, .int32 | _, .int64 | _, .uint128 => true
  | _, _ => false

/-- Whether fields have no length in them and no message. -/
def Fields.fixedWidth : {S : Type} → Fields S → Bool
  | _, .nil => true
  | _, .cons field rest => field.fixedWidth && rest.fixedWidth

/-- Whether the messages of a layout have no length in them and no message. -/
def Layout.fixedWidth : {R : Type} → Layout R → Bool
  | _, .message _ fields _ => fields.fixedWidth

/-- Whether the message in a field has no length in it if it must be there. A failure in such a
message leaves it blank. -/
def Field.RequiresFixed : {A : Type} → Field A → Prop
  | _, .required _ layout => layout.fixedWidth = true
  | _, _ => True

/-- Whether the messages that must be there have no length in them. -/
def Fields.RequireFixed : {S : Type} → Fields S → Prop
  | _, .nil => True
  | _, .cons field rest => field.RequiresFixed ∧ rest.RequireFixed

/-- Whether the messages that must be there have no length in them. -/
def Layout.RequiresFixed : {R : Type} → Layout R → Prop
  | _, .message _ fields _ => fields.RequireFixed

/-- Fields without lengths never go on with one. -/
theorem Fields.awaitsLength_fixed : {S : Type} → (fields : Fields S) →
    fields.fixedWidth = true → (tag : Int8) → (skip : Nat) → (p : Place) → (slots : S) →
    fields.awaitsLength tag skip p slots = false
  | _, .nil, _, _, _, _, _ => rfl
  | _, .cons field rest, h, tag, skip, p, slots => by
    simp only [Fields.fixedWidth, Bool.and_eq_true] at h
    cases skip with
    | succ skip => exact rest.awaitsLength_fixed h.2 _ skip p slots.2
    | zero => cases field <;> first | rfl | cases h.1

/-- A message without lengths never goes on with one. -/
theorem Layout.awaitsLength_fixed {R : Type} (layout : Layout R) (h : layout.fixedWidth = true)
    (p : Place) (message : R) : layout.awaitsLength p message = false := by
  cases layout with
  | message type fields settle =>
    simp only [Layout.awaitsLength, fields.awaitsLength_fixed h, Bool.and_false]

mutual
/-- A message that goes on with a length that does not come is left alone. -/
theorem Layout.read_stops : {R : Type} → (layout : Layout R) →
    layout.Every Layout.RequiresFixed → (message : R) → (src : Source) →
    layout.awaitsLength src.stack.place message = true →
    LengthStop limit src.input progress count →
    layout.read limit message src = ⟨progress, message, src.skip count⟩
  | _, .message type fields _, hevery, message, src, hawaits, h => by
    simp only [Layout.awaitsLength, Bool.and_eq_true, beq_iff_eq] at hawaits
    obtain ⟨⟨hdone, hflags⟩, hfields⟩ := hawaits
    have hdone : src.stack.top.headerDone = true := hdone
    have hflags : src.stack.top.flags = message.flags := hflags
    have hread := fields.read_stops hevery.1 hevery.2 (-1) src.stack.top.state message.slots src
      hfields h
    simp only [Layout.read, readHeader, hdone, if_true, Progress.isAdvance_advance, hread,
      h.isAdvance, Bool.false_eq_true, if_false, hflags]
/-- Fields that go on with a length that does not come are left alone. -/
theorem Fields.read_stops : {S : Type} → (fields : Fields S) → fields.RequireFixed →
    fields.Every Layout.RequiresFixed → (tag : Int8) → (skip : Nat) → (slots : S) →
    (src : Source) → fields.awaitsLength tag skip src.stack.place slots = true →
    LengthStop limit src.input progress count →
    fields.read limit tag skip slots src = ⟨progress, slots, src.skip count⟩
  | _, .nil, _, _, _, _, _, _, hawaits, _ => absurd hawaits Bool.false_ne_true
  | _, .cons field rest, hfixed, hevery, tag, skip + 1, slots, src, hawaits, h => by
    simp only [Fields.read, rest.read_stops hfixed.2 hevery.2 _ skip slots.2 src hawaits h,
      Reading.map]
  | _, .cons field rest, hfixed, hevery, tag, 0, slots, src, hawaits, h => by
    have hread := field.read_stops hfixed.1 hevery.1 tag slots.1 src hawaits h
    simp only [Fields.read, hread, h.isAdvance, Bool.false_eq_true, if_false, Reading.map]
/-- A field that goes on with a length that does not come is left alone. -/
theorem Field.read_stops : {A : Type} → (field : Field A) → field.RequiresFixed →
    field.Every Layout.RequiresFixed → (tag : Int8) → (slot : A) → (src : Source) →
    field.awaitsLength tag src.stack.place slot = true →
    LengthStop limit src.input progress count →
    field.read limit tag slot src = ⟨progress, slot, src.skip count⟩
  | _, .flag, _, _, _, _, _, hawaits, _ => absurd hawaits Bool.false_ne_true
  | _, .ordinal _ _ _ _, _, _, _, _, _, hawaits, _ => absurd hawaits Bool.false_ne_true
  | _, .int32, _, _, _, _, _, hawaits, _ => absurd hawaits Bool.false_ne_true
  | _, .int64, _, _, _, _, _, hawaits, _ => absurd hawaits Bool.false_ne_true
  | _, .uint128, _, _, _, _, _, hawaits, _ => absurd hawaits Bool.false_ne_true
  | _, .bytes, _, _, _, _, _, hawaits, h => readSized_stops (fieldStarted_eq_false hawaits) h
  | _, .text _, _, _, _, _, _, hawaits, h => readTextField_stops (fieldStarted_eq_false hawaits) h
  | _, .longs, _, _, _, _, _, hawaits, h => readLongField_stops (fieldStarted_eq_false hawaits) h
  | _, .optional layout, _, hevery, _, slot, src, hawaits, h => by
    simp only [Field.awaitsLength, Bool.and_eq_true] at hawaits
    obtain ⟨hstarted, hany⟩ := hawaits
    obtain ⟨message, rfl, hawaits⟩ := (Option.any_eq_true ..).mp hany
    exact readMessage_stops (layout.read_stops hevery) (fun _ _ => Layout.deeper_ne_nil) hstarted
      hawaits h
  | _, .required _ layout, hfixed, _, _, slot, src, hawaits, _ => by
    simp only [Field.awaitsLength, Bool.and_eq_true] at hawaits
    have hnot := layout.awaitsLength_fixed hfixed src.stack.place.nested slot
    exact absurd (hnot.symm.trans hawaits.2) Bool.false_ne_true
  | _, .array layout, _, hevery, _, slot, src, hawaits, h =>
    readMessages_stops (layout.read_stops hevery) (fun _ _ => Layout.deeper_ne_nil) hawaits h
  | _, .batch layout, _, hevery, _, slot, src, hawaits, h => by
    have hread : readMessages limit layout.create (layout.read limit) slot.staged src =
        ⟨progress, slot.staged, src.skip count⟩ :=
      readMessages_stops (layout.read_stops hevery) (fun _ _ => Layout.deeper_ne_nil) hawaits h
    simp only [Field.read, BatchSlot.store, hread, h.isAdvance, Bool.false_eq_true, if_false]
  | _, .keys layout, _, hevery, _, slot, src, hawaits, h => by
    have hread : readMessages limit layout.create (layout.read limit) slot.inbound src =
        ⟨progress, slot.inbound, src.skip count⟩ :=
      readMessages_stops (layout.read_stops hevery) (fun _ _ => Layout.deeper_ne_nil) hawaits h
    simp only [Field.read, hread, Reading.map]
  | _, .values selector value invocation, _, hevery, tag, slot, src, hawaits, h => by
    by_cases htag : tag = selector
    · simp only [Field.awaitsLength, if_pos htag] at hawaits
      have hread : readMessages limit invocation.create (invocation.read limit)
          slot.inboundInvocations src = ⟨progress, slot.inboundInvocations, src.skip count⟩ :=
        readMessages_stops (invocation.read_stops hevery.2) (fun _ _ => Layout.deeper_ne_nil)
          hawaits h
      simp only [Field.read, if_pos htag, hread, Reading.map]
    · simp only [Field.awaitsLength, if_neg htag] at hawaits
      have hread : readMessages limit value.create (value.read limit) slot.inboundValues src =
          ⟨progress, slot.inboundValues, src.skip count⟩ :=
        readMessages_stops (value.read_stops hevery.1) (fun _ _ => Layout.deeper_ne_nil)
          hawaits h
      simp only [Field.read, if_neg htag, hread, Reading.map]
end

end Enlistment.Wire
