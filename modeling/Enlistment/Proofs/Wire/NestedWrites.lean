import Enlistment.Proofs.Wire.MessageContinuation

/-!
# The calls inside a writing call

A call on a message writes fields, and the messages in a field are written by calls one level
down. This file lists these calls in their order, each with the frames and the room it starts
with. As for a reader, a call depends on the messages in it through the listed calls only.
-/

namespace Enlistment.Wire

/-! ## Contents of units -/

/-- Where a call on a unit behind its length comes to its contents, if it does. -/
def contentsSink (length : Option Nat) (sink : Sink) : Option Sink :=
  if sink.stack.top.fieldStarted then some sink
  else
    match encodeLength length with
    | .error _ => none
    | .ok bs =>
      if (put bs sink).progress.isAdvance then
        some ((put bs sink).sink.modifyTop fun f => { f with fieldStarted := true })
      else none

/-- The elements that a call on an array comes to, and where it does. -/
def elementWrites {A : Type} (write : A → Sink → Writing) : List A → Sink → List (A × Sink)
  | [], _ => []
  | item :: rest, sink =>
    let w := write item sink
    (item, sink) :: if w.progress.isAdvance then elementWrites write rest w.sink.nextElement else []

/-- Octets that stay together leave the frames alone. -/
theorem put_stack (bs : Bytes) (sink : Sink) : (put bs sink).sink.stack = sink.stack := by
  unfold put
  split <;> rfl

section

variable {length : Option Nat} {sink sink' : Sink}

/-- The contents of a unit are gone on with, or they are started behind their length. -/
theorem contentsSink_cases (h : contentsSink length sink = some sink') :
    (sink.stack.top.fieldStarted = true ∧ sink' = sink) ∨
      (sink.stack.top.fieldStarted = false ∧
        sink'.stack = sink.stack.modifyTop fun f => { f with fieldStarted := true }) := by
  unfold contentsSink at h
  split at h
  · next hstarted => exact .inl ⟨hstarted, (Option.some.inj h).symm⟩
  · next hstarted =>
    split at h
    · cases h
    · next bs _ =>
      split at h
      · obtain rfl := Option.some.inj h
        refine .inr ⟨eq_false_of_ne_true hstarted, ?_⟩
        simp only [Sink.modifyTop, put_stack]
      · cases h

/-- A unit whose contents are come to is written by its contents. -/
theorem writeSized_of_contents (contents : Sink → Writing)
    (h : contentsSink length sink = some sink') :
    ∃ bs, writeSized length contents sink = (contents sink').after bs := by
  unfold contentsSink at h
  unfold writeSized
  split at h
  · next hstarted =>
    rw [if_pos hstarted, Option.some.inj h]
    exact ⟨[], rfl⟩
  · next hstarted =>
    rw [if_neg hstarted]
    rcases hlength : encodeLength length with e | bs <;> simp only [hlength] at h ⊢
    · cases h
    · rcases Nat.lt_or_ge sink.room bs.length with hshort | hle
      · simp [put_of_lt hshort] at h
      · rw [put_of_le hle] at h ⊢
        rw [← Option.some.inj h]
        exact ⟨bs, rfl⟩

/-- A unit whose contents are not come to waits for room, or its length is out of range. -/
theorem writeSized_of_idle (contents : Sink → Writing) (h : contentsSink length sink = none) :
    ∃ progress, progress ≠ .advance ∧ writeSized length contents sink = .stop progress sink := by
  unfold contentsSink at h
  unfold writeSized
  split at h
  · cases h
  · next hstarted =>
    rw [if_neg hstarted]
    rcases hlength : encodeLength length with e | bs <;> simp only [hlength] at h ⊢
    · exact ⟨.failed e, nofun, rfl⟩
    · rcases Nat.lt_or_ge sink.room bs.length with hshort | hle
      · rw [put_of_lt hshort]
        exact ⟨.incomplete, nofun, rfl⟩
      · simp [put_of_le hle] at h

end

/-- Nothing but the listed elements is written: a writer that does the same with them comes to the
same. -/
theorem writeEach_congr {A : Type} {write write' : A → Sink → Writing} (items : List A)
    {sink : Sink} (h : ∀ p ∈ elementWrites write items sink, write' p.1 p.2 = write p.1 p.2) :
    writeEach write' items sink = writeEach write items sink := by
  induction items generalizing sink with
  | nil => rfl
  | cons item rest ih =>
    simp only [elementWrites, List.forall_mem_cons] at h
    obtain ⟨hfirst, hrest⟩ := h
    simp only [writeEach, hfirst, Writing.andThen]
    split
    · next hadvance =>
      rw [if_pos hadvance] at hrest
      have hnext := ih hrest
      simp only [Sink.nextElement] at hnext
      rw [hnext]
    · rfl

/-! ## Calls -/

/-- A call on a message, at the frames and with the room it starts with. -/
structure WriteCall where
  {R : Type}
  layout : Layout R
  message : R
  sink : Sink

/-- A call on a field, at the frames and with the room it starts with. -/
structure FieldWrite where
  {A : Type}
  field : Field A
  slot : A
  sink : Sink

/-- The call on a nested message, one level down. -/
def Layout.nestedWrite {R : Type} (layout : Layout R) (message : R) (sink : Sink) : WriteCall :=
  ⟨layout, message, { sink with stack := sink.stack.enter }⟩

/-- The calls that are made on the elements of an array. -/
def Layout.arrayWrites {R : Type} (layout : Layout R) (slot : Option (List R)) (sink : Sink) :
    List WriteCall :=
  (contentsSink (slot.map List.length) sink).toList.flatMap fun sink =>
    (elementWrites (writeNested layout.write) ((slot.getD []).drop sink.stack.top.position)
      sink).map fun p => layout.nestedWrite p.1 p.2

/-- The calls that a call on a field makes on the messages in it. -/
def Field.messageWrites : {A : Type} → Field A → A → Sink → List WriteCall
  | _, .optional layout, slot, sink =>
    slot.toList.map fun message => layout.nestedWrite message sink
  | _, .required _ layout, slot, sink => [layout.nestedWrite slot sink]
  | _, .array layout, slot, sink => layout.arrayWrites slot sink
  | _, .batch layout, slot, sink => layout.arrayWrites (some slot.settled) sink
  | _, .keys layout, slot, sink => layout.arrayWrites slot.settled sink
  | _, .values _ value invocation, slot, sink =>
    match slot.settled with
    | none => []
    | some (.inl items) => value.arrayWrites (some items) sink
    | some (.inr items) => invocation.arrayWrites (some items) sink
  | _, _, _, _ => []

/-- The calls that a call on fields makes on each of them, behind those already written. -/
def Fields.writes : {S : Type} → Fields S → (skip : Nat) → S → Sink → List FieldWrite
  | _, .nil, _, _, _ => []
  | _, .cons _ rest, skip + 1, slots, sink => rest.writes skip slots.2 sink
  | _, .cons field rest, 0, slots, sink =>
    let w := field.write slots.1 sink
    ⟨field, slots.1, sink⟩ ::
      if w.progress.isAdvance then rest.writes 0 slots.2 w.sink.nextField else []

/-- The calls that a call on a message makes on its fields. -/
def Layout.fieldWrites : {R : Type} → Layout R → R → Sink → List FieldWrite
  | _, .message type fields _, record, sink =>
    let header := writeHeaderOnce type fields.count record.flags sink
    if fields.ready record.slots && header.progress.isAdvance then
      fields.writes header.sink.stack.top.state record.slots header.sink
    else []

namespace FieldWrite

/-- What comes of a call on a field. -/
def writing (c : FieldWrite) : Writing := c.field.write c.slot c.sink

/-- The calls on messages that a call on a field makes. -/
def messages (c : FieldWrite) : List WriteCall := c.field.messageWrites c.slot c.sink

/-- The next call on the field, where this one has come to. -/
def again (c : FieldWrite) (room : Nat) : FieldWrite :=
  ⟨c.field, c.slot, ⟨c.writing.sink.stack, room⟩⟩

end FieldWrite

namespace WriteCall

/-- What comes of a call on a message. -/
def writing (c : WriteCall) : Writing := c.layout.write c.message c.sink

/-- The calls on fields that a call on a message makes. -/
def fields (c : WriteCall) : List FieldWrite := c.layout.fieldWrites c.message c.sink

/-- The next call on the message, where this one has come to. -/
def again (c : WriteCall) (room : Nat) : WriteCall :=
  ⟨c.layout, c.message, ⟨c.writing.sink.stack, room⟩⟩

/-- Whether a call on a message is made within another one. The path holds the calls on the
messages around it, the nearest first. -/
inductive Within (c : WriteCall) : (path : List WriteCall) → WriteCall → Prop
  | self : Within c [] c
  | nested {path : List WriteCall} {outer inner : WriteCall} {field : FieldWrite}
      (houter : Within c path outer) (hfield : field ∈ outer.fields)
      (hinner : inner ∈ field.messages) : Within c (outer :: path) inner

end WriteCall

end Enlistment.Wire
