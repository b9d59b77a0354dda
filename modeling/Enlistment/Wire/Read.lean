import Enlistment.Wire.Layout

/-!
# Reading messages

A message is read field by field into its record. The frame of its depth tells
which field comes next, so a call goes on where the last one stopped, after
running out of octets and after a failure alike.
-/

namespace Enlistment.Wire

/-- Reads an ordinal. One that is out of range leaves the slot alone. -/
def readOrdinal (name : String) (count : Nat) (optional : Bool) (slot : Int8) (src : Source) :
    Reading Int8 :=
  let r := readInt8 slot src
  if r.progress.isAdvance && !ordinalAllowed count optional r.slot then
    ⟨.failed (.invalidOrdinal name r.slot), slot, r.source⟩
  else r

/-- Reads a text field and settles what an absent text means. -/
def readTextField (maxLength : Nat) (onNull : NullText) (slot : TextSlot) (src : Source) :
    Reading TextSlot :=
  match readText maxLength ⟨slot.staged, none⟩ src with
  | ⟨.advance, ⟨staged, some s⟩, src⟩ => ⟨.advance, ⟨staged, some s⟩, src⟩
  | ⟨.advance, ⟨staged, none⟩, src⟩ =>
    match onNull with
    | .keep => ⟨.advance, ⟨staged, none⟩, src⟩
    | .blank => ⟨.advance, ⟨staged, some ""⟩, src⟩
    | .refuse fault => ⟨.failed (.invalidPayload fault), ⟨staged, slot.text⟩, src⟩
  | ⟨progress, ⟨staged, _⟩, src⟩ => ⟨progress, ⟨staged, slot.text⟩, src⟩

/-- The slot of a batch after its array was read: it is handed over when complete. -/
def BatchSlot.store {R : Type} (slot : BatchSlot R) (r : Reading (Option (List R))) :
    Reading (BatchSlot R) :=
  if r.progress.isAdvance then ⟨r.progress, ⟨none, r.slot.getD []⟩, r.source⟩
  else ⟨r.progress, { slot with staged := r.slot }, r.source⟩

mutual
/-- Reads as much of a message as the octets at hand allow. -/
def Layout.read : {R : Type} → Layout R → (maxLength : Nat) → R → Source → Reading R
  | _, .message type fields settle, maxLength, message, src =>
    let h := readHeader type fields.count src
    if h.progress.isAdvance then
      let flags := h.source.stack.top.flags
      let r := fields.read maxLength (-1) h.source.stack.top.state message.slots h.source
      if r.progress.isAdvance then
        let counted := checkFieldCount type fields.count r.source.stack.top.state
        if counted.isAdvance then
          let settled := settle r.slot
          ⟨.ofCheck settled.1, ⟨flags, settled.2⟩, r.source⟩
        else ⟨counted, ⟨flags, r.slot⟩, r.source⟩
      else ⟨r.progress, ⟨flags, r.slot⟩, r.source⟩
    else ⟨h.progress, message, h.source⟩
/-- Reads fields after skipping those already read. `tag` is the last ordinal among
the fields before them. -/
def Fields.read : {S : Type} → Fields S → (maxLength : Nat) → (tag : Int8) → (skip : Nat) → S →
    Source → Reading S
  | _, .nil, _, _, _, slots, src => ⟨.advance, slots, src⟩
  | _, .cons field rest, maxLength, tag, skip + 1, slots, src =>
    (rest.read maxLength (field.tag slots.1 tag) skip slots.2 src).map fun s => (slots.1, s)
  | _, .cons field rest, maxLength, tag, 0, slots, src =>
    let r := field.read maxLength tag slots.1 src
    if r.progress.isAdvance then
      (rest.read maxLength (field.tag r.slot tag) 0 slots.2
        { r.source with stack := r.source.stack.nextField }).map fun s => (r.slot, s)
    else r.map fun a => (a, slots.2)
/-- Reads as much of a field as the octets at hand allow. -/
def Field.read : {A : Type} → Field A → (maxLength : Nat) → (tag : Int8) → A → Source → Reading A
  | _, .flag, _, _, slot, src => readBool slot src
  | _, .ordinal name count optional _, _, _, slot, src => readOrdinal name count optional slot src
  | _, .int32, _, _, slot, src => readInt32 slot src
  | _, .int64, _, _, slot, src => readInt64 slot src
  | _, .uint128, _, _, slot, src => readUInt128 slot src
  | _, .bytes, maxLength, _, slot, src => readBytes maxLength slot src
  | _, .text onNull, maxLength, _, slot, src => readTextField maxLength onNull slot src
  | _, .longs, maxLength, _, slot, src =>
    (readLongs maxLength (some slot) src).map fun items => items.getD []
  | _, .optional layout, maxLength, _, slot, src =>
    readMessage layout.create (layout.read maxLength) slot src
  | _, .required name layout, maxLength, _, slot, src =>
    readRequired layout.create layout.blank (layout.read maxLength) name slot src
  | _, .array layout, maxLength, _, slot, src =>
    readMessages maxLength layout.create (layout.read maxLength) slot src
  | _, .batch layout, maxLength, _, slot, src =>
    slot.store (readMessages maxLength layout.create (layout.read maxLength) slot.staged src)
  | _, .keys layout, maxLength, _, slot, src =>
    (readMessages maxLength layout.create (layout.read maxLength) slot.inbound src).map
      fun keys => { slot with inbound := keys }
  | _, .values selector value invocation, maxLength, tag, slot, src =>
    if tag = selector then
      (readMessages maxLength invocation.create (invocation.read maxLength)
        slot.inboundInvocations src).map fun items => { slot with inboundInvocations := items }
    else
      (readMessages maxLength value.create (value.read maxLength) slot.inboundValues src).map
        fun items => { slot with inboundValues := items }
end

end Enlistment.Wire
