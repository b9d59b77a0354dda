import Enlistment.Wire.Layout

/-!
# Writing messages

A message is written field by field from its record. As in reading, the frame of
its depth tells which field comes next.
-/

namespace Enlistment.Wire

/-- Whether a field may be written: byte strings have to be there, and keys have to
be in wire form. -/
def Field.ready : {A : Type} → Field A → A → Bool
  | _, .bytes, slot => slot.isSome
  | _, .keys _, slot => !slot.unconverted
  | _, _, _ => true

/-- Whether every field may be written. -/
def Fields.ready : {S : Type} → Fields S → S → Bool
  | _, .nil, _ => true
  | _, .cons field rest, slots => field.ready slots.1 && rest.ready slots.2

mutual
/-- Writes as much of a message as there is room for. -/
def Layout.write : {R : Type} → Layout R → R → Sink → Writing
  | _, .message type fields _, message, sink =>
    if fields.ready message.slots then
      (writeHeaderOnce type fields.count message.flags sink).andThen fun sink =>
        (fields.write sink.stack.top.state message.slots sink).andThen fun sink =>
          .stop (checkFieldCount type fields.count sink.stack.top.state) sink
    else .stop (.failed .notMarshalled) sink
/-- Writes fields after skipping those already written. -/
def Fields.write : {S : Type} → Fields S → (skip : Nat) → S → Sink → Writing
  | _, .nil, _, _, sink => .done sink
  | _, .cons _ rest, skip + 1, slots, sink => rest.write skip slots.2 sink
  | _, .cons field rest, 0, slots, sink =>
    (field.write slots.1 sink).andThen fun sink =>
      rest.write 0 slots.2 { sink with stack := sink.stack.nextField }
/-- Writes as much of a field as there is room for. -/
def Field.write : {A : Type} → Field A → A → Sink → Writing
  | _, .flag, slot, sink => writeBool slot sink
  | _, .ordinal _ _ _ _, slot, sink => writeInt8 slot sink
  | _, .int32, slot, sink => writeInt32 slot sink
  | _, .int64, slot, sink => writeInt64 slot sink
  | _, .uint128, slot, sink => writeUInt128 slot sink
  | _, .bytes, slot, sink => writeBytes slot sink
  | _, .text _, slot, sink => writeText slot.text sink
  | _, .longs, slot, sink => writeLongs (some slot) sink
  | _, .optional layout, slot, sink => writeMessage layout.write slot sink
  | _, .required _ layout, slot, sink => writeNested layout.write slot sink
  | _, .array layout, slot, sink => writeMessages layout.write slot sink
  | _, .batch layout, slot, sink => writeMessages layout.write (some slot.settled) sink
  | _, .keys layout, slot, sink => writeMessages layout.write slot.settled sink
  | _, .values _ value invocation, slot, sink =>
    match slot.settled with
    | none => writeMessages value.write none sink
    | some (.inl items) => writeMessages value.write (some items) sink
    | some (.inr items) => writeMessages invocation.write (some items) sink
end

end Enlistment.Wire
