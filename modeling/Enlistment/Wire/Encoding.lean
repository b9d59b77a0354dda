import Enlistment.Wire.Layout

/-!
# Plain encoding

The octets of a message in one piece. Writers emit them in parts, whatever the
room they are given.
-/

namespace Enlistment.Wire

/-- The octets of a length field, cut to its width. -/
def lengthBytes : Option Nat → Bytes
  | none => int32Bytes (-1)
  | some n => int32Bytes (Int32.ofNat n)

/-- The octets of a byte string that may be absent. -/
def sizedBytes (value : Option Bytes) : Bytes :=
  lengthBytes (value.map List.length) ++ value.getD []

/-- The octets of an array that may be absent. -/
def arrayBytes {A : Type} (encode : A → Bytes) (value : Option (List A)) : Bytes :=
  lengthBytes (value.map List.length) ++ (value.getD []).flatMap encode

mutual
/-- The octets of a message. -/
def Layout.encode : {R : Type} → Layout R → R → Bytes
  | _, .message type fields _, message =>
    headerBytes type fields.count message.flags ++ fields.encode message.slots
/-- The octets of fields. -/
def Fields.encode : {S : Type} → Fields S → S → Bytes
  | _, .nil, _ => []
  | _, .cons field rest, slots => field.encode slots.1 ++ rest.encode slots.2
/-- The octets of a field. -/
def Field.encode : {A : Type} → Field A → A → Bytes
  | _, .flag, slot => [if slot then 1 else 0]
  | _, .ordinal _ _ _ _, slot => [slot.toUInt8]
  | _, .int32, slot => int32Bytes slot
  | _, .int64, slot => int64Bytes slot
  | _, .uint128, slot => uint128Bytes slot
  | _, .bytes, slot => sizedBytes slot
  | _, .text _, slot => sizedBytes (slot.text.map Bytes.ofText)
  | _, .longs, slot => arrayBytes int64Bytes (some slot)
  | _, .optional layout, slot =>
    match slot with
    | none => nullBytes
    | some message => layout.encode message
  | _, .required _ layout, slot => layout.encode slot
  | _, .array layout, slot => arrayBytes layout.encode slot
  | _, .batch layout, slot => arrayBytes layout.encode (some slot.settled)
  | _, .keys layout, slot => arrayBytes layout.encode slot.settled
  | _, .values _ value invocation, slot =>
    match slot.settled with
    | none => lengthBytes none
    | some (.inl items) => arrayBytes value.encode (some items)
    | some (.inr items) => arrayBytes invocation.encode (some items)
end

end Enlistment.Wire
