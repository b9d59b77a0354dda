import Enlistment.Wire.Reader
import Enlistment.Wire.Writer

/-!
# Layouts

A layout describes the wire form of one type of message: its type number, its
fields in order, and what is settled once all of them are there. Layouts nest, so
reading, writing and every statement about all messages go by recursion on them.
The type of a layout is the type of the records it describes, and a record holds
one slot for each field.
-/

namespace Enlistment.Wire

/-- A message on the wire: the flags of its header and the slots of its fields. -/
structure Record (S : Type) where
  flags : UInt8
  slots : S
  deriving DecidableEq

/-- What an absent text means to a field. -/
inductive NullText where
  /-- The text is absent. -/
  | keep
  /-- The text is empty. -/
  | blank
  /-- The message is malformed. -/
  | refuse (fault : PayloadFault)

/-- A slot for an array of messages that is handed over as a whole: elements are
staged until the array is complete. -/
structure BatchSlot (R : Type) where
  staged : Option (List R) := none
  settled : List R := []

/-- A slot for the keys of a batch of rows. Keys that come in are set aside until
the whole message can be checked. -/
structure KeysSlot (R : Type) where
  inbound : Option (List R) := none
  settled : Option (List R) := none
  /-- There are rows that were never brought into wire form. -/
  unconverted : Bool := false

/-- A slot for what goes with the keys of a batch of rows: values or invocations. -/
structure ValuesSlot (R Q : Type) where
  inboundValues : Option (List R) := none
  inboundInvocations : Option (List Q) := none
  settled : Option (List R ⊕ List Q) := none

mutual
/-- The wire form of the messages with records `R`. -/
inductive Layout : Type → Type 1 where
  | message {S : Type} (type : UInt16) (fields : Fields S)
      (settle : S → Except CodecError Unit × S) : Layout (Record S)
/-- The wire form of a list of fields with slots `S`. -/
inductive Fields : Type → Type 1 where
  | nil : Fields Unit
  | cons {A S : Type} (field : Field A) (rest : Fields S) : Fields (A × S)
/-- The wire form of a field with slot `A`. -/
inductive Field : Type → Type 1 where
  | flag : Field Bool
  /-- A position in a list of `count` names; -1 if it may be absent. -/
  | ordinal (name : String) (count : Nat) (optional : Bool) (blank : Int8) : Field Int8
  | int32 : Field Int32
  | int64 : Field Int64
  | uint128 : Field (BitVec 128)
  | bytes : Field (Option Bytes)
  | text (onNull : NullText) : Field TextSlot
  /-- An array of numbers; an absent one is empty. -/
  | longs : Field (List Int64)
  | optional {R : Type} (layout : Layout R) : Field (Option R)
  | required {R : Type} (name : String) (layout : Layout R) : Field R
  | array {R : Type} (layout : Layout R) : Field (Option (List R))
  /-- An array that is handed over as a whole; an absent one is empty. -/
  | batch {R : Type} (layout : Layout R) : Field (BatchSlot R)
  | keys {R : Type} (layout : Layout R) : Field (KeysSlot R)
  /-- Invocations if the ordinal before them is `selector`, and values otherwise. -/
  | values {R Q : Type} (selector : Int8) (value : Layout R) (invocation : Layout Q) :
      Field (ValuesSlot R Q)
end

/-- A layout that has nothing to settle. -/
def Layout.plain {S : Type} (type : UInt16) (fields : Fields S) : Layout (Record S) :=
  .message type fields fun s => (.ok (), s)

/-- The type number of the messages of a layout. -/
def Layout.type : {R : Type} → Layout R → UInt16
  | _, .message type _ _ => type

/-- The number of fields in a list. -/
def Fields.count : {S : Type} → Fields S → Nat
  | _, .nil => 0
  | _, .cons _ rest => rest.count + 1

/-- The number of fields of a layout. -/
def Layout.fieldCount : {R : Type} → Layout R → Nat
  | _, .message _ fields _ => fields.count

mutual
/-- The record of a message that has not been read. -/
def Layout.blank : {R : Type} → Layout R → R
  | _, .message _ fields _ => ⟨0, fields.blank⟩
/-- The slots of fields that have not been read. -/
def Fields.blank : {S : Type} → Fields S → S
  | _, .nil => ()
  | _, .cons field rest => (field.blank, rest.blank)
/-- The slot of a field that has not been read. -/
def Field.blank : {A : Type} → Field A → A
  | _, .flag => false
  | _, .ordinal _ _ _ blank => blank
  | _, .int32 => 0
  | _, .int64 => 0
  | _, .uint128 => 0
  | _, .bytes => none
  | _, .text .keep => {}
  | _, .text _ => { text := some "" }
  | _, .longs => []
  | _, .optional _ => none
  | _, .required _ layout => layout.blank
  | _, .array _ => none
  | _, .batch _ => {}
  | _, .keys _ => {}
  | _, .values _ _ _ => {}
end

/-- A message to be filled, if the announced type is the one of the layout. -/
def Layout.create {R : Type} (layout : Layout R) (type : UInt16) : Option R :=
  if type = layout.type then some layout.blank else none

/-- Whether an ordinal may stand in a field. -/
def ordinalAllowed (count : Nat) (optional : Bool) (n : Int8) : Bool :=
  (optional && n == -1) || (0 ≤ n && n.toInt < count)

/-- The last ordinal before the next field, given the one before this field. -/
def Field.tag : {A : Type} → Field A → A → Int8 → Int8
  | _, .ordinal _ _ _ _, n, _ => n
  | _, _, _, tag => tag

end Enlistment.Wire
