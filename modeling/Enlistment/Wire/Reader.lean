import Enlistment.Bytes.Text
import Enlistment.Wire.Frame
import Enlistment.Wire.Header
import Enlistment.Wire.Progress

/-!
# Reading units

Every unit is read into a slot. A fixed unit is taken whole or not at all, while
byte strings and arrays fill up over as many calls as it takes. A failed call
keeps the octets it took and whatever it had put into the slot.
-/

namespace Enlistment.Wire

/-- What a reader works on: its frames and the octets not taken yet. -/
structure Source where
  stack : FrameStack
  input : Bytes
  deriving DecidableEq, Repr

/-- The source after some octets were taken. -/
def Source.skip (src : Source) (count : Nat) : Source :=
  { src with input := src.input.drop count }

/-- The source with another frame at the current depth. -/
def Source.modifyTop (src : Source) (f : Frame → Frame) : Source :=
  { src with stack := src.stack.modifyTop f }

/-- The outcome of reading into a slot. -/
structure Reading (A : Type) where
  progress : Progress
  slot : A
  source : Source

/-- The same outcome for a slot that holds the slot read. -/
def Reading.map {A B : Type} (f : A → B) (r : Reading A) : Reading B :=
  ⟨r.progress, f r.slot, r.source⟩

/-- Reads a unit of fixed width. -/
def readFixed {A : Type} (width : Nat) (decode : Bytes → A) (slot : A) (src : Source) : Reading A :=
  if src.input.length < width then ⟨.incomplete, slot, src⟩
  else ⟨.advance, decode (src.input.take width), src.skip width⟩

/-- Reads a truth value; every octet but zero is true. -/
def readBool : Bool → Source → Reading Bool :=
  readFixed 1 fun bs => bs.headD 0 != 0

/-- Reads a number of 8 bits. -/
def readInt8 : Int8 → Source → Reading Int8 :=
  readFixed 1 fun bs => (bs.headD 0).toInt8

/-- Reads a number of 32 bits. -/
def readInt32 : Int32 → Source → Reading Int32 := readFixed 4 int32Of

/-- Reads a number of 64 bits. -/
def readInt64 : Int64 → Source → Reading Int64 := readFixed 8 int64Of

/-- Reads a number of 128 bits. -/
def readUInt128 : BitVec 128 → Source → Reading (BitVec 128) := readFixed 16 uint128Of

/-- Reads the header of a message, once. -/
def readHeader (type : UInt16) (fieldCount : Nat) (src : Source) : Reading Unit :=
  if src.stack.top.headerDone then ⟨.advance, (), src⟩
  else if src.input.length < headerLength then ⟨.incomplete, (), src⟩
  else
    match checkHeader type fieldCount (src.input.take headerLength) with
    | .error e => ⟨.failed e, (), src.skip headerLength⟩
    | .ok flags =>
      ⟨.advance, (), (src.skip headerLength).modifyTop fun f =>
        { f with headerDone := true, flags := flags }⟩

/-- Goes on with a unit whose length is known. -/
def resumeSized {A : Type} (what : String) (fill : Nat → A → Source → Reading A)
    (slot : Option A) (src : Source) : Reading (Option A) :=
  match slot with
  | none => ⟨.failed (.invalidPayload (.clearedMidRead what)), none, src⟩
  | some a => (fill src.stack.top.length a src).map some

/-- Reads a unit behind its length: first the length, then the contents, which
`fill` adds to what the slot holds. -/
def readSized {A : Type} (maxLength : Nat) (what : String) (empty : A)
    (fill : Nat → A → Source → Reading A) (slot : Option A) (src : Source) :
    Reading (Option A) :=
  if src.stack.top.fieldStarted then resumeSized what fill slot src
  else if src.input.length < 4 then ⟨.incomplete, slot, src⟩
  else
    match decodeLength maxLength (int32Of (src.input.take 4)) with
    | .error e => ⟨.failed e, slot, src.skip 4⟩
    | .ok none => ⟨.advance, none, src.skip 4⟩
    | .ok (some length) =>
      resumeSized what fill (some empty)
        ((src.skip 4).modifyTop fun f => { f with fieldStarted := true, length := length })

/-- Adds the octets at hand to a byte string of known length. A string that is longer
already, from an earlier field, takes all of them and is never complete. -/
def fillBytes (length : Nat) (bs : Bytes) (src : Source) : Reading Bytes :=
  let missing := if length < bs.length then src.input.length else length - bs.length
  let filled := bs ++ src.input.take missing
  ⟨.ofComplete (filled.length = length), filled, src.skip missing⟩

/-- Reads a byte string. -/
def readBytes (maxLength : Nat) : Option Bytes → Source → Reading (Option Bytes) :=
  readSized maxLength "byte array" [] fillBytes

/-- The first `count` numbers of 64 bits. -/
def takeLongs : (count : Nat) → Bytes → List Int64
  | 0, _ => []
  | count + 1, bs => int64Of (bs.take 8) :: takeLongs count (bs.drop 8)

/-- Adds the whole numbers at hand to an array of known length. -/
def fillLongs (length : Nat) (items : List Int64) (src : Source) : Reading (List Int64) :=
  let count := min (length - items.length) (src.input.length / 8)
  let filled := items ++ takeLongs count src.input
  ⟨.ofComplete (length ≤ filled.length), filled, src.skip (8 * count)⟩

/-- Reads an array of numbers of 64 bits. -/
def readLongs (maxLength : Nat) : Option (List Int64) → Source → Reading (Option (List Int64)) :=
  readSized maxLength "long array" [] fillLongs

/-- A slot for text. The octets are collected before they are taken for text. -/
structure TextSlot where
  staged : Option Bytes := none
  text : Option String := none
  deriving DecidableEq, Repr, Inhabited

/-- The slot of a text that is there. -/
def TextSlot.ofString (s : String) : TextSlot := { text := some s }

/-- The text of a slot, empty if there is none. -/
def TextSlot.string (slot : TextSlot) : String := slot.text.getD ""

/-- Reads a text. -/
def readText (maxLength : Nat) (slot : TextSlot) (src : Source) : Reading TextSlot :=
  match readBytes maxLength slot.staged src with
  | ⟨.advance, none, src⟩ => ⟨.advance, ⟨none, none⟩, src⟩
  | ⟨.advance, some bs, src⟩ =>
    match bs.toText? with
    | some s => ⟨.advance, ⟨none, some s⟩, src⟩
    | none => ⟨.failed (.invalidPayload .notUtf8), ⟨none, slot.text⟩, src⟩
  | ⟨progress, staged, src⟩ => ⟨progress, ⟨staged, slot.text⟩, src⟩

/-- Reads into a nested message, one level down. -/
def readNested {R : Type} (read : R → Source → Reading R) (message : R) (src : Source) :
    Reading R :=
  let r := read message { src with stack := src.stack.enter }
  { r with source := { r.source with stack := r.source.stack.leave r.progress.isAdvance } }

/-- Goes on with a nested message that has been announced. -/
def resumeMessage {R : Type} (read : R → Source → Reading R) (slot : Option R) (src : Source) :
    Reading (Option R) :=
  match slot with
  | none => ⟨.failed (.invalidPayload (.clearedMidRead "message")), none, src⟩
  | some message =>
    let r := readNested read message src
    ⟨r.progress, some r.slot,
      if r.progress.isAdvance then r.source.modifyTop fun f => { f with messageStarted := false }
      else r.source⟩

/-- Reads a nested message that may be absent. `create` gives the message to fill
for an announced type. -/
def readMessage {R : Type} (create : UInt16 → Option R) (read : R → Source → Reading R)
    (slot : Option R) (src : Source) : Reading (Option R) :=
  if src.stack.top.messageStarted then resumeMessage read slot src
  else if src.input.length < 2 then ⟨.incomplete, slot, src⟩
  else
    let type := uint16Of (src.input.take 2)
    if type = nullType then ⟨.advance, none, src.skip 2⟩
    else
      match create type with
      | none => ⟨.failed (.unknownType type), slot, src⟩
      | some message =>
        resumeMessage read (some message)
          (src.modifyTop fun f => { f with messageStarted := true })

/-- Reads a nested message that must be there. A failure leaves the slot blank. -/
def readRequired {R : Type} (create : UInt16 → Option R) (blank : R)
    (read : R → Source → Reading R) (field : String) (slot : R) (src : Source) : Reading R :=
  match readMessage create read (some slot) src with
  | ⟨.failed e, _, src⟩ => ⟨.failed e, blank, src⟩
  | ⟨.advance, none, src⟩ => ⟨.failed (.invalidPayload (.nullField field)), blank, src⟩
  | ⟨progress, message, src⟩ => ⟨progress, message.getD blank, src⟩

/-- Goes on with the last element of an array, which has been announced. -/
def resumeElement {R : Type} (read : R → Source → Reading R) (items : List R) (src : Source) :
    Reading (List R) :=
  match items.getLast? with
  | none => ⟨.failed (.invalidPayload .elementMissing), items, src⟩
  | some item =>
    let r := readNested read item src
    ⟨r.progress, items.dropLast ++ [r.slot],
      if r.progress.isAdvance then
        r.source.modifyTop fun f => { f with messageStarted := false, position := f.position + 1 }
      else r.source⟩

/-- Reads one more element of an array. -/
def readElement {R : Type} (create : UInt16 → Option R) (read : R → Source → Reading R)
    (items : List R) (src : Source) : Reading (List R) :=
  if src.stack.top.messageStarted then resumeElement read items src
  else if src.input.length < 2 then ⟨.incomplete, items, src⟩
  else
    let type := uint16Of (src.input.take 2)
    if type = nullType then ⟨.failed .nullElement, items, src⟩
    else
      match create type with
      | none => ⟨.failed (.unknownType type), items, src⟩
      | some item =>
        resumeElement read (items ++ [item])
          (src.modifyTop fun f => { f with messageStarted := true })

/-- Reads `count` more elements of an array. -/
def readElements {R : Type} (create : UInt16 → Option R) (read : R → Source → Reading R) :
    (count : Nat) → List R → Source → Reading (List R)
  | 0, items, src => ⟨.advance, items, src⟩
  | count + 1, items, src =>
    let r := readElement create read items src
    if r.progress.isAdvance then readElements create read count r.slot r.source else r

/-- Reads an array of messages. -/
def readMessages {R : Type} (maxLength : Nat) (create : UInt16 → Option R)
    (read : R → Source → Reading R) : Option (List R) → Source → Reading (Option (List R)) :=
  readSized maxLength "message array" [] fun length items src =>
    readElements create read (length - src.stack.top.position) items src

end Enlistment.Wire
