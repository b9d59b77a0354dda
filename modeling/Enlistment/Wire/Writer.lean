import Enlistment.Bytes.Text
import Enlistment.Wire.Frame
import Enlistment.Wire.Header
import Enlistment.Wire.Progress

/-!
# Writing units

A fixed unit is written whole or not at all. Byte strings are cut wherever the
room ends, and arrays between or inside their elements.
-/

namespace Enlistment.Wire

/-- What a writer works on: its frames and the room left. -/
structure Sink where
  stack : FrameStack
  room : Nat
  deriving DecidableEq, Repr

/-- The sink with another frame at the current depth. -/
def Sink.modifyTop (sink : Sink) (f : Frame → Frame) : Sink :=
  { sink with stack := sink.stack.modifyTop f }

/-- The outcome of writing: the octets written by this call, and the sink. -/
structure Writing where
  progress : Progress
  emitted : Bytes
  sink : Sink
  deriving DecidableEq, Repr

namespace Writing

/-- Nothing is left to write. -/
def done (sink : Sink) : Writing := ⟨.advance, [], sink⟩

/-- Nothing is written. -/
def stop (progress : Progress) (sink : Sink) : Writing := ⟨progress, [], sink⟩

/-- Goes on with another unit as soon as this one is complete. -/
def andThen (w : Writing) (next : Sink → Writing) : Writing :=
  if w.progress.isAdvance then
    let v := next w.sink
    ⟨v.progress, w.emitted ++ v.emitted, v.sink⟩
  else w

end Writing

/-- Writes octets that stay together. -/
def put (bs : Bytes) (sink : Sink) : Writing :=
  if sink.room < bs.length then .stop .incomplete sink
  else ⟨.advance, bs, { sink with room := sink.room - bs.length }⟩

/-- Writes a truth value. -/
def writeBool (b : Bool) : Sink → Writing := put [if b then 1 else 0]

/-- Writes a number of 8 bits. -/
def writeInt8 (n : Int8) : Sink → Writing := put [n.toUInt8]

/-- Writes a number of 32 bits. -/
def writeInt32 (n : Int32) : Sink → Writing := put (int32Bytes n)

/-- Writes a number of 64 bits. -/
def writeInt64 (n : Int64) : Sink → Writing := put (int64Bytes n)

/-- Writes a number of 128 bits. -/
def writeUInt128 (n : BitVec 128) : Sink → Writing := put (uint128Bytes n)

/-- Writes a header. -/
def writeHeader (type : UInt16) (fieldCount : Nat) (flags : UInt8) : Sink → Writing :=
  put (headerBytes type fieldCount flags)

/-- Writes the header of a message, once. -/
def writeHeaderOnce (type : UInt16) (fieldCount : Nat) (flags : UInt8) (sink : Sink) : Writing :=
  if sink.stack.top.headerDone then .done sink
  else (writeHeader type fieldCount flags sink).andThen fun sink =>
    .done { sink with stack := sink.stack.headerWritten }

/-- Writes a length, once, and then the contents. -/
def writeSized (length : Option Nat) (contents : Sink → Writing) (sink : Sink) : Writing :=
  if sink.stack.top.fieldStarted then contents sink
  else
    match encodeLength length with
    | .error e => .stop (.failed e) sink
    | .ok bs => (put bs sink).andThen fun sink =>
      contents (sink.modifyTop fun f => { f with fieldStarted := true })

/-- Writes as much of the rest of a byte string as there is room for. -/
def drainBytes (bs : Bytes) (sink : Sink) : Writing :=
  let chunk := (bs.drop sink.stack.top.position).take sink.room
  let position := sink.stack.top.position + chunk.length
  ⟨.ofComplete (bs.length ≤ position), chunk,
    { stack := sink.stack.modifyTop fun f => { f with position := position }
      room := sink.room - chunk.length }⟩

/-- Writes a byte string that may be absent. -/
def writeBytes (value : Option Bytes) : Sink → Writing :=
  writeSized (value.map List.length) fun sink =>
    match value with
    | none => .done sink
    | some bs => drainBytes bs sink

/-- Writes a text that may be absent. -/
def writeText (value : Option String) : Sink → Writing :=
  writeBytes (value.map Bytes.ofText)

/-- Writes the given elements of an array one after the other. -/
def writeEach {A : Type} (write : A → Sink → Writing) : List A → Sink → Writing
  | [], sink => .done sink
  | item :: rest, sink =>
    (write item sink).andThen fun sink =>
      writeEach write rest (sink.modifyTop fun f => { f with position := f.position + 1 })

/-- Writes an array that may be absent. -/
def writeArray {A : Type} (write : A → Sink → Writing) (value : Option (List A)) :
    Sink → Writing :=
  writeSized (value.map List.length) fun sink =>
    match value with
    | none => .done sink
    | some items => writeEach write (items.drop sink.stack.top.position) sink

/-- Writes an array of numbers of 64 bits. -/
def writeLongs (value : Option (List Int64)) : Sink → Writing := writeArray writeInt64 value

/-- Writes a nested message, one level down. -/
def writeNested {R : Type} (write : R → Sink → Writing) (message : R) (sink : Sink) : Writing :=
  let w := write message { sink with stack := sink.stack.enter }
  { w with sink := { w.sink with stack := w.sink.stack.leave w.progress.isAdvance } }

/-- Writes a nested message that may be absent. -/
def writeMessage {R : Type} (write : R → Sink → Writing) : Option R → Sink → Writing
  | none, sink => put nullBytes sink
  | some message, sink => writeNested write message sink

/-- Writes an array of messages that may be absent. -/
def writeMessages {R : Type} (write : R → Sink → Writing) : Option (List R) → Sink → Writing :=
  writeArray (writeNested write)

end Enlistment.Wire
