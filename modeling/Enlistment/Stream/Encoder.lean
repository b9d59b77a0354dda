import Enlistment.Message.Draft

/-!
# Encoding messages

An encoder writes messages one after the other into buffers of any size. A message
can also be encoded as a whole through a scratch buffer of fixed size.
-/

namespace Enlistment

open Wire

/-- Writes one message across as many buffers as it needs. -/
structure Encoder where
  stack : FrameStack := {}
  deriving Inhabited

namespace Encoder

/-- Writes the next part of a message into a buffer. After its last part the encoder
is ready for the next message. -/
def encode (e : Encoder) (d : Draft) (room : Nat) : Progress × Bytes × Encoder :=
  let w := d.write ⟨e.stack, room⟩
  (w.progress, w.emitted, if w.progress.isAdvance then {} else ⟨w.sink.stack⟩)

/-- Writes a message into at most `calls` buffers of one size. -/
def encodeParts (d : Draft) (room : Nat) : (calls : Nat) → Encoder → Except CodecError Bytes
  | 0, _ => .error (.invalidPayload (.noProgress room))
  | calls + 1, e =>
    match e.encode d room with
    | (.failed e, _, _) => .error e
    | (.advance, bs, _) => .ok bs
    | (.incomplete, [], _) => .error (.invalidPayload (.noProgress room))
    | (.incomplete, bs, e) => (encodeParts d room calls e).map fun rest => bs ++ rest

end Encoder

namespace Draft

/-- The message, written through a buffer of `room` octets. Every call but the last
writes something, so the number of its octets bounds the number of calls. -/
def encodeThrough (d : Draft) (room : Nat) : Except CodecError Bytes :=
  Encoder.encodeParts d room (d.encode.length + 1) {}

/-- The message, written through a buffer of `chunk` octets or more if that is too few
to hold every unit. -/
def encodeChunked (d : Draft) (chunk : Nat) : Except CodecError Bytes :=
  d.encodeThrough (max chunk minBufferLength)

end Draft

end Enlistment
