import Enlistment.Message.Draft

/-!
# Decoding messages

A decoder is fed octets cut in any way and gives the messages in them in order.
Octets it could not use yet are kept for the next call. After a failure it keeps
all of its octets, together with the progress made so far.
-/

namespace Enlistment

open Wire

/-- Puts messages of the accepted types together from octets. -/
structure Decoder where
  accepted : List MessageType
  maxLength : Nat := defaultMaxLength
  stack : FrameStack := {}
  pending : Bytes := []
  current : Option Draft := none

namespace Decoder

/-- Adds octets. -/
def feed (d : Decoder) (bs : Bytes) : Decoder := { d with pending := d.pending ++ bs }

/-- The message being read; a new one as soon as its type is known. -/
def start (d : Decoder) : Except CodecError (Option Draft) :=
  match d.current with
  | some draft => .ok (some draft)
  | none =>
    if d.pending.length < 2 then .ok none
    else
      let code := uint16Of (d.pending.take 2)
      match MessageType.ofCode? d.accepted code with
      | none => .error (.unknownType code)
      | some t => .ok (some (.blank t))

/-- The next message, if its octets are there. -/
def next (d : Decoder) : Except CodecError (Option Draft) × Decoder :=
  match d.start with
  | .error e => (.error e, d)
  | .ok none => (.ok none, d)
  | .ok (some draft) =>
    match draft.read d.maxLength ⟨d.stack, d.pending⟩ with
    | ⟨.failed e, draft, src⟩ => (.error e, { d with stack := src.stack, current := some draft })
    | ⟨.incomplete, draft, src⟩ =>
      (.ok none, { d with stack := src.stack, pending := src.input, current := some draft })
    | ⟨.advance, draft, src⟩ =>
      (.ok (some draft), { d with stack := {}, pending := src.input, current := none })

/-- The first message found while pieces are fed one by one. -/
def firstOf (d : Decoder) : List Bytes → Except CodecError (Option Draft) × Decoder
  | [] => (.ok none, d)
  | piece :: rest =>
    match (d.feed piece).next with
    | (.ok none, d) => d.firstOf rest
    | r => r

/-- The messages at hand up to the first failure, at most `fuel` of them. -/
def drain : (fuel : Nat) → Decoder → List Draft × Except CodecError Unit × Decoder
  | 0, d => ([], .ok (), d)
  | fuel + 1, d =>
    match d.next with
    | (.error e, d) => ([], .error e, d)
    | (.ok none, d) => ([], .ok (), d)
    | (.ok (some draft), d) => let r := drain fuel d; (draft :: r.1, r.2)

/-- All messages at hand up to the first failure. Each message but the first takes at
least one octet. -/
def nextAll (d : Decoder) : List Draft × Except CodecError Unit × Decoder :=
  drain (d.pending.length + 2) d

end Decoder

namespace Bytes

/-- At most `count` pieces of `size` octets. -/
def splitPieces (size : Nat) : (count : Nat) → Bytes → List Bytes
  | 0, _ => []
  | _, [] => []
  | count + 1, bs => bs.take size :: splitPieces size count (bs.drop size)

/-- The pieces of `size` octets; the last one may be shorter. -/
def pieces (size : Nat) (bs : Bytes) : List Bytes := splitPieces (max size 1) bs.length bs

end Bytes

/-- The first message of a byte string, read in pieces. -/
def decodeChunked (accepted : List MessageType) (bs : Bytes) (chunk : Nat) :
    Except CodecError Draft :=
  match ({ accepted } : Decoder).firstOf (bs.pieces chunk) with
  | (.error e, _) => .error e
  | (.ok (some draft), _) => .ok draft
  | (.ok none, d) => .error (.invalidPayload (.truncated d.pending.length))

end Enlistment
