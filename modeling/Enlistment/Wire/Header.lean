import Enlistment.Bytes
import Enlistment.Wire.Error

/-!
# Framing of messages

A message starts with a header of six octets: its type, the protocol version, the
number of its fields and its flags. An absent nested message is a reserved type
on its own. Byte strings, text and arrays carry their length, with -1 for absent.
-/

namespace Enlistment.Wire

/-- Version of the field layouts. -/
def protocolVersion : UInt16 := 1

/-- The octets of a header. -/
def headerLength : Nat := 6

/-- The type that stands for an absent nested message. -/
def nullType : UInt16 := 0xFFFF

/-- The flag of a message that carries deployment info. -/
def deploymentFlag : UInt8 := 1

/-- The least buffer that holds every unit that is written as a whole. -/
def minBufferLength : Nat := 16

/-- The longest byte string or array that is accepted unless a reader is given
another limit. -/
def defaultMaxLength : Nat := 16 * 1024 * 1024

/-- The greatest length that fits a length field. -/
def maxWireLength : Nat := 0x7FFFFFFF

/-- The octets of a header. -/
def headerBytes (type : UInt16) (fieldCount : Nat) (flags : UInt8) : Bytes :=
  Bytes.littleEndian 2 type.toNat ++ Bytes.littleEndian 2 protocolVersion.toNat ++
    [UInt8.ofNat fieldCount, flags]

/-- The octets of an absent nested message. -/
def nullBytes : Bytes := Bytes.littleEndian 2 nullType.toNat

/-- The octets of a number of 32 bits. -/
def int32Bytes (n : Int32) : Bytes := Bytes.littleEndian 4 n.toUInt32.toNat

/-- The octets of a number of 64 bits. -/
def int64Bytes (n : Int64) : Bytes := Bytes.littleEndian 8 n.toUInt64.toNat

/-- The octets of a number of 128 bits. -/
def uint128Bytes (n : BitVec 128) : Bytes := Bytes.littleEndian 16 n.toNat

/-- The number whose octets are given. -/
def uint16Of (bs : Bytes) : UInt16 := UInt16.ofNat bs.toNat

/-- The number whose octets are given. -/
def int32Of (bs : Bytes) : Int32 := (UInt32.ofNat bs.toNat).toInt32

/-- The number whose octets are given. -/
def int64Of (bs : Bytes) : Int64 := (UInt64.ofNat bs.toNat).toInt64

/-- The number whose octets are given. -/
def uint128Of (bs : Bytes) : BitVec 128 := BitVec.ofNat 128 bs.toNat

/-- The length field of something that may be absent. -/
def encodeLength : Option Nat → Except CodecError Bytes
  | none => .ok (int32Bytes (-1))
  | some n =>
    if n ≤ maxWireLength then .ok (int32Bytes (Int32.ofNat n)) else .error (.lengthOverflow n)

/-- The length that a length field declares, `none` for absent. -/
def decodeLength (maxLength : Nat) (raw : Int32) : Except CodecError (Option Nat) :=
  if raw = -1 then .ok none
  else if raw < 0 then .error (.invalidLength raw)
  else if maxLength < raw.toInt.toNat then .error (.lengthOverflow raw.toInt.toNat)
  else .ok (some raw.toInt.toNat)

/-- Checks a header against the message it should announce and gives its flags. -/
def checkHeader (type : UInt16) (fieldCount : Nat) (header : Bytes) : Except CodecError UInt8 :=
  let found := uint16Of (header.take 2)
  let version := uint16Of ((header.drop 2).take 2)
  let count := ((header.drop 4).headD 0).toNat
  if found ≠ type then .error (.unexpectedType type found)
  else if version ≠ protocolVersion then .error (.unsupportedVersion version)
  else if count ≠ fieldCount then .error (.fieldCountMismatch type fieldCount count)
  else .ok ((header.drop 5).headD 0)

end Enlistment.Wire
