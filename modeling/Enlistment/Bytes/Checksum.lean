import Enlistment.Bytes

/-!
# The IEEE checksum

CRC-32 with the reflected polynomial `0xEDB88320`, all bits set before the first
octet and inverted after the last one.
-/

namespace Enlistment.Bytes

/-- The remainder after one more bit. -/
def checksumBit (r : UInt32) : UInt32 :=
  if r &&& 1 = 1 then (r >>> 1) ^^^ 0xEDB88320 else r >>> 1

/-- The remainder after one more octet. -/
def checksumOctet (r : UInt32) (b : UInt8) : UInt32 :=
  Nat.repeat checksumBit 8 (r ^^^ b.toUInt32)

/-- The CRC-32 of a byte string. -/
def checksum (bs : Bytes) : UInt32 :=
  bs.foldl checksumOctet 0xFFFFFFFF ^^^ 0xFFFFFFFF

end Enlistment.Bytes
