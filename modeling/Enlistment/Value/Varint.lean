import Enlistment.Bytes

/-!
# Variable-length integers

Numbers below 251 are a single octet. Larger ones are a tag octet that names the
width, 251 for two, 252 for four and 253 for eight octets, and then the number
itself. The writer takes the shortest form and the reader takes any. Signed
numbers alternate around zero: 0, -1, 1, -2, and so on.
-/

namespace Enlistment

/-- The integer types a reader can name when it refuses a tag octet. -/
inductive IntegerType where
  | i32 | i64 | i128 | u32 | u64 | u128 | usize | reserved
  deriving DecidableEq, Repr

/-- The name of an integer type. -/
def IntegerType.name : IntegerType → String
  | i32 => "I32"
  | i64 => "I64"
  | i128 => "I128"
  | u32 => "U32"
  | u64 => "U64"
  | u128 => "U128"
  | usize => "Usize"
  | reserved => "Reserved"

namespace Varint

/-- Why no number could be read. -/
inductive Fault where
  | unexpectedEnd (additional : Nat)
  | invalidType (expected found : IntegerType)
  deriving DecidableEq, Repr

/-- The shortest form of a number below `2 ^ 64`. -/
def encode (n : Nat) : Bytes :=
  if n < 251 then [UInt8.ofNat n]
  else if n < 0x10000 then 251 :: Bytes.littleEndian 2 n
  else if n < 0x100000000 then 252 :: Bytes.littleEndian 4 n
  else 253 :: Bytes.littleEndian 8 n

/-- The unsigned number that stands for a signed one. -/
def zigzag (n : Int64) : Nat :=
  if 0 ≤ n.toInt then (2 * n.toInt).toNat else (-2 * n.toInt - 1).toNat

/-- The signed number that an unsigned one stands for. -/
def unzigzag (n : Nat) : Int64 :=
  if n % 2 = 0 then Int64.ofNat (n / 2) else Int64.ofInt (-(n / 2 : Nat) - 1)

/-- The kinds of number a reader asks for. -/
inductive Kind where
  | variantIndex
  | signed
  | textLength
  | listLength
  deriving DecidableEq, Repr

/-- The type the reader names when it asks for a number of this kind while `left`
octets are left. The two wide kinds are named by their narrow type as soon as a
widest number would fit. -/
def Kind.expected (left : Nat) : Kind → IntegerType
  | variantIndex => .u32
  | signed => if 9 ≤ left then .i32 else .i64
  | textLength => if 9 ≤ left then .u32 else .u64
  | listLength => .usize

/-- The type a tag octet names to a reader of this kind. -/
def Kind.found (kind : Kind) (tag : UInt8) : IntegerType :=
  if tag = 253 then (if kind = signed then .i64 else .u64)
  else if tag = 254 then (if kind = signed then .i128 else .u128)
  else .reserved

/-- Reads a number of `width` octets. -/
def decodeFixed (width : Nat) (bs : Bytes) : Except Fault (Nat × Bytes) :=
  if bs.length < width then .error (.unexpectedEnd (width - bs.length))
  else .ok (Bytes.toNat (bs.take width), bs.drop width)

/-- Reads a number and gives the octets after it. -/
def decode (kind : Kind) : Bytes → Except Fault (Nat × Bytes)
  | [] => .error (.unexpectedEnd 1)
  | tag :: rest =>
    if tag < 251 then .ok (tag.toNat, rest)
    else if tag = 251 then decodeFixed 2 rest
    else if tag = 252 then decodeFixed 4 rest
    else if tag = 253 ∧ kind ≠ .variantIndex then decodeFixed 8 rest
    else .error (.invalidType (kind.expected (rest.length + 1)) (kind.found tag))

end Varint

end Enlistment
