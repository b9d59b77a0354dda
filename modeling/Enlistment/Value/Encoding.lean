import Enlistment.Bytes.Text
import Enlistment.Value
import Enlistment.Value.Varint

/-!
# Binary form of values

A value is written as the index of its kind followed by its contents. Text and
byte strings carry their length, objects their class name and the number of their
fields. Reading stops after one value and leaves the rest alone.
-/

namespace Enlistment

/-- Why no value could be read. -/
inductive DecodeError where
  | unexpectedEnd (additional : Nat)
  | invalidBoolean (b : UInt8)
  | invalidText (fault : Bytes.TextFault)
  | unknownVariant (index : Nat)
  | invalidIntegerType (expected found : IntegerType)
  deriving DecidableEq, Repr

namespace DecodeError

/-- A fault in a number, as a fault in the value that holds it. -/
def ofVarint : Varint.Fault → DecodeError
  | .unexpectedEnd additional => unexpectedEnd additional
  | .invalidType expected found => invalidIntegerType expected found

/-- The wording of the length of an ill-formed sequence. -/
def faultLengthText : Option Nat → String
  | none => "None"
  | some n => "Some(" ++ toString n ++ ")"

/-- The wording of a decoding fault. -/
def message : DecodeError → String
  | unexpectedEnd additional =>
    "UnexpectedEnd \x7b additional: " ++ toString additional ++ " \x7d"
  | invalidBoolean b => "InvalidBooleanValue(" ++ toString b ++ ")"
  | invalidText fault =>
    "Utf8 \x7b inner: Utf8Error \x7b valid_up_to: " ++ toString fault.validUpTo ++
      ", error_len: " ++ faultLengthText fault.faultLength ++ " \x7d \x7d"
  | unknownVariant index =>
    "OtherString(\"invalid value: integer `" ++ toString index ++
      "`, expected variant index 0 <= i < 6\")"
  | invalidIntegerType expected found =>
    "InvalidIntegerType \x7b expected: " ++ expected.name ++ ", found: " ++ found.name ++ " \x7d"

end DecodeError

namespace Value

/-- The octets of a text behind their number. -/
def encodeText (s : String) : Bytes :=
  Varint.encode (Bytes.ofText s).length ++ Bytes.ofText s

mutual
/-- The binary form of a value. -/
def encode : Value → Bytes
  | null => [0]
  | bool b => [1, if b then 1 else 0]
  | int n => 2 :: Varint.encode (Varint.zigzag n)
  | text s => 3 :: encodeText s
  | bytes bs => 4 :: (Varint.encode bs.length ++ bs)
  | object className fields =>
    5 :: (encodeText className ++ Varint.encode fields.length ++ encodeFields fields)
/-- The binary form of a list of fields. -/
def encodeFields : List (String × Value) → Bytes
  | [] => []
  | (name, v) :: rest => encodeText name ++ encode v ++ encodeFields rest
end

/-- Reads a number. -/
def decodeNumber (kind : Varint.Kind) (bs : Bytes) : Except DecodeError (Nat × Bytes) :=
  (Varint.decode kind bs).mapError DecodeError.ofVarint

/-- Reads a text. -/
def decodeText (bs : Bytes) : Except DecodeError (String × Bytes) := do
  let (length, bs) ← decodeNumber .textLength bs
  if bs.length < length then
    .error (.unexpectedEnd (length - bs.length))
  else
    match Bytes.toText? (bs.take length) with
    | some s => .ok (s, bs.drop length)
    | none => .error (.invalidText ((Bytes.textFault (bs.take length)).getD ⟨0, none⟩))

/-- Reads a list of octets, one after the other. -/
def decodeOctets (bs : Bytes) : Except DecodeError (Bytes × Bytes) := do
  let (length, bs) ← decodeNumber .listLength bs
  if bs.length < length then .error (.unexpectedEnd 1)
  else .ok (bs.take length, bs.drop length)

/-- Reads named fields with a given reader of values. -/
def decodeFields (value : Bytes → Except DecodeError (Value × Bytes)) :
    (count : Nat) → Bytes → Except DecodeError (List (String × Value) × Bytes)
  | 0, bs => .ok ([], bs)
  | count + 1, bs => do
    let (name, bs) ← decodeText bs
    let (v, bs) ← value bs
    let (rest, bs) ← decodeFields value count bs
    .ok ((name, v) :: rest, bs)

/-- Reads a value in which fewer than `depth` objects are nested. -/
def decodeNested : (depth : Nat) → Bytes → Except DecodeError (Value × Bytes)
  | 0, _ => .error (.unexpectedEnd 1)
  | depth + 1, bs => do
    let (index, bs) ← decodeNumber .variantIndex bs
    match index, bs with
    | 0, bs => .ok (null, bs)
    | 1, [] => .error (.unexpectedEnd 1)
    | 1, b :: bs =>
      if b = 0 then .ok (bool false, bs)
      else if b = 1 then .ok (bool true, bs)
      else .error (.invalidBoolean b)
    | 2, bs => do
      let (n, bs) ← decodeNumber .signed bs
      .ok (int (Varint.unzigzag n), bs)
    | 3, bs => do
      let (s, bs) ← decodeText bs
      .ok (text s, bs)
    | 4, bs => do
      let (octets, bs) ← decodeOctets bs
      .ok (bytes octets, bs)
    | 5, bs => do
      let (className, bs) ← decodeText bs
      let (count, bs) ← decodeNumber .listLength bs
      let (fields, bs) ← decodeFields (decodeNested depth) count bs
      .ok (object className fields, bs)
    | index, _ => .error (.unknownVariant index)

/-- Reads one value and gives the octets after it. Every object takes up at least
one octet, so the length of the input bounds the nesting. -/
def decodeWithRest (bs : Bytes) : Except DecodeError (Value × Bytes) :=
  decodeNested (bs.length + 1) bs

/-- Reads one value from the start of a byte string. -/
def decode (bs : Bytes) : Except DecodeError Value :=
  (decodeWithRest bs).map Prod.fst

end Value

end Enlistment
