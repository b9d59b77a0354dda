import Enlistment.Operation

/-!
# Malformed wire data

What can go wrong while messages are read from or written to the wire. Running
out of bytes or of room is not among it: a call that does so is simply repeated.
-/

namespace Enlistment.Wire

/-- What is wrong with the contents of a message whose framing is sound. -/
inductive PayloadFault where
  | notUtf8
  | clearedMidRead (slot : String)
  | elementMissing
  | nullField (field : String)
  | notBaseField (state : Nat)
  | invocationWithoutProcessor
  | filterWithoutOperand
  | filterWithoutClass
  | valuesWithoutKeys
  | valuesPresent (op : Operation)
  | valuesMissing (op : Option Operation)
  | valueCount (keys values : Nat)
  | noProgress (room : Nat)
  | truncated (left : Nat)
  | described (reason : String)
  deriving DecidableEq, Repr

/-- Malformed or unexpected wire data. -/
inductive CodecError where
  | unexpectedType (expected found : UInt16)
  | unknownType (found : UInt16)
  | unsupportedVersion (found : UInt16)
  | fieldCountMismatch (type : UInt16) (expected found : Nat)
  | nullElement
  | lengthOverflow (length : Nat)
  | invalidLength (length : Int32)
  | invalidOrdinal (field : String) (value : Int8)
  | notMarshalled
  | invalidPayload (fault : PayloadFault)
  deriving DecidableEq, Repr

/-- The wording of an operation that may be absent. -/
def operationText : Option Operation → String
  | none => "None"
  | some op => "Some(" ++ op.name ++ ")"

/-- The wording of a fault in the contents. -/
def PayloadFault.message : PayloadFault → String
  | notUtf8 => "string is not valid utf-8"
  | clearedMidRead slot => slot ++ " slot cleared mid-read"
  | elementMissing => "message array element missing"
  | nullField field => field ++ " is null"
  | notBaseField state => "state " ++ toString state ++ " is not a base field"
  | invocationWithoutProcessor => "invoke value without processor"
  | filterWithoutOperand => "contains-value filter without operand"
  | filterWithoutClass => "custom filter without class"
  | valuesWithoutKeys => "values without keys"
  | valuesPresent op => "values present for " ++ op.name
  | valuesMissing op => "values missing for " ++ operationText op
  | valueCount keys values => toString keys ++ " keys but " ++ toString values ++ " values"
  | noProgress room => "no progress with a " ++ toString room ++ " byte buffer"
  | truncated left => "truncated message: " ++ toString left ++ " bytes left undecoded"
  | described reason => reason

/-- The wording of a wire error. -/
def CodecError.message : CodecError → String
  | unexpectedType expected found =>
    "unexpected message type: expected " ++ toString expected ++ ", found " ++ toString found
  | unknownType found => "unknown message type " ++ toString found
  | unsupportedVersion found => "unsupported protocol version " ++ toString found
  | fieldCountMismatch type expected found =>
    "field count mismatch for message " ++ toString type ++ ": expected " ++ toString expected ++
      ", found " ++ toString found
  | nullElement => "null element in message array"
  | lengthOverflow length => "length " ++ toString length ++ " exceeds the wire limit"
  | invalidLength length => "invalid length prefix " ++ toString length
  | invalidOrdinal field value =>
    "invalid ordinal " ++ toString value ++ " for field `" ++ field ++ "`"
  | notMarshalled => "message has rows that were not marshalled"
  | invalidPayload fault => "invalid payload: " ++ fault.message

end Enlistment.Wire
