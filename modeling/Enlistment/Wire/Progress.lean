import Enlistment.Wire.Error

/-!
# Progress of a call

A call on a reader or writer processes as much as the bytes or the room at hand
allow. It either completes its unit, runs out, or finds the data malformed.
-/

namespace Enlistment.Wire

/-- How far one call came. -/
inductive Progress where
  /-- The unit is complete. -/
  | advance
  /-- The bytes or the room ran out. The call is to be repeated. -/
  | incomplete
  | failed (e : CodecError)
  deriving DecidableEq, Repr

namespace Progress

/-- Whether the unit is complete. -/
def isAdvance : Progress → Bool
  | advance => true
  | _ => false

/-- Complete if the condition holds, else out of bytes or room. -/
def ofComplete (complete : Bool) : Progress :=
  if complete then advance else incomplete

/-- Complete unless a check failed. -/
def ofCheck : Except CodecError Unit → Progress
  | .ok () => advance
  | .error e => failed e

end Progress

/-- Checks that every declared field of a message was processed. -/
def checkFieldCount (type : UInt16) (fieldCount state : Nat) : Progress :=
  if state = fieldCount then .advance
  else .failed (.fieldCountMismatch type fieldCount state)

end Enlistment.Wire
