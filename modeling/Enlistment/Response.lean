import Enlistment.Request

/-!
# Enlistment responses

A node answers a request with the outcome of its rows, with an error, or with the
topology version on which the request should be mapped again.
-/

namespace Enlistment

/-- The value of one row before the operation, or the result of its processor. -/
structure ReturnValue where
  object : Option ValueObject := none

namespace ReturnValue

/-- The return value for a value that may be absent. -/
def ofValue (v : Option Value) : ReturnValue := ⟨v.map .ofValue⟩

/-- The value, if there is one and it is known. -/
def value (r : ReturnValue) : Option Value := r.object.bind ValueObject.value

instance : BEq ReturnValue := ⟨fun a b => a.object == b.object⟩

/-- Fills in the octets. -/
def marshal (r : ReturnValue) : ReturnValue := ⟨r.object.map ValueObject.marshal⟩

/-- Fills in the value. -/
def unmarshal (keepBinary : Bool) (hasClass : String → Bool) (r : ReturnValue) :
    Except UnmarshalError Unit × ReturnValue :=
  match r.object with
  | none => (.ok (), r)
  | some o => let u := o.unmarshal keepBinary hasClass; (u.1, ⟨some u.2⟩)

end ReturnValue

/-- A row that was skipped while the rest of its batch was applied. -/
structure RowFailure where
  index : Int32
  reason : String
  deriving DecidableEq, Repr

/-- The failure of the row at a position; the position is cut to the greatest number
of 32 bits. -/
def RowFailure.ofIndex (index : Nat) (reason : String) : RowFailure :=
  ⟨if index < 0x80000000 then Int32.ofNat index else Int32.maxValue, reason⟩

/-- The kinds of error that a response tells apart. -/
inductive ErrorKind where
  | unmarshal
  | codec
  | mvccModeMismatch
  | unknownCache
  | internal
  deriving DecidableEq, Repr

namespace ErrorKind

/-- All kinds in the order of their ordinals. -/
def all : List ErrorKind := [unmarshal, codec, mvccModeMismatch, unknownCache, internal]

/-- The position of a kind. -/
def ordinal : ErrorKind → Int8
  | unmarshal => 0
  | codec => 1
  | mvccModeMismatch => 2
  | unknownCache => 3
  | internal => 4

/-- The kind at a position, the internal one outside of the list. -/
def ofOrdinal (n : Int8) : ErrorKind :=
  all.find? (fun kind => kind.ordinal == n) |>.getD internal

/-- The name of a kind. -/
def name : ErrorKind → String
  | unmarshal => "Unmarshal"
  | codec => "Codec"
  | mvccModeMismatch => "MvccModeMismatch"
  | unknownCache => "UnknownCache"
  | internal => "Internal"

/-- The kind of an error. -/
def ofError : EnlistError → ErrorKind
  | .unmarshal _ => unmarshal
  | .codec _ => codec
  | .mvccModeMismatch .. => mvccModeMismatch
  | .unknownCache _ => unknownCache
  | _ => internal

end ErrorKind

/-- An error as a response reports it. -/
structure ErrorMessage where
  kind : ErrorKind := .internal
  text : String := ""
  deriving DecidableEq, Repr

namespace ErrorMessage

/-- The report of an error. -/
def ofError (e : EnlistError) : ErrorMessage := ⟨.ofError e, e.message⟩

/-- The wording of a reported error. -/
def render (m : ErrorMessage) : String := m.kind.name ++ ": " ++ m.text

end ErrorMessage

/-- The outcome of an enlistment for its caller. -/
structure EnlistResult where
  /-- The previous value of each row; empty unless results were asked for. -/
  previous : List (Option Value) := []
  updated : UInt64 := 0
  failures : List RowFailure := []
  deriving DecidableEq

/-- The outcome of two parts of an enlistment. -/
def EnlistResult.merge (a b : EnlistResult) : EnlistResult :=
  ⟨a.previous ++ b.previous, a.updated + b.updated, a.failures ++ b.failures⟩

/-- The answer of a node. -/
structure EnlistResponse where
  base : MessageBase := {}
  futureId : FutureId := ⟨0⟩
  mini : MiniId := 0
  lock : LockVersion := ⟨0, 0, 0⟩
  result : Option (List ReturnValue) := none
  updateCount : Int64 := 0
  error : Option ErrorMessage := none
  remap : Option TopologyVersion := none
  rowFailures : Option (List RowFailure) := none

namespace EnlistResponse

instance : BEq EnlistResponse where
  beq a b := a.base == b.base && a.futureId == b.futureId && a.mini == b.mini &&
    a.lock == b.lock && a.result == b.result && a.updateCount == b.updateCount &&
    a.error == b.error && a.remap == b.remap && a.rowFailures == b.rowFailures

/-- The answer to a request, without an outcome so far. -/
def ofRequest (cacheId : Int32) (futureId : FutureId) (mini : MiniId) (lock : LockVersion) :
    EnlistResponse :=
  { base := { cacheId }, futureId, mini, lock }

/-- The answer with an update count, which is cut to the greatest number of 64 bits. -/
def withUpdateCount (r : EnlistResponse) (count : UInt64) : EnlistResponse :=
  { r with updateCount := if count < 0x8000000000000000 then count.toInt64 else Int64.maxValue }

/-- The answer with the failures of rows, if there are any. -/
def withFailures (r : EnlistResponse) (failures : List RowFailure) : EnlistResponse :=
  if failures.isEmpty then r else { r with rowFailures := some failures }

/-- The failures of rows. -/
def failures (r : EnlistResponse) : List RowFailure := r.rowFailures.getD []

/-- The outcome of a request that was mapped on `requested`. -/
def toResult (r : EnlistResponse) (requested : TopologyVersion) :
    Except EnlistError EnlistResult :=
  match r.remap, r.error with
  | some current, _ => .error (.topologyMismatch requested current)
  | none, some e => .error (.remote e.render)
  | none, none =>
    .ok { previous := (r.result.getD []).map ReturnValue.value
          updated := if r.updateCount < 0 then 0 else r.updateCount.toUInt64
          failures := r.failures }

/-- Brings a response into wire form. -/
def marshal (r : EnlistResponse) : EnlistResponse :=
  { r with result := r.result.map fun values => values.map ReturnValue.marshal }

/-- Rebuilds a response from its wire form. -/
def unmarshal (keepBinary : Bool) (hasClass : String → Bool) (r : EnlistResponse) :
    Except UnmarshalError Unit × EnlistResponse :=
  match r.result with
  | none => (.ok (), r)
  | some values =>
    let u := unmarshalEach (ReturnValue.unmarshal keepBinary hasClass) values
    (u.1, { r with result := some u.2 })

end EnlistResponse

end Enlistment
