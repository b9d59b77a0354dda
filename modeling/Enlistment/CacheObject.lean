import Enlistment.Bytes.Checksum
import Enlistment.Bytes.Text
import Enlistment.Deployment
import Enlistment.UserCode

/-!
# Cache objects

A cache object is the binary form of a user key or value. Its sender fills in the
octets from the value, and its receiver the value from the octets. Once both are
known they are kept.
-/

namespace Enlistment

/-- The marshalling settings of a cache. -/
structure MarshalContext where
  cacheId : Int32
  partitions : UInt32
  keepBinary : Bool := false
  deployment : Option DeploymentInfo := none
  partitions_pos : 0 < partitions := by decide

namespace MarshalContext

/-- The settings of a cache with at least one partition. -/
def ofCache (cacheId : Int32) (partitions : UInt32) : MarshalContext :=
  if h : 0 < partitions then { cacheId, partitions, partitions_pos := h }
  else { cacheId, partitions := 1 }

/-- The partition of a key in binary form. -/
def partitionOf (ctx : MarshalContext) (key : Bytes) : Int32 :=
  (key.checksum % ctx.partitions).toInt32

/-- The partition of a key. -/
def partitionOfValue (ctx : MarshalContext) (key : Value) : Int32 :=
  ctx.partitionOf key.encode

end MarshalContext

/-- The number that stands for a task name in a request, zero for no name. -/
def taskHash (name : Option String) : Int32 :=
  match name with
  | none => 0
  | some s => (Bytes.ofText s).checksum.toInt32

/-- The value of a cache object after its receiver asked for it. The classes in it
have to be known unless it stays in binary form. -/
def rebuildValue (keepBinary : Bool) (hasClass : String → Bool) (bytes : Option Bytes)
    (cached : Option Value) : Except UnmarshalError Unit × Option Value :=
  let decoded : Except UnmarshalError Value :=
    match cached, bytes with
    | some v, _ => .ok v
    | none, some bs => (Value.decode bs).mapError .decode
    | none, none => .error (.typeMismatch "cache object has neither bytes nor value")
  match decoded with
  | .error e => (.error e, cached)
  | .ok v => (if keepBinary then .ok () else v.checkClasses hasClass, some v)

/-- The binary form of a key. -/
structure KeyObject where
  partition : Int32 := 0
  bytes : Option Bytes := none
  value : Option Value := none
  deriving Inhabited

namespace KeyObject

/-- The cache object of a key. -/
def ofKey (ctx : MarshalContext) (key : Value) : KeyObject :=
  { partition := ctx.partitionOfValue key, bytes := some key.encode, value := some key }

/-- Objects are equal if their octets are, and by their values if octets are missing. -/
def same (a b : KeyObject) : Bool :=
  match a.bytes, b.bytes with
  | some x, some y => x == y
  | _, _ => a.value == b.value

instance : BEq KeyObject := ⟨same⟩

/-- Fills in the octets. -/
def marshal (ctx : MarshalContext) (k : KeyObject) : KeyObject :=
  match k.bytes, k.value with
  | none, some v => { k with partition := ctx.partitionOfValue v, bytes := some v.encode }
  | _, _ => k

/-- Fills in the value. -/
def unmarshal (keepBinary : Bool) (hasClass : String → Bool) (k : KeyObject) :
    Except UnmarshalError Unit × KeyObject :=
  let r := rebuildValue keepBinary hasClass k.bytes k.value
  (r.1, { k with value := r.2 })

end KeyObject

/-- The binary form of a value. -/
structure ValueObject where
  bytes : Option Bytes := none
  value : Option Value := none
  deriving Inhabited

namespace ValueObject

/-- The cache object of a value, without octets. -/
def ofValue (v : Value) : ValueObject := { value := some v }

/-- The cache object of some octets, without a value. -/
def ofBytes (bs : Bytes) : ValueObject := { bytes := some bs }

/-- Objects are equal if their octets are, and by their values if octets are missing. -/
def same (a b : ValueObject) : Bool :=
  match a.bytes, b.bytes with
  | some x, some y => x == y
  | _, _ => a.value == b.value

instance : BEq ValueObject := ⟨same⟩

/-- Fills in the octets. -/
def marshal (o : ValueObject) : ValueObject :=
  match o.bytes, o.value with
  | none, some v => { o with bytes := some v.encode }
  | _, _ => o

/-- Fills in the value. -/
def unmarshal (keepBinary : Bool) (hasClass : String → Bool) (o : ValueObject) :
    Except UnmarshalError Unit × ValueObject :=
  let r := rebuildValue keepBinary hasClass o.bytes o.value
  (r.1, { o with value := r.2 })

end ValueObject

/-- Rebuilds the elements of a list in order, up to the first failure. -/
def unmarshalEach {A : Type} (unmarshal : A → Except UnmarshalError Unit × A) :
    List A → Except UnmarshalError Unit × List A
  | [] => (.ok (), [])
  | a :: rest =>
    match unmarshal a with
    | (.error e, a) => (.error e, a :: rest)
    | (.ok (), a) => let r := unmarshalEach unmarshal rest; (r.1, a :: r.2)

/-- An entry processor and its arguments as the caller names them. -/
structure Invocation where
  processor : String
  args : List Value
  deriving DecidableEq

/-- The binary form of an invocation. -/
structure InvokeValue (σ : Type) where
  processor : String := ""
  args : List ValueObject := []
  /-- The processor, once its name is resolved. -/
  resolved : Option (EntryProcessor σ) := none

namespace InvokeValue

variable {σ : Type}

/-- The binary form of an invocation. -/
def ofInvocation (i : Invocation) : InvokeValue σ :=
  { processor := i.processor, args := i.args.map fun arg => (ValueObject.ofValue arg).marshal }

/-- Invocations are equal if they name the same processor with equal arguments. -/
def same (a b : InvokeValue σ) : Bool := a.processor == b.processor && a.args == b.args

instance : BEq (InvokeValue σ) := ⟨same⟩

/-- The arguments whose values are known. -/
def argValues (i : InvokeValue σ) : List Value := i.args.filterMap ValueObject.value

/-- Whether this is the binary form of an invocation. -/
def isFormOf (i : InvokeValue σ) (invocation : Invocation) : Bool :=
  i.processor == invocation.processor && i.argValues == invocation.args

/-- Fills in the octets of the arguments. -/
def marshal (i : InvokeValue σ) : InvokeValue σ :=
  { i with args := i.args.map ValueObject.marshal }

/-- Fills in the arguments and then resolves the processor. -/
def unmarshal (keepBinary : Bool) (loader : ClassLoader σ) (i : InvokeValue σ) :
    Except UnmarshalError Unit × InvokeValue σ :=
  match unmarshalEach (ValueObject.unmarshal keepBinary loader.hasClass) i.args with
  | (.error e, args) => (.error e, { i with args := args })
  | (.ok (), args) =>
    match loader.processor i.processor with
    | none => (.error (.classNotFound i.processor), { i with args := args })
    | some p => (.ok (), { i with args := args, resolved := some p })

end InvokeValue

end Enlistment
