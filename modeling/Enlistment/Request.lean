import Enlistment.Filter

/-!
# Enlistment requests

A request carries a batch of rows to the node that owns them. Its rows take three
forms: as the caller supplies them, in wire form, and as the receiver rebuilds
them. Marshalling leads from the first to the second form, unmarshalling from the
second to the third.
-/

namespace Enlistment

/-- What every message about a cache carries. -/
structure MessageBase where
  deployment : Option DeploymentInfo := none
  lastAffinityChange : TopologyVersion := ⟨0, 0⟩
  messageId : Int64 := 0
  cacheId : Int32 := 0
  deriving DecidableEq, Repr

/-- A row as the caller supplies it. -/
inductive Row where
  /-- A bare key, to delete or lock. -/
  | key (k : Value)
  | entry (k v : Value)
  | invoke (k : Value) (invocation : Invocation)
  deriving DecidableEq

/-- The key of a row. -/
def Row.keyValue : Row → Value
  | key k | entry k _ | invoke k _ => k

/-- Whether a row refers to a user class. -/
def Row.requiresDeployment : Row → Bool
  | key k => k.isObject
  | entry k v => k.isObject || v.isObject
  | invoke k i => k.isObject || i.args.any Value.isObject

/-- Rows in wire form. -/
inductive WireRows (σ : Type) where
  | keysOnly (keys : List KeyObject)
  | entries (keys : List KeyObject) (values : List ValueObject)
  | invokes (keys : List KeyObject) (invokes : List (InvokeValue σ))

namespace WireRows

variable {σ : Type}

/-- The keys of the rows. -/
def keys : WireRows σ → List KeyObject
  | keysOnly keys | entries keys _ | invokes keys _ => keys

/-- The number of rows. -/
def length (rows : WireRows σ) : Nat := rows.keys.length

/-- The number of values or invocations, if the rows have any. -/
def valuesLength : WireRows σ → Option Nat
  | keysOnly _ => none
  | entries _ values => some values.length
  | invokes _ items => some items.length

end WireRows

/-- A row as the receiver rebuilds it. -/
inductive EnlistedRow (σ : Type) where
  | key (k : KeyObject)
  | entry (k : KeyObject) (v : ValueObject)
  | invoke (k : KeyObject) (i : InvokeValue σ)

namespace EnlistedRow

variable {σ : Type}

/-- The key of a row. -/
def keyObject : EnlistedRow σ → KeyObject
  | key k | entry k _ | invoke k _ => k

/-- The value of an entry row. -/
def valueObject? : EnlistedRow σ → Option ValueObject
  | entry _ v => some v
  | _ => none

/-- The invocation of an invocation row. -/
def invocation? : EnlistedRow σ → Option (InvokeValue σ)
  | invoke _ i => some i
  | _ => none

end EnlistedRow

/-- A batch of rows to be enlisted into a transaction on one node. -/
structure EnlistRequest (σ : Type) where
  base : MessageBase := {}
  clientFirst : Bool := false
  filter : Option (Filter σ) := none
  futureId : FutureId := ⟨0⟩
  keepBinary : Bool := false
  lock : LockVersion := ⟨0, 0, 0⟩
  mini : MiniId := 0
  snapshot : Option Snapshot := none
  needResult : Bool := false
  op : Option Operation := none
  taskHash : Int32 := 0
  threadId : Int64 := 0
  timeoutMs : Int64 := 0
  topology : TopologyVersion := .unmapped
  txTimeoutMs : Int64 := 0
  /-- The message needs deployment info. -/
  addDeployment : Bool := false
  /-- Rows not yet in wire form. -/
  pending : Option (List Row) := none
  wire : Option (WireRows σ) := none
  enlisted : Option (List (EnlistedRow σ)) := none

/-- Changes of a request, made one after the other. A failure leaves those that were
made before it. -/
abbrev Changing (σ : Type) : Type → Type := EStateM MarshalError (EnlistRequest σ)

namespace EnlistRequest

variable {σ : Type}

/-- The wire form of one row, which has to fit the operation. -/
def convertRow (ctx : MarshalContext) (op : Operation) (index : Nat) (row : Row) :
    Except MarshalError (EnlistedRow σ) :=
  if row.keyValue.isNull then .error (.nullKey index)
  else
    match row with
    | .key k =>
      if op.isDeleteOrLock then .ok (.key (.ofKey ctx k))
      else if op.isInvoke then .error (.rowShape index op)
      else .error (.missingValue index)
    | .entry k v =>
      if op.isDeleteOrLock || op.isInvoke then .error (.rowShape index op)
      else if v.isNull then .error (.missingValue index)
      else .ok (.entry (.ofKey ctx k) (ValueObject.ofValue v).marshal)
    | .invoke k i =>
      if op.isInvoke then .ok (.invoke (.ofKey ctx k) (.ofInvocation i))
      else .error (.rowShape index op)

/-- The wire form of rows from position `index` on, or the first row's fault. -/
def convertFrom (ctx : MarshalContext) (op : Operation) :
    (index : Nat) → List Row → Except MarshalError (List (EnlistedRow σ))
  | _, [] => .ok []
  | index, row :: rest => do
    let converted ← convertRow ctx op index row
    let rest ← convertFrom ctx op (index + 1) rest
    .ok (converted :: rest)

/-- Rows of one shape, put together. -/
def wireRowsOf (op : Operation) (rows : List (EnlistedRow σ)) : WireRows σ :=
  let keys := rows.map EnlistedRow.keyObject
  if op.isDeleteOrLock then .keysOnly keys
  else if op.isInvoke then .invokes keys (rows.filterMap EnlistedRow.invocation?)
  else .entries keys (rows.filterMap EnlistedRow.valueObject?)

/-- The wire form of the caller's rows. No operation is needed if there are none. -/
def convertRows (ctx : MarshalContext) (op : Option Operation) (rows : List Row) :
    Except MarshalError (WireRows σ) :=
  match op, rows with
  | none, [] => .ok (.keysOnly [])
  | none, _ :: _ => .error .missingOperation
  | some op, rows => (convertFrom ctx op 0 rows).map (wireRowsOf op)

/-- Whether rows of an operation refer to user classes. -/
def rowsRequireDeployment (op : Option Operation) (rows : List Row) : Bool :=
  op.any Operation.isInvoke || rows.any Row.requiresDeployment

/-- Brings the pending rows into wire form. -/
def marshalRows (ctx : MarshalContext) (req : EnlistRequest σ) :
    Except MarshalError (EnlistRequest σ) :=
  match req.pending with
  | none => .ok req
  | some rows =>
    (convertRows ctx req.op rows).map fun wire =>
      { req with
        wire := some wire
        pending := none
        addDeployment := req.addDeployment ||
          (rowsRequireDeployment req.op rows && ctx.deployment.isSome) }

/-- Brings the filter into wire form. -/
def marshalFilter (ctx : MarshalContext) (req : EnlistRequest σ) : EnlistRequest σ :=
  match req.filter with
  | none => req
  | some filter =>
    { req with
      filter := some filter.marshal
      addDeployment := req.addDeployment ||
        (filter.marshal.requiresDeployment && ctx.deployment.isSome) }

/-- Adds the deployment info that the message needs and does not have. -/
def attachDeployment (ctx : MarshalContext) (req : EnlistRequest σ) : EnlistRequest σ :=
  if req.addDeployment && req.base.deployment.isNone then
    { req with base := { req.base with deployment := ctx.deployment } }
  else req

/-- Brings a request into wire form. -/
def marshal (ctx : MarshalContext) (req : EnlistRequest σ) :
    Except MarshalError (EnlistRequest σ) :=
  (req.marshalRows ctx).map fun req => (req.marshalFilter ctx).attachDeployment ctx

/-- Flags a request that requires deployment info, if there is any to attach. -/
def flagInPlace (ctx : MarshalContext) (required : Bool) : Changing σ Unit :=
  if required && ctx.deployment.isSome then modify fun req => { req with addDeployment := true }
  else pure ()

/-- Brings the pending rows into wire form where they stand. -/
def convertInPlace (ctx : MarshalContext) : Changing σ Unit := do
  let req ← get
  match req.pending with
  | none => pure ()
  | some rows =>
    match convertRows ctx req.op rows with
    | .error err => throw err
    | .ok wire =>
      modify fun req => { req with wire := some wire }
      modify fun req => { req with pending := none }
      flagInPlace ctx (rowsRequireDeployment req.op rows)

/-- Brings the filter into wire form where it stands. -/
def marshalFilterInPlace (ctx : MarshalContext) : Changing σ Unit := do
  let req ← get
  match req.filter with
  | none => pure ()
  | some filter =>
    modify fun req => { req with filter := some filter.marshal }
    flagInPlace ctx filter.marshal.requiresDeployment

/-- Adds the deployment info to the message if it needs it and does not have it. -/
def attachInPlace (ctx : MarshalContext) : Changing σ Unit := do
  let req ← get
  if req.addDeployment && req.base.deployment.isNone then
    modify fun req => { req with base := { req.base with deployment := ctx.deployment } }

/-- Brings a request into wire form where it stands. -/
def marshalInPlace (ctx : MarshalContext) : Changing σ Unit := do
  convertInPlace ctx
  marshalFilterInPlace ctx
  attachInPlace ctx

/-- Rebuilds the key of a row and then what goes with it. -/
def unmarshalRow (keepBinary : Bool) (loader : ClassLoader σ) (row : EnlistedRow σ) :
    Except UnmarshalError (EnlistedRow σ) :=
  match row with
  | .key k =>
    match k.unmarshal keepBinary loader.hasClass with
    | (.error e, _) => .error e
    | (.ok (), k) => .ok (.key k)
  | .entry k v =>
    match k.unmarshal keepBinary loader.hasClass with
    | (.error e, _) => .error e
    | (.ok (), k) =>
      match v.unmarshal keepBinary loader.hasClass with
      | (.error e, _) => .error e
      | (.ok (), v) => .ok (.entry k v)
  | .invoke k i =>
    match k.unmarshal keepBinary loader.hasClass with
    | (.error e, _) => .error e
    | (.ok (), k) =>
      match i.unmarshal keepBinary loader with
      | (.error e, _) => .error e
      | (.ok (), i) => .ok (.invoke k i)

/-- The rows of a batch in wire form, one by one. -/
def splitRows : WireRows σ → List (EnlistedRow σ)
  | .keysOnly keys => keys.map .key
  | .entries keys values => keys.zipWith .entry values
  | .invokes keys items => keys.zipWith .invoke items

/-- Rebuilds the filter. -/
def unmarshalFilter (loader : ClassLoader σ) (req : EnlistRequest σ) :
    Except UnmarshalError Unit × EnlistRequest σ :=
  match req.filter with
  | none => (.ok (), req)
  | some filter =>
    let r := filter.unmarshal req.keepBinary loader
    (r.1, { req with filter := some r.2 })

/-- Rebuilds the rows. The wire rows are used up unless the operation is missing. -/
def unmarshalRows (loader : ClassLoader σ) (req : EnlistRequest σ) :
    Except UnmarshalError Unit × EnlistRequest σ :=
  match req.wire with
  | none => (.ok (), { req with enlisted := some (req.enlisted.getD []) })
  | some wire =>
    if req.op.isNone && wire.length != 0 then (.error .missingOperation, req)
    else
      match (splitRows wire).mapM (unmarshalRow req.keepBinary loader) with
      | .error e => (.error e, { req with wire := none })
      | .ok rows => (.ok (), { req with wire := none, enlisted := some rows })

/-- Rebuilds a request from its wire form: first the filter and then the rows. -/
def unmarshal (loader : ClassLoader σ) (req : EnlistRequest σ) :
    Except UnmarshalError Unit × EnlistRequest σ :=
  match req.unmarshalFilter loader with
  | (.error e, req) => (.error e, req)
  | (.ok (), req) => req.unmarshalRows loader

/-- The rebuilt rows, and the request without them. -/
def takeRows (req : EnlistRequest σ) : List (EnlistedRow σ) × EnlistRequest σ :=
  (req.enlisted.getD [], { req with enlisted := none })

end EnlistRequest

end Enlistment
