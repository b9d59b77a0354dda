import Enlistment.Response
import Enlistment.Store
import Enlistment.Topology

/-!
# Staging rows

Before a batch touches the store its effect is staged: each row is tried on the
store together with the writes of the rows before it. Rows that are locked by
another transaction, rejected or out of shape are reported and skipped.
-/

namespace Enlistment

/-- What the rows of one request have in common. -/
structure ApplyContext (σ : Type) where
  op : Operation
  filter : Option (Filter σ)
  snapshot : Option Snapshot
  lock : LockVersion
  needResult : Bool

/-- The stamp of the writes of a transaction that has a snapshot. -/
def ApplyContext.mvccVersion {σ : Type} (ctx : ApplyContext σ) : Option EntryVersion :=
  ctx.snapshot.map Snapshot.version

/-- What one row does. -/
structure RowEffect where
  failure : Option String := none
  /-- The row's slot in the results. -/
  returned : ReturnValue := {}
  /-- The row is locked. -/
  locks : Bool := false
  /-- The value written, where an inner `none` removes the entry. -/
  written : Option (Option Bytes) := none

/-- The effect of a row that is skipped. -/
def RowEffect.skipped (reason : String) : RowEffect := { failure := some reason }

/-- The effect of a row that is applied. -/
def RowEffect.applied (returned : Option Value) (written : Option (Option Bytes)) : RowEffect :=
  { returned := .ofValue returned, locks := true, written }

/-- What callers are told about a batch. -/
structure BatchOutcome where
  previous : List ReturnValue := []
  updated : UInt64 := 0
  failures : List RowFailure := []

/-- The changes of a batch that has not been committed. -/
structure StagedBatch where
  ops : List StoreOp := []
  /-- The newest staged value of each key. -/
  writes : Table (Option Bytes) := []
  writeSeq : Int64

/-- The outcome and the changes of the rows tried so far. -/
structure Staged where
  outcome : BatchOutcome := {}
  batch : StagedBatch

namespace Staged

/-- The outcome and the changes with one more row. -/
def add {σ : Type} (ctx : ApplyContext σ) (index : Nat) (key : Bytes) (effect : RowEffect)
    (s : Staged) : Staged :=
  let version := ctx.mvccVersion.getD ⟨0, s.batch.writeSeq + 1⟩
  let locked := if effect.locks then [StoreOp.lock key ctx.lock] else []
  let failed := (effect.failure.map fun reason => RowFailure.ofIndex index reason).toList
  let returned := if ctx.needResult then [effect.returned] else []
  match effect.written with
  | none =>
    { outcome := {
        previous := s.outcome.previous ++ returned
        updated := s.outcome.updated
        failures := s.outcome.failures ++ failed }
      batch := { s.batch with ops := s.batch.ops ++ locked } }
  | some value =>
    { outcome := {
        previous := s.outcome.previous ++ returned
        updated := s.outcome.updated + 1
        failures := s.outcome.failures ++ failed }
      batch := {
        ops := s.batch.ops ++ locked ++ [.put key version value]
        writes := s.batch.writes.set key value
        writeSeq := if ctx.mvccVersion.isNone then s.batch.writeSeq + 1 else s.batch.writeSeq } }

end Staged

/-- The value of stored octets. -/
def decodeStored (bytes : Option Bytes) : Except EnlistError (Option Value) :=
  match bytes with
  | none => .ok none
  | some bs => ((Value.decode bs).mapError fun e => .unmarshal (.decode e)).map some

/-- The octets to store for a value. -/
def storedBytes (o : ValueObject) : Bytes :=
  match o.bytes, o.value with
  | some bs, _ => bs
  | none, some v => v.encode
  | none, none => []

section

variable {σ : Type}

/-- The effect of an accepted row on the current value of its key. -/
def rowEffect (op : Operation) (row : EnlistedRow σ) (key : Value) (current : Option Value)
    (state : σ) : RowEffect × σ :=
  match op, row with
  | .insert, .entry _ v =>
    if current.isSome then
      ({ RowEffect.applied current none with failure := some "entry already exists" }, state)
    else (.applied current (some (some (storedBytes v))), state)
  | .update, .entry _ v =>
    (.applied current (if current.isSome then some (some (storedBytes v)) else none), state)
  | .upsert, .entry _ v => (.applied current (some (some (storedBytes v))), state)
  | .delete, .key _ => (.applied current (if current.isSome then some none else none), state)
  | .lock, .key _ => (.applied current none, state)
  | .invoke, .invoke _ i =>
    match i.resolved with
    | none => (.skipped ("unresolved processor " ++ i.processor), state)
    | some processor =>
      let run := processor.process state (.ofCurrent key current) i.argValues
      match run.result with
      | .error chain => (.skipped (CauseChain.message chain), run.state)
      | .ok returned =>
        (.applied returned
          (if run.entry.modified then some (run.entry.value.map Value.encode) else none), run.state)
  | op, _ => (.skipped ("row shape does not match " ++ op.name), state)

/-- The current value of a key for the next row of a batch. -/
def currentValue (store : Store) (ctx : ApplyContext σ) (batch : StagedBatch) (key : Bytes) :
    Except EnlistError (Option Value) :=
  match batch.writes.get? key with
  | some staged => decodeStored staged
  | none => decodeStored (store.visible key ctx.snapshot)

/-- Tries the row at a position. User code may have changed the state even if the row
cannot be tried. -/
def stageRow (store : Store) (ctx : ApplyContext σ) (index : Nat) (row : EnlistedRow σ)
    (s : Staged) (state : σ) : Except EnlistError Staged × σ :=
  match row.keyObject.bytes with
  | none => (.ok (s.add ctx index [] (.skipped "key is not marshalled")), state)
  | some key =>
    match store.lockOwner key with
    | some owner =>
      if owner ≠ ctx.lock then
        (.ok (s.add ctx index key (.skipped ("locked by " ++ owner.render))), state)
      else tryRow key
    | none => tryRow key
where
  /-- Tries a row whose key is not locked by another transaction. -/
  tryRow (key : Bytes) : Except EnlistError Staged × σ :=
    let keyValue := row.keyObject.value.getD .null
    match currentValue store ctx s.batch key with
    | .error e => (.error e, state)
    | .ok current =>
      match ctx.filter.map fun filter => filter.evaluate state keyValue current with
      | some (false, state) =>
        let effect := { RowEffect.skipped (EnlistError.predicateFailure index).message with
          returned := .ofValue current }
        (.ok (s.add ctx index key effect), state)
      | accepted =>
        let state := (accepted.map Prod.snd).getD state
        let r := rowEffect ctx.op row keyValue current state
        (.ok (s.add ctx index key r.1), r.2)

/-- Tries rows from a position on. -/
def stageFrom (store : Store) (ctx : ApplyContext σ) :
    (index : Nat) → List (EnlistedRow σ) → Staged → σ → Except EnlistError Staged × σ
  | _, [], s, state => (.ok s, state)
  | index, row :: rest, s, state =>
    match stageRow store ctx index row s state with
    | (.error e, state) => (.error e, state)
    | (.ok s, state) => stageFrom store ctx (index + 1) rest s state

end

end Enlistment
