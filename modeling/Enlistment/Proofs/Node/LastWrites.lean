import Enlistment.Proofs.Node.Actions
import Enlistment.Proofs.Store.Vacuum

/-!
# The last write wins

Without snapshots a node numbers the writes of its rows in the order in which it makes them, and
a reader takes the version with the greatest number. This is the last write, because no version
is stamped with anything but the number of a write, and a vacuum never drops the newest version
of a key unless it removes the entry. The lock versions of requests play no part in it.
-/

namespace Enlistment

variable {σ : Type}

/-! ## Writes of rows -/

/-- A write of a row. -/
structure RowWrite where
  key : Bytes
  /-- The octets that are stored, where `none` removes the entry. -/
  value : Option Bytes
  deriving DecidableEq

/-- What the last write to a key stores, if there is one. -/
def lastWrite (key : Bytes) (writes : List RowWrite) : Option (Option Bytes) :=
  (writes.filter fun w => w.key = key).getLast?.map RowWrite.value

/-- A later write to a key counts instead of the ones before. -/
theorem lastWrite_append (key : Bytes) (writes later : List RowWrite) :
    lastWrite key (writes ++ later) = (lastWrite key later).or (lastWrite key writes) := by
  rw [lastWrite, List.filter_append, List.getLast?_append, Option.map_or, lastWrite, lastWrite]

/-- A single write counts for its own key. -/
theorem lastWrite_singleton (key : Bytes) (w : RowWrite) :
    lastWrite key [w] = if w.key = key then some w.value else none := by
  by_cases hkey : w.key = key <;> simp [lastWrite, hkey]

/-- Another write counts instead of the ones before if it is to the key. -/
theorem lastWrite_append_toList (key : Bytes) (writes : List RowWrite) (key' : Bytes)
    (value : Option (Option Bytes)) :
    lastWrite key (writes ++ (value.map fun v => ⟨key', v⟩).toList) =
      if key' = key then value.or (lastWrite key writes) else lastWrite key writes := by
  cases value with
  | none =>
    simp only [Option.map_none, Option.toList_none, List.append_nil, Option.none_or, ite_self]
  | some v =>
    rw [Option.map_some, Option.toList_some, lastWrite_append, lastWrite_singleton, Option.some_or]
    split <;> rfl

/-- The write of a row with an effect, if it writes. -/
def RowEffect.writes (key : Bytes) (e : RowEffect) : List RowWrite :=
  (e.written.map fun value => ⟨key, value⟩).toList

/-- What rows write from a position on, in their order, up to one that cannot be tried. -/
def rowWrites (store : Store) (ctx : ApplyContext σ) :
    Nat → List (EnlistedRow σ) → Staged → σ → List RowWrite
  | _, [], _, _ => []
  | index, row :: rest, s, state =>
    match rowOutcome ctx index row (store.rival ctx.lock row.keyBytes)
      (currentValue store ctx s.batch row.keyBytes) state with
    | (.error _, _) => []
    | (.ok effect, state) =>
      effect.writes row.keyBytes ++
        rowWrites store ctx (index + 1) rest (s.add ctx index row.keyBytes effect) state

namespace Node

variable [HasTopology σ]

/-- What the rows of a request write, if they are committed. Other actions write nothing. -/
def writesOf (n : Node σ) : NodeAction σ → List RowWrite
  | .request req state =>
    match (n.enlist req state).1, req.unmarshal n.loader, req.op with
    | .ok _, (.ok (), req'), some op =>
      rowWrites n.state.store (req'.applyContext op) 0 req'.takeRows.1
        { batch := { writeSeq := n.state.writeSeq } } state
    | _, _, _ => []
  | .finish _ => []
  | .vacuum _ => []

/-- What is written at some actions, in the order in which it is committed. -/
def writesOfAll : Node σ → List (NodeAction σ) → List RowWrite
  | _, [] => []
  | n, action :: rest => n.writesOf action ++ (n.perform action).writesOfAll rest

/-- A request leaves a node alone and writes nothing, or it commits the rows that it writes. -/
theorem perform_request_writesOf (n : Node σ) (req : EnlistRequest σ) (state : σ) :
    (n.perform (.request req state) = n ∧ n.writesOf (.request req state) = []) ∨
      ∃ (ctx : ApplyContext σ) (rows : List (EnlistedRow σ)) (staged : Staged) (state' : σ),
        n.state.stageRows ctx rows state = (.ok staged, state') ∧
          ctx.snapshot.isSome = n.config.mvccEnabled ∧ ctx.snapshot = req.snapshot ∧
          n.perform (.request req state) = { n with state := n.state.commit staged.batch } ∧
          n.writesOf (.request req state) =
            rowWrites n.state.store ctx 0 rows { batch := { writeSeq := n.state.writeSeq } }
              state := by
  have hending := n.enlist_ending req state
  have hmode := @enlist_ok_snapshot _ _ n req state
  simp only [perform, handleRequest, writesOf]
  rcases hr : n.enlist req state with ⟨outcome, n', state'⟩
  rw [hr] at hending hmode
  cases hending with
  | rejected he => exact .inl ⟨rfl, rfl⟩
  | idle hop =>
    refine .inl ⟨rfl, ?_⟩
    simp only [hop]
    rcases req.unmarshal n.loader with ⟨_ | _, req'⟩ <;> rfl
  | committed hreq hop hstaged hvalid =>
    obtain ⟨filter, wire, enlisted, hsame⟩ := EnlistRequest.unmarshal_eq hreq
    refine .inr ⟨_, _, _, _, hstaged, ?_, ?_, rfl, ?_⟩
    · rw [hsame]
      exact hmode rfl
    · rw [hsame]
      rfl
    · simp only [hreq, hop]

end Node

/-! ## Stores that record their writes -/

/-- A store has recorded some writes, numbered up to the number of the last one: its versions
are stamped with such numbers, and what is read of each key is what has last been written. -/
structure Store.Records (t : Store) (seq : Int64) (writes : List RowWrite) : Prop where
  formed : t.WellFormed
  stamped : ∀ key, ∀ v ∈ t.versions key, ∃ n, v.version = ⟨0, n⟩ ∧ 0 < n ∧ n ≤ seq
  visible : ∀ key, t.visible key none = (lastWrite key writes).join
  count : seq.toInt = writes.length

namespace Store.Records

variable {t : Store} {seq : Int64} {writes : List RowWrite}

/-- A store without rows has recorded no writes. -/
theorem empty : Store.Records {} 0 [] where
  formed := .empty
  stamped key v hv := by cases hv
  visible key := rfl
  count := rfl

/-- A store that has the same versions has recorded the same writes. -/
theorem of_versions_eq {t' : Store} (h : t.Records seq writes) (hformed : t'.WellFormed)
    (hversions : ∀ key, t'.versions key = t.versions key) : t'.Records seq writes where
  formed := hformed
  stamped key v hv := h.stamped key v (hversions key ▸ hv)
  visible key := (visible_congr (hversions key) none).trans (h.visible key)
  count := h.count

/-- Locking a key records no write. -/
theorem apply_lock (h : t.Records seq writes) (key : Bytes) (owner : LockVersion) :
    (t.apply (.lock key owner)).Records seq writes :=
  h.of_versions_eq (h.formed.apply _) (t.versions_apply_lock key owner)

/-- Releasing locks records no write. -/
theorem apply_unlock (h : t.Records seq writes) (owner : LockVersion) :
    (t.apply (.unlock owner)).Records seq writes :=
  h.of_versions_eq (h.formed.apply _) (t.versions_apply_unlock owner)

/-- A vacuum up to any horizon leaves the writes recorded, since a reader without a snapshot can
see every version. -/
theorem apply_vacuum (h : t.Records seq writes) (horizon : EntryVersion) :
    (t.apply (.vacuum horizon)).Records seq writes where
  formed := h.formed.apply _
  stamped key v hv := h.stamped key v (h.formed.mem_versions_vacuum hv)
  visible key := (h.formed.visible_apply_vacuum fun _ _ => rfl).trans (h.visible key)
  count := h.count

/-- The number of the next write is above all versions. -/
theorem not_lt_next (h : t.Records seq writes) (hroom : seq.toInt + 1 < 2 ^ 63) {key : Bytes}
    {v : VersionedValue} (hv : v ∈ t.versions key) :
    ¬ (⟨0, seq + 1⟩ : EntryVersion) < v.version := by
  obtain ⟨n, hversion, -, hn⟩ := h.stamped key v hv
  rw [hversion, EntryVersion.lt_iff]
  rintro (hlt | ⟨-, hlt⟩)
  · exact Int64.lt_irrefl hlt
  · have hle : (seq + 1).toInt < n.toInt := Int64.lt_iff_toInt_lt.mp hlt
    rw [Int64.le_iff_toInt_le] at hn
    rw [toInt_add_one hroom] at hle
    omega

/-- A put under the number of the next write records this write. -/
theorem apply_put (h : t.Records seq writes) (hroom : writes.length + 1 < 2 ^ 63) (w : RowWrite) :
    (t.apply (.put w.key ⟨0, seq + 1⟩ w.value)).Records (seq + 1) (writes ++ [w]) := by
  have hcount := h.count
  have hroom' : seq.toInt + 1 < 2 ^ 63 := by omega
  have hnext := toInt_add_one hroom'
  refine ⟨h.formed.apply _, fun key v hv => ?_, fun key => ?_, ?_⟩
  · have hold : v ∈ t.versions key → ∃ n, v.version = ⟨0, n⟩ ∧ 0 < n ∧ n ≤ seq + 1 := by
      intro hv
      obtain ⟨n, hversion, hpos, hn⟩ := h.stamped key v hv
      refine ⟨n, hversion, hpos, ?_⟩
      rw [Int64.le_iff_toInt_le] at hn ⊢
      omega
    rw [h.formed.versions_apply_put] at hv
    split at hv
    · next hkey =>
      subst hkey
      rcases Store.mem_putVersion hv with rfl | hv
      · refine ⟨seq + 1, rfl, ?_, Int64.le_refl _⟩
        rw [Int64.lt_iff_toInt_lt, hnext]
        show (0 : Int) < _
        omega
      · exact hold hv
    · exact hold hv
  · rw [h.formed.visible_apply_put (show Snapshot.readable none _ = true from rfl)
      (fun v hv _ => h.not_lt_next hroom' hv), h.visible, lastWrite_append, lastWrite_singleton]
    split <;> rfl
  · rw [hnext, hcount, List.length_append, List.length_singleton]
    rfl

end Store.Records

/-! ## Rows and actions -/

/-- Staging one more row records what it writes. -/
theorem Store.Records.add {store : Store} {ctx : ApplyContext σ} {s : Staged}
    {writes : List RowWrite}
    (h : (s.batch.ops.foldl Store.apply store).Records s.batch.writeSeq writes)
    (hnone : ctx.snapshot = none) (index : Nat) (key : Bytes) (effect : RowEffect)
    (hroom : (writes ++ effect.writes key).length < 2 ^ 63) :
    ((s.add ctx index key effect).batch.ops.foldl Store.apply store).Records
      (s.add ctx index key effect).batch.writeSeq (writes ++ effect.writes key) := by
  have hstamp : ctx.mvccVersion = none := by rw [ApplyContext.mvccVersion, hnone]; rfl
  have hlocked : ((s.batch.ops ++ if effect.locks = true then [StoreOp.lock key ctx.lock]
      else []).foldl Store.apply store).Records s.batch.writeSeq writes := by
    rw [List.foldl_append]
    split
    · exact h.apply_lock key ctx.lock
    · exact h
  cases hwritten : effect.written with
  | none =>
    simp only [Staged.add, RowEffect.writes, hwritten]
    exact (List.append_nil writes).symm ▸ hlocked
  | some value =>
    have hwrites : effect.writes key = [⟨key, value⟩] := by simp [RowEffect.writes, hwritten]
    rw [hwrites, List.length_append] at hroom
    simp only [Staged.add, hwrites, hwritten, hstamp, Option.getD_none, Option.isNone_none, if_true]
    rw [List.foldl_append]
    exact hlocked.apply_put hroom ⟨key, value⟩

/-- Staging rows records what they write. -/
theorem Store.Records.stageFrom {store : Store} {ctx : ApplyContext σ} (hnone : ctx.snapshot = none)
    {index : Nat} {rows : List (EnlistedRow σ)} {s s' : Staged} {state state' : σ}
    {writes : List RowWrite} (h : stageFrom store ctx index rows s state = (.ok s', state'))
    (hs : (s.batch.ops.foldl Store.apply store).Records s.batch.writeSeq writes)
    (hroom : (writes ++ rowWrites store ctx index rows s state).length < 2 ^ 63) :
    (s'.batch.ops.foldl Store.apply store).Records s'.batch.writeSeq
      (writes ++ rowWrites store ctx index rows s state) := by
  induction rows generalizing index s state writes with
  | nil =>
    obtain rfl := Except.ok.inj (Prod.mk.inj h).1
    rwa [rowWrites, List.append_nil]
  | cons row rest ih =>
    obtain ⟨effect, next, hrow, hrest⟩ := stageFrom_cons_ok h
    simp only [rowWrites, hrow] at hroom ⊢
    rw [← List.append_assoc] at hroom ⊢
    have hfirst : (writes ++ effect.writes row.keyBytes).length < 2 ^ 63 := by
      rw [List.length_append] at hroom
      omega
    exact ih hrest (hs.add hnone index row.keyBytes effect hfirst) hroom

namespace Node

variable [HasTopology σ]

/-- On a node without snapshots every action records what it writes. -/
theorem records_perform {n : Node σ} {writes : List RowWrite}
    (h : n.state.store.Records n.state.writeSeq writes) (hmode : n.config.mvccEnabled = false)
    (action : NodeAction σ) (hroom : (writes ++ n.writesOf action).length < 2 ^ 63) :
    (n.perform action).state.store.Records (n.perform action).state.writeSeq
      (writes ++ n.writesOf action) := by
  cases action with
  | request req state =>
    rcases n.perform_request_writesOf req state with
      ⟨hidle, hwrites⟩ | ⟨ctx, rows, staged, state', hstaged, hctx, -, hcommitted, hwrites⟩
    · rwa [hidle, hwrites, List.append_nil]
    · rw [hmode, Option.isSome_eq_false_iff, Option.isNone_iff_eq_none] at hctx
      rw [hwrites] at hroom
      rw [hcommitted, hwrites]
      exact Store.Records.stageFrom hctx hstaged h hroom
  | finish lock => exact (List.append_nil writes).symm ▸ h.apply_unlock lock
  | vacuum horizon => exact (List.append_nil writes).symm ▸ h.apply_vacuum horizon

/-- On a node without snapshots a run records all that it writes. -/
theorem records_performAll {n : Node σ} {writes : List RowWrite}
    (h : n.state.store.Records n.state.writeSeq writes) (hmode : n.config.mvccEnabled = false)
    (actions : List (NodeAction σ)) (hroom : (writes ++ n.writesOfAll actions).length < 2 ^ 63) :
    (n.performAll actions).state.store.Records (n.performAll actions).state.writeSeq
      (writes ++ n.writesOfAll actions) := by
  induction actions generalizing n writes with
  | nil => rwa [writesOfAll, List.append_nil]
  | cons action rest ih =>
    rw [writesOfAll, ← List.append_assoc] at hroom ⊢
    have hfirst : (writes ++ n.writesOf action).length < 2 ^ 63 := by
      rw [List.length_append] at hroom
      omega
    have hmode' : (n.perform action).config.mvccEnabled = false := by rw [perform_eq, hmode]
    exact ih (records_perform h hmode action hfirst) hmode' hroom

/-- The last committed write wins. Let a node without snapshots start without rows, handle
requests of any locks, finish transactions and vacuum up to any horizons, in any order. Then each
version that it stores is stamped with the number of a write, at most that of the last one, and
what is read of a key is what the last row that wrote there has stored, in the order of the
commits and of the rows within them, and nothing if this row removed the entry or none has
written there.

Writes are numbered in 64 bits, so there must not be more of them than there are numbers. -/
theorem get_performAll_eq_lastWrite {start n : Node σ} {actions : List (NodeAction σ)}
    (hstart : start.state = {}) (hmode : start.config.mvccEnabled = false)
    (hroom : (start.writesOfAll actions).length < 2 ^ 63) (hn : start.performAll actions = n) :
    (∀ key, ∀ v ∈ n.state.store.versions key,
      ∃ number, v.version = ⟨0, number⟩ ∧ 0 < number ∧ number ≤ n.state.writeSeq) ∧
      ∀ key : Value, n.state.get key none =
        decodeStored (lastWrite key.encode (start.writesOfAll actions)).join := by
  have hempty : start.state.store.Records start.state.writeSeq [] := by
    rw [hstart]
    exact .empty
  have hrecords := records_performAll hempty hmode actions hroom
  rw [List.nil_append, hn] at hrecords
  refine ⟨hrecords.stamped, fun key => ?_⟩
  rw [NodeState.get, hrecords.visible]

/-- The second of two transactions has the lower lock version. Its value is what is read, also
once the store is vacuumed up to the stamp of the first one, and nothing is read of the key that
it removes. -/
theorem get_after_lower_lock :
    let view := TopologyView.ofNodes [1] 1
    let start : Node TopologyView :=
      { id := 1, config := {}, loader := .ofRegistrations [] [] [], context := .ofCache 1 1 }
    let request (lock : LockVersion) (op : Operation) (rows : WireRows TopologyView) :
        NodeAction TopologyView :=
      .request
        { base := { cacheId := 1 }, topology := ⟨1, 0⟩, lock, op := some op, wire := some rows }
        view
    let key (value : Value) : KeyObject := .ofKey start.context value
    let object (value : Value) : ValueObject := (ValueObject.ofValue value).marshal
    let n := start.performAll [
      request ⟨1, 200, 1⟩ .upsert
        (.entries [key (.int 3), key (.int 7)] [object (.int 4), object (.int 8)]),
      .finish ⟨1, 200, 1⟩,
      request ⟨1, 100, 2⟩ .upsert (.entries [key (.int 3)] [object (.int 5)]),
      request ⟨1, 100, 2⟩ .delete (.keysOnly [key (.int 7)]),
      .vacuum ⟨0, 1⟩]
    n.state.get (.int 3) none = decodeStored (some (Value.int 5).encode) ∧
      n.state.get (.int 7) none = .ok none ∧
      ∀ v ∈ n.state.store.versions (Value.int 3).encode, v.version.coordinator = 0 := by
  intro view start request key object n
  have hwrites : start.writesOfAll [
      request ⟨1, 200, 1⟩ .upsert
        (.entries [key (.int 3), key (.int 7)] [object (.int 4), object (.int 8)]),
      .finish ⟨1, 200, 1⟩,
      request ⟨1, 100, 2⟩ .upsert (.entries [key (.int 3)] [object (.int 5)]),
      request ⟨1, 100, 2⟩ .delete (.keysOnly [key (.int 7)]),
      .vacuum ⟨0, 1⟩] =
      [⟨(Value.int 3).encode, some (Value.int 4).encode⟩,
        ⟨(Value.int 7).encode, some (Value.int 8).encode⟩,
        ⟨(Value.int 3).encode, some (Value.int 5).encode⟩, ⟨(Value.int 7).encode, none⟩] := by
    decide +kernel
  have hstart : start.state = {} := rfl
  have hn : start.performAll _ = n := rfl
  obtain ⟨hstamped, hget⟩ :=
    get_performAll_eq_lastWrite hstart rfl (by rw [hwrites]; decide) hn
  rw [hwrites] at hget
  refine ⟨hget (.int 3), hget (.int 7), fun v hv => ?_⟩
  obtain ⟨number, hversion, -⟩ := hstamped _ v hv
  rw [hversion]

end Node

end Enlistment
