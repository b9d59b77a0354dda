import Enlistment.Proofs.Caller.Answers

/-!
# Ownership of keys

A node checks the partitions that a request declares along with its keys, and takes the word of
the sender for it that the keys hash to them. Whatever octets it is given, it writes and locks
only keys that are declared in partitions which it owned at the commit. These keys hash to
partitions of the node as far as the sender hashes keys as the node does.
-/

namespace Enlistment

variable {σ : Type}

/-! ## Keys that are written or locked -/

/-- The key that a change writes or locks. -/
def StoreOp.key? : StoreOp → Option Bytes
  | put key _ _ | lock key _ => some key
  | unlock _ | vacuum _ => none

/-- The keys that a batch writes or locks. -/
def StagedBatch.keys (batch : StagedBatch) : List Bytes := batch.ops.filterMap StoreOp.key?

/-- A row that locks anything has a key that is marshalled. -/
theorem rowOutcome_marshalled {ctx : ApplyContext σ} {index : Nat} {row : EnlistedRow σ}
    {rival : Option LockVersion} {current : Except EnlistError (Option Value)} {state state' : σ}
    {effect : RowEffect} (h : rowOutcome ctx index row rival current state = (.ok effect, state'))
    (hlocks : effect.locks = true) : row.keyObject.bytes = some row.keyBytes := by
  unfold EnlistedRow.keyBytes
  cases hbytes : row.keyObject.bytes with
  | some key => rfl
  | none =>
    simp only [rowOutcome, hbytes] at h
    obtain rfl := Except.ok.inj (Prod.mk.inj h).1
    cases hlocks

/-- One more row adds at most its key to those that are written or locked, and nothing if it
does not lock it. -/
theorem Staged.mem_keys_add {ctx : ApplyContext σ} {index : Nat} {key key' : Bytes}
    {effect : RowEffect} {s : Staged} (heffect : effect.LocksIfWrites)
    (h : key' ∈ (s.add ctx index key effect).batch.keys) :
    key' ∈ s.batch.keys ∨ (key' = key ∧ effect.locks = true) := by
  unfold Staged.add at h
  cases hlocks : effect.locks with
  | true =>
    cases hwritten : effect.written <;>
      simp only [StagedBatch.keys, hlocks, hwritten, if_true, List.filterMap_append,
        List.filterMap_cons, List.filterMap_nil, StoreOp.key?, List.mem_append,
        List.mem_singleton] at h
    · exact h.imp id fun hkey => ⟨hkey, rfl⟩
    · exact (or_assoc.mp h).imp id fun hkey => ⟨hkey.elim id id, rfl⟩
  | false =>
    cases hwritten : effect.written with
    | none => simpa [StagedBatch.keys, hlocks, hwritten] using h
    | some value =>
      have hlocked := heffect.locks (by rw [hwritten]; rfl)
      rw [hlocks] at hlocked
      cases hlocked

/-- Staging rows writes and locks only their keys. -/
theorem stageFrom_keys {store : Store} {ctx : ApplyContext σ} {index : Nat}
    {rows : List (EnlistedRow σ)} {s s' : Staged} {state state' : σ}
    (h : stageFrom store ctx index rows s state = (.ok s', state')) {key : Bytes}
    (hkey : key ∈ s'.batch.keys) :
    key ∈ s.batch.keys ∨ ∃ row ∈ rows, row.keyObject.bytes = some key := by
  induction rows generalizing index s state with
  | nil =>
    obtain rfl := Except.ok.inj (Prod.mk.inj h).1
    exact .inl hkey
  | cons row rest ih =>
    obtain ⟨effect, next, hrow, hrest⟩ := stageFrom_cons_ok h
    rcases ih hrest with hadded | ⟨later, hlater, hbytes⟩
    · rcases Staged.mem_keys_add (rowOutcome_locksIfWrites hrow) hadded with hold | ⟨rfl, hlocks⟩
      · exact .inl hold
      · exact .inr ⟨row, List.mem_cons_self .., rowOutcome_marshalled hrow hlocks⟩
    · exact .inr ⟨later, List.mem_cons_of_mem _ hlater, hbytes⟩

/-- Permitted changes leave the row of a key alone that they neither write nor lock. -/
theorem foldl_permitted_other {store : Store} {ctx : ApplyContext σ} {ops : List StoreOp}
    {t : Store} {key : Bytes} (h : ∀ op ∈ ops, op.Permitted store ctx)
    (hkey : key ∉ ops.filterMap StoreOp.key?) (ht : t.WellFormed) :
    (ops.foldl Store.apply t).versions key = t.versions key ∧
      (ops.foldl Store.apply t).lockOwner key = t.lockOwner key := by
  induction ops generalizing t with
  | nil => exact ⟨rfl, rfl⟩
  | cons op rest ih =>
    obtain ⟨hop, hrest⟩ := List.forall_mem_cons.mp h
    have hrest' : key ∉ rest.filterMap StoreOp.key? := fun hmem => hkey <| by
      rw [List.filterMap_cons]
      split
      · exact hmem
      · exact List.mem_cons_of_mem _ hmem
    have hother : op.key? ≠ some key := fun hop => hkey (List.mem_filterMap.mpr ⟨op, by simp, hop⟩)
    obtain ⟨hversions, howner⟩ := ih hrest hrest' (ht.apply op)
    rw [List.foldl_cons, hversions, howner]
    cases hop with
    | @lock k hfree =>
      have hne : k ≠ key := fun heq => hother (congrArg some heq)
      rw [Store.versions_apply_lock, Store.lockOwner_apply_lock, if_neg hne]
      exact ⟨rfl, rfl⟩
    | @put k version value hfree hstamp =>
      have hne : k ≠ key := fun heq => hother (congrArg some heq)
      rw [ht.versions_apply_put, Store.lockOwner_apply_put, if_neg hne]
      exact ⟨rfl, rfl⟩

/-! ## Declared keys -/

namespace EnlistRequest

/-- The key of a row that is split off is among the keys of the rows in wire form. -/
theorem keyObject_mem_keys {rows : WireRows σ} {row : EnlistedRow σ} (h : row ∈ splitRows rows) :
    row.keyObject ∈ rows.keys := by
  cases rows with
  | keysOnly keys =>
    obtain ⟨k, hk, rfl⟩ := List.mem_map.mp h
    exact hk
  | entries keys values =>
    rw [splitRows, ← List.map_uncurry_zip_eq_zipWith] at h
    obtain ⟨pair, hpair, rfl⟩ := List.mem_map.mp h
    exact (List.of_mem_zip hpair).1
  | invokes keys items =>
    rw [splitRows, ← List.map_uncurry_zip_eq_zipWith] at h
    obtain ⟨pair, hpair, rfl⟩ := List.mem_map.mp h
    exact (List.of_mem_zip hpair).1

/-- A row that is rebuilt has the octets and the partition of a key that the request declares,
in shape or not. -/
theorem unmarshal_declares {req req' : EnlistRequest σ} {loader : ClassLoader σ}
    (h : req.unmarshal loader = (.ok (), req')) {row : EnlistedRow σ}
    (hrow : row ∈ req'.takeRows.1) : ∃ k ∈ req.declaredKeys, k.onWire = row.keyObject.onWire := by
  rcases unmarshal_takeRows h with ⟨hwire, hrows⟩ | ⟨rows, hwire, hrows⟩
  · rw [hrows] at hrow
    refine ⟨row.keyObject, ?_, rfl⟩
    simp only [declaredKeys, hwire]
    exact List.mem_map_of_mem hrow
  · have hkey := List.mem_map_of_mem (f := fun row => row.keyObject.onWire) hrow
    rw [mapM_unmarshalRow_keys hrows] at hkey
    obtain ⟨declared, hdeclared, heq⟩ := List.mem_map.mp hkey
    refine ⟨declared.keyObject, ?_, heq⟩
    simp only [declaredKeys, hwire]
    exact keyObject_mem_keys hdeclared

/-- The partitions that a request declares are those to which its keys hash. -/
def Hashed (ctx : MarshalContext) (req : EnlistRequest σ) : Prop :=
  ∀ k ∈ req.declaredKeys, ∀ key, k.bytes = some key → k.partition = ctx.partitionOf key

/-- A caller with as many partitions hashes keys as a node does. -/
theorem Carries.hashed {req sent : EnlistRequest σ} {ctx ctx' : MarshalContext} {rows : List Row}
    (h : req.Carries sent ctx rows) (hpartitions : ctx.partitions = ctx'.partitions) :
    req.Hashed ctx' := by
  intro k hk key hbytes
  rw [h.declaredKeys] at hk
  obtain ⟨row, -, rfl⟩ := List.mem_map.mp hk
  obtain rfl := Option.some.inj hbytes
  show ctx.partitionOf _ = ctx'.partitionOf _
  rw [MarshalContext.partitionOf, MarshalContext.partitionOf, hpartitions]

end EnlistRequest

/-! ## What a node touches -/

namespace Node

variable [HasTopology σ]

open HasTopology (topology)

/-- The keys that a node writes or locks when it is given some octets. -/
def touched (n : Node σ) (payload : Bytes) (state : σ) : List Bytes :=
  match n.decodeRequest payload with
  | .error _ => []
  | .ok req => ((n.committed req state).map StagedBatch.keys).getD []

/-- A batch is committed if the view after staging it accepts the rows of its request. -/
theorem committed_valid {n : Node σ} {req : EnlistRequest σ} {state : σ} {batch : StagedBatch}
    (h : n.committed req state = some batch) :
    ∃ req' op staged, req.unmarshal n.loader = (.ok (), req') ∧
      n.state.stageRows (req'.applyContext op) req'.takeRows.1 state =
        (.ok staged, (n.enlist req state).2.2) ∧ staged.batch = batch ∧
      (topology (n.enlist req state).2.2).validate req.topology
        (req'.takeRows.1.map fun row => row.keyObject.partition) n.id = .ok () := by
  have hending := n.enlist_ending req state
  unfold committed at h
  rcases hr : n.enlist req state with ⟨outcome, n', state'⟩
  rw [hr] at hending h
  cases hending with
  | rejected he => cases h
  | idle hop =>
    simp only [hop] at h
    split at h
    · next hnone => cases hnone
    · cases h
  | @committed req' op staged _ hreq hop hstaged hvalid =>
    simp only [hreq, hop, hstaged, Option.some.injEq] at h
    exact ⟨req', op, staged, hreq, hstaged, h, hvalid⟩

/-- A key that a batch writes or locks is declared in a partition that the node owned at the
commit, on the version of the request. -/
theorem committed_declared {n : Node σ} {req : EnlistRequest σ} {state : σ} {batch : StagedBatch}
    (h : n.committed req state = some batch) {key : Bytes} (hkey : key ∈ batch.keys) :
    (topology (n.enlist req state).2.2).version = req.topology ∧
      ∃ k ∈ req.declaredKeys, k.bytes = some key ∧
        (topology (n.enlist req state).2.2).primary k.partition = some n.id := by
  obtain ⟨req', op, staged, hreq, hstaged, rfl, hvalid⟩ := committed_valid h
  obtain ⟨hversion, howned⟩ := TopologyView.validate_ok_iff.mp hvalid
  refine ⟨hversion, ?_⟩
  rcases stageFrom_keys hstaged hkey with hnone | ⟨row, hrow, hbytes⟩
  · cases hnone
  · obtain ⟨k, hk, hwire⟩ := EnlistRequest.unmarshal_declares hreq hrow
    obtain ⟨hpartition, hsame, -⟩ := KeyObject.mk.inj hwire
    refine ⟨k, hk, hsame.trans hbytes, ?_⟩
    rw [hpartition]
    exact howned _ (List.mem_map_of_mem (f := fun row => row.keyObject.partition) hrow)

/-- A key that a node writes or locks is declared by the request that it is given, in a partition
that the node owned at the commit. -/
theorem touched_declared {n : Node σ} {payload : Bytes} {state : σ} {key : Bytes}
    (h : key ∈ n.touched payload state) :
    ∃ req, n.decodeRequest payload = .ok req ∧
      (topology (n.handleBytes payload state).2.2).version = req.topology ∧
      ∃ k ∈ req.declaredKeys, k.bytes = some key ∧
        (topology (n.handleBytes payload state).2.2).primary k.partition = some n.id := by
  unfold touched at h
  cases hread : n.decodeRequest payload with
  | error e =>
    rw [hread] at h
    cases h
  | ok req =>
    have hafter : (n.handleBytes payload state).2.2 = (n.enlist req state).2.2 := by
      simp only [handleBytes, hread, handleRequest]
    simp only [hread] at h
    cases hcommitted : n.committed req state with
    | none =>
      rw [hcommitted] at h
      cases h
    | some batch =>
      rw [hcommitted] at h
      refine ⟨req, rfl, ?_⟩
      rw [hafter]
      exact committed_declared hcommitted h

/-- A key that is written or locked hashes to a partition of the node, if the request declares the
partitions to which its keys hash. -/
theorem touched_owned {n : Node σ} {payload : Bytes} {state : σ} {key : Bytes}
    (hhashed : ∀ req, n.decodeRequest payload = .ok req → req.Hashed n.context)
    (h : key ∈ n.touched payload state) :
    (topology (n.handleBytes payload state).2.2).primary (n.context.partitionOf key) =
      some n.id := by
  obtain ⟨req, hread, -, k, hk, hbytes, howned⟩ := touched_declared h
  rwa [hhashed req hread k hk key hbytes] at howned

/-- A request of a caller with as many partitions touches keys of the node and no others. -/
theorem touched_owned_of_caller {n : Node σ} {e : Enlister σ} {part : Part}
    {sent : EnlistRequest σ} {rows : List Row} {payload : Bytes} {state : σ} {key : Bytes}
    (hfresh : sent.Fresh rows) (hsent : e.encodeRequest part sent = .ok payload)
    (hpartitions : e.context.partitions = n.context.partitions)
    (h : key ∈ n.touched payload state) :
    (topology (n.handleBytes payload state).2.2).primary (n.context.partitionOf key) =
      some n.id :=
  touched_owned (fun _ hread => (decodeRequest_carries hfresh hsent hread).hashed hpartitions) h

/-- The rows of keys that are not touched stay as they are. -/
theorem handleBytes_untouched {n : Node σ} (h : n.state.store.WellFormed) {payload : Bytes}
    {state : σ} {key : Bytes} (hkey : key ∉ n.touched payload state) :
    (n.handleBytes payload state).2.1.state.store.versions key = n.state.store.versions key ∧
      (n.handleBytes payload state).2.1.state.store.lockOwner key =
        n.state.store.lockOwner key := by
  unfold touched at hkey
  unfold handleBytes
  cases hread : n.decodeRequest payload with
  | error e => exact ⟨rfl, rfl⟩
  | ok req =>
    simp only [hread] at hkey
    simp only [handleRequest_committed]
    cases hcommitted : n.committed req state with
    | none => exact ⟨rfl, rfl⟩
    | some batch =>
      rw [hcommitted] at hkey
      obtain ⟨-, ctx, rows, staged, state', hstaged, rfl, -⟩ := committed_staged hcommitted
      exact foldl_permitted_other (n.state.stageRows_permitted hstaged) hkey h

/-- A node only touches keys that are declared in its partitions. Let a node that started without
rows be asked anything, and then be given any octets in any state of the topology. A key that is
written or locked is declared by the request in these octets, in a partition that the node owned
at the commit in a view of the version of the request. Hence, if the request declares the
partitions to which its keys hash on the node, then the keys that are written or locked hash to
partitions that the node owned at the commit. The rows of all other keys stay as they are. -/
theorem handleBytes_touches_declared {start n : Node σ} {actions : List (NodeAction σ)}
    (hstart : start.state = {}) (hn : start.performAll actions = n) (payload : Bytes) (state : σ) :
    let after := n.handleBytes payload state
    (∀ key ∈ n.touched payload state, ∃ req, n.decodeRequest payload = .ok req ∧
        (topology after.2.2).version = req.topology ∧ ∃ k ∈ req.declaredKeys, k.bytes = some key ∧
          (topology after.2.2).primary k.partition = some n.id) ∧
      ((∀ req, n.decodeRequest payload = .ok req → req.Hashed n.context) →
        ∀ key ∈ n.touched payload state,
          (topology after.2.2).primary (n.context.partitionOf key) = some n.id) ∧
      ∀ key, key ∉ n.touched payload state →
        after.2.1.state.store.versions key = n.state.store.versions key ∧
        after.2.1.state.store.lockOwner key = n.state.store.lockOwner key :=
  ⟨fun _ => touched_declared, fun hhashed _ => touched_owned hhashed,
    fun _ => handleBytes_untouched (hn ▸ wellFormed_performAll hstart actions)⟩

/-- An upsert on the node that owns the partition to which its key hashes touches this key. -/
theorem handleBytes_touches_own_key :
    let view := TopologyView.ofNodes [1, 2] 4
    let n : Node TopologyView :=
      { id := 2, config := { partitions := 4 }, loader := .ofRegistrations [] [] []
        context := .ofCache 1 4 }
    let key := Value.encode (.int 1)
    let request : EnlistRequest TopologyView :=
      { base := { cacheId := 1 }, topology := ⟨1, 0⟩, op := some .upsert
        wire := some (.entries [.ofKey n.context (.int 1)]
          [(ValueObject.ofValue (.int 4)).marshal]) }
    let payload := (⟨.request, WireForm.toRecord request⟩ : Draft).encode
    key ∈ n.touched payload view ∧
      (topology (n.handleBytes payload view).2.2).primary (n.context.partitionOf key) = some 2 := by
  intro view n key request payload
  have htouched : key ∈ n.touched payload view := by decide +kernel
  have hkeys : (n.decodeRequest payload).toOption.map (fun req => req.declaredKeys.map fun k =>
      (k.bytes, k.partition)) = some [(some key, n.context.partitionOf key)] := by decide +kernel
  clear_value payload key
  have hn : n.performAll [] = n := rfl
  obtain ⟨-, howned, -⟩ := handleBytes_touches_declared rfl hn payload view
  refine ⟨htouched, howned (fun req hread k hk bytes hbytes => ?_) key htouched⟩
  rw [hread] at hkeys
  have hdeclared : (req.declaredKeys.map fun k => (k.bytes, k.partition)) =
      [(some key, n.context.partitionOf key)] := Option.some.inj hkeys
  have hpair := List.mem_map_of_mem (f := fun k : KeyObject => (k.bytes, k.partition)) hk
  rw [hdeclared, List.mem_singleton, hbytes] at hpair
  obtain ⟨hsame, hpartition⟩ := Prod.mk.inj hpair
  rw [hpartition, Option.some.inj hsame]

/-- A node takes the word of the sender for the partition of a key. An upsert that declares the
first partition, of the first node, writes and locks a key there that hashes to a partition of the
second node. -/
theorem handleBytes_touches_foreign_key :
    let view := TopologyView.ofNodes [1, 2] 4
    let n : Node TopologyView :=
      { id := 1, config := { partitions := 4 }, loader := .ofRegistrations [] [] []
        context := .ofCache 1 4 }
    let key := Value.encode (.int 1)
    let request : EnlistRequest TopologyView :=
      { base := { cacheId := 1 }, topology := ⟨1, 0⟩, op := some .upsert, lock := ⟨1, 1, 100⟩
        wire := some (.entries [{ partition := 0, bytes := some key }]
          [(ValueObject.ofValue (.text "a")).marshal]) }
    let payload := (⟨.request, WireForm.toRecord request⟩ : Draft).encode
    let after := n.handleBytes payload view
    key ∈ n.touched payload view ∧ (after.2.1.state.store.versions key).length = 1 ∧
      after.2.1.state.store.lockOwner key = some ⟨1, 1, 100⟩ ∧ after.2.2 = view ∧
      view.primary (n.context.partitionOf key) = some 2 := by
  decide +kernel

end Node

end Enlistment
