import Enlistment.Proofs.Node.Batches
import Enlistment.Proofs.Node.Handling

/-!
# Runs of a node

A node handles requests, releases the locks of finished transactions and vacuums its store, in
any order. User code and the topology may be in another state at each request. Whatever happens
keeps the store well formed, and on a node without snapshots the number of the last write bounds
all versions.
-/

namespace Enlistment

variable {σ : Type}

/-- Something that is asked of a node. -/
inductive NodeAction (σ : Type) where
  /-- A request that is handled in a state of the user code and the topology. -/
  | request (req : EnlistRequest σ) (state : σ)
  /-- A transaction is finished. -/
  | finish (lock : LockVersion)
  | vacuum (horizon : EntryVersion)

/-- The number of keys that are declared by what is asked. -/
def NodeAction.keys : NodeAction σ → Nat
  | request req _ => req.declaredKeys.length
  | finish _ => 0
  | vacuum _ => 0

/-- A commit changes the state of a node, since it counts the request. -/
theorem NodeState.commit_ne (s : NodeState) (batch : StagedBatch) : s.commit batch ≠ s := by
  intro hsame
  have hcounted : s.enlistedRequests + 1 = s.enlistedRequests :=
    congrArg NodeState.enlistedRequests hsame
  simp at hcounted

namespace Node

variable [HasTopology σ]

/-- The node after an action. -/
def perform (n : Node σ) : NodeAction σ → Node σ
  | .request req state => (n.handleRequest req state).2.1
  | .finish lock => (n.finishTransaction lock).2
  | .vacuum horizon => n.vacuum horizon

/-- The node after some actions, one after the other. -/
def performAll (n : Node σ) (actions : List (NodeAction σ)) : Node σ := actions.foldl perform n

/-- The batch that a request commits on a node, if it commits one. -/
def committed (n : Node σ) (req : EnlistRequest σ) (state : σ) : Option StagedBatch :=
  match (n.enlist req state).1, req.unmarshal n.loader, req.op with
  | .ok _, (.ok (), req'), some op =>
    match (n.state.stageRows (req'.applyContext op) req'.takeRows.1 state).1 with
    | .ok staged => some staged.batch
    | .error _ => none
  | _, _, _ => none

/-- A request changes a node by what it commits, and in no other way. -/
theorem handleRequest_committed (n : Node σ) (req : EnlistRequest σ) (state : σ) :
    (n.handleRequest req state).2.1 =
      match n.committed req state with
      | none => n
      | some batch => { n with state := n.state.commit batch } := by
  have hending := n.enlist_ending req state
  unfold handleRequest committed
  rcases hr : n.enlist req state with ⟨outcome, n', state'⟩
  rw [hr] at hending
  cases hending with
  | rejected he => rfl
  | idle hop =>
    simp only [hop]
    rcases req.unmarshal n.loader with ⟨_ | _, req'⟩ <;> rfl
  | committed hreq hop hstaged hvalid => simp only [hreq, hop, hstaged]

/-- Only requests of a node's own mode pass its checks. -/
theorem precheck_ok_snapshot {n : Node σ} {req : EnlistRequest σ} {state : σ}
    (h : n.precheck req state = .ok ()) : req.snapshot.isSome = n.config.mvccEnabled := by
  unfold precheck at h
  split at h
  · cases h
  · split at h
    · cases h
    · split at h
      · cases h
      · next hmode => exact Decidable.not_not.mp hmode

/-- Only requests of a node's own mode are carried out. -/
theorem enlist_ok_snapshot {n : Node σ} {req : EnlistRequest σ} {state : σ}
    {outcome : BatchOutcome} (h : (n.enlist req state).1 = .ok outcome) :
    req.snapshot.isSome = n.config.mvccEnabled := by
  cases hpre : n.precheck req state with
  | ok _ => exact precheck_ok_snapshot hpre
  | error e =>
    simp only [enlist, hpre] at h
    cases h

/-- A request commits a batch that was staged for its rows, under its lock and its snapshot. -/
theorem committed_staged {n : Node σ} {req : EnlistRequest σ} {state : σ} {batch : StagedBatch}
    (h : n.committed req state = some batch) :
    req.snapshot.isSome = n.config.mvccEnabled ∧
      ∃ (ctx : ApplyContext σ) (rows : List (EnlistedRow σ)) (staged : Staged) (state' : σ),
        n.state.stageRows ctx rows state = (.ok staged, state') ∧ staged.batch = batch ∧
          ctx.lock = req.lock ∧ ctx.snapshot = req.snapshot ∧
          rows.length ≤ req.declaredKeys.length := by
  unfold committed at h
  split at h
  · next outcome req' op hok hreq hop =>
    refine ⟨enlist_ok_snapshot hok, ?_⟩
    obtain ⟨filter, wire, enlisted, hsame⟩ := EnlistRequest.unmarshal_eq hreq
    rcases hstaged : n.state.stageRows (req'.applyContext op) req'.takeRows.1 state with
      ⟨e | staged, state'⟩ <;> simp only [hstaged] at h
    · cases h
    · have hlock : req'.lock = req.lock := by rw [hsame]
      have hsnapshot : req'.snapshot = req.snapshot := by rw [hsame]
      exact ⟨_, _, staged, state', hstaged, Option.some.inj h, hlock, hsnapshot,
        EnlistRequest.unmarshal_length_le hreq⟩
  · cases h

/-! ## Invariants of runs -/

/-- An action changes nothing of a node but its state. -/
theorem perform_eq (n : Node σ) (action : NodeAction σ) :
    n.perform action = { n with state := (n.perform action).state } := by
  cases action with
  | request req state =>
    simp only [perform, handleRequest_committed]
    cases n.committed req state <;> rfl
  | finish lock => rfl
  | vacuum horizon => rfl

/-- Handling a request given as octets changes nothing of a node but its state. -/
theorem handleBytes_eq (n : Node σ) (payload : Bytes) (state : σ) :
    (n.handleBytes payload state).2.1 =
      { n with state := (n.handleBytes payload state).2.1.state } := by
  unfold handleBytes
  cases n.decodeRequest payload with
  | error err => rfl
  | ok req => exact n.perform_eq (.request req state)

/-- What every action preserves, a run preserves. -/
theorem performAll_invariant {P : Node σ → Prop}
    (hstep : ∀ n action, P n → P (n.perform action)) {n : Node σ} (h : P n)
    (actions : List (NodeAction σ)) : P (n.performAll actions) := by
  unfold performAll
  induction actions generalizing n with
  | nil => exact h
  | cons action rest ih => exact ih (hstep n action h)

/-- A run changes nothing of a node but its state. -/
theorem performAll_eq (n : Node σ) (actions : List (NodeAction σ)) :
    n.performAll actions = { n with state := (n.performAll actions).state } := by
  refine performAll_invariant (P := fun m => m = { n with state := m.state })
    (fun m action hm => ?_) rfl actions
  rw [perform_eq, hm]

/-- A run changes nothing of the settings of a node. -/
theorem performAll_config (n : Node σ) (actions : List (NodeAction σ)) :
    (n.performAll actions).config = n.config := by
  rw [performAll_eq]

/-- An action keeps the store of a node well formed. -/
theorem wellFormed_perform {n : Node σ} (h : n.state.store.WellFormed) (action : NodeAction σ) :
    (n.perform action).state.store.WellFormed := by
  cases action with
  | request req state =>
    simp only [perform, handleRequest_committed]
    cases n.committed req state with
    | none => exact h
    | some batch => exact h.foldl_apply batch.ops
  | finish lock => exact h.apply (.unlock lock)
  | vacuum horizon => exact h.apply (.vacuum horizon)

/-- The store of a node that started without rows is well formed. -/
theorem wellFormed_performAll {n : Node σ} (h : n.state = {}) (actions : List (NodeAction σ)) :
    (n.performAll actions).state.store.WellFormed := by
  refine performAll_invariant (P := fun m => m.state.store.WellFormed)
    (fun m action hm => wellFormed_perform hm action) ?_ actions
  rw [h]
  exact Store.WellFormed.empty

/-- The number of the last write on a node bounds the versions in its store, and the number of
keys declared so far bounds that number. -/
structure Numbered (n : Node σ) (keys : Nat) : Prop where
  bounded : n.state.store.Bounded n.state.writeSeq
  writeSeq_le : n.state.writeSeq.toInt ≤ keys

/-- On a node without snapshots an action keeps the writes numbered, as long as there are numbers
for the rows of all requests. -/
theorem Numbered.perform {n : Node σ} {keys : Nat} (h : n.Numbered keys)
    (hstore : n.state.store.WellFormed) (hmode : n.config.mvccEnabled = false)
    (action : NodeAction σ) (hroom : keys + action.keys < 2 ^ 63) :
    (n.perform action).Numbered (keys + action.keys) := by
  obtain ⟨hbounded, hseq⟩ := h
  cases action with
  | request req state =>
    simp only [NodeAction.keys] at hroom ⊢
    simp only [Node.perform, handleRequest_committed]
    cases hcommitted : n.committed req state with
    | none => exact ⟨hbounded, by show n.state.writeSeq.toInt ≤ _; omega⟩
    | some batch =>
      obtain ⟨hsnapshot, ctx, rows, staged, state', hstaged, rfl, -, hctx, hlength⟩ :=
        committed_staged hcommitted
      have hnone : ctx.snapshot = none := by
        rw [hctx]
        simpa [hmode] using hsnapshot
      obtain ⟨hreads, hseq'⟩ :=
        n.state.stageRows_readsBack hstaged hstore (fun _ => hbounded) fun _ => by omega
      exact ⟨hreads.bounded hnone, by show staged.batch.writeSeq.toInt ≤ _; omega⟩
  | finish lock =>
    refine ⟨fun key v hv => hbounded key v ?_, hseq⟩
    rwa [← Store.versions_apply_unlock _ lock key]
  | vacuum horizon =>
    exact ⟨fun key v hv => hbounded key v (hstore.mem_versions_vacuum hv), hseq⟩

/-- On a node without snapshots a run keeps the writes numbered, as long as there are numbers
for the rows of all requests. -/
theorem Numbered.performAll {n : Node σ} {keys : Nat} (h : n.Numbered keys)
    (hstore : n.state.store.WellFormed) (hmode : n.config.mvccEnabled = false)
    (actions : List (NodeAction σ)) (hroom : keys + (actions.map NodeAction.keys).sum < 2 ^ 63) :
    (n.performAll actions).Numbered (keys + (actions.map NodeAction.keys).sum) := by
  induction actions generalizing n keys with
  | nil => exact h
  | cons action rest ih =>
    rw [List.map_cons, List.sum_cons, ← Nat.add_assoc] at hroom ⊢
    have hmode' : (n.perform action).config.mvccEnabled = false := by rw [perform_eq, hmode]
    exact ih (h.perform hstore hmode action (by omega)) (wellFormed_perform hstore action) hmode'
      hroom

/-- On a node without snapshots that started without rows all writes are numbered, as long as
there are numbers for the rows of all requests. -/
theorem numbered_performAll {n : Node σ} (h : n.state = {}) (hmode : n.config.mvccEnabled = false)
    (actions : List (NodeAction σ)) (hroom : (actions.map NodeAction.keys).sum < 2 ^ 63) :
    (n.performAll actions).Numbered (actions.map NodeAction.keys).sum := by
  have hstart : n.Numbered 0 := by
    constructor
    · intro key v hv
      rw [h] at hv
      cases hv
    · rw [h]
      exact Int.le_refl 0
  have hstore : n.state.store.WellFormed := by rw [h]; exact Store.WellFormed.empty
  have hall := hstart.performAll hstore hmode actions (by omega)
  rwa [Nat.zero_add] at hall

end Node

end Enlistment
