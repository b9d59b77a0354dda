import Enlistment.Proofs.Node.Actions

/-!
# Locks on rows

A lock is staged without a look at the owner it replaces. That it replaces none but the
transaction's own rests on the check that every row has passed on the store to which its batch
is committed. Only finishing a transaction releases its locks, and releases no others.
-/

namespace Enlistment

variable {σ : Type}

/-- The keys that are locked under a lock version. -/
def Store.keysLockedBy (s : Store) (owner : LockVersion) : List Bytes :=
  (s.locks.filter fun entry => entry.2 == owner).map Prod.fst

/-- A key is locked under a lock version if this is its owner. -/
theorem Store.WellFormed.mem_keysLockedBy {s : Store} (h : s.WellFormed) {owner : LockVersion}
    {key : Bytes} : key ∈ s.keysLockedBy owner ↔ s.lockOwner key = some owner := by
  rw [Store.lockOwner, h.locks.get?_eq_some_iff]
  constructor
  · intro hkey
    obtain ⟨⟨k, held⟩, hentry, rfl⟩ := List.mem_map.mp hkey
    obtain ⟨hmem, howner⟩ := List.mem_filter.mp hentry
    rwa [← eq_of_beq howner]
  · intro hmem
    exact List.mem_map.mpr ⟨(key, owner), List.mem_filter.mpr ⟨hmem, beq_self_eq_true owner⟩, rfl⟩

/-- No key is listed twice. -/
theorem Store.WellFormed.nodup_keysLockedBy {s : Store} (h : s.WellFormed) (owner : LockVersion) :
    (s.keysLockedBy owner).Nodup :=
  h.locks.nodup_keys.sublist (List.filter_sublist.map Prod.fst)

/-- Releasing the locks of a transaction counts the keys that it had locked. -/
theorem NodeState.releaseLocks_count (s : NodeState) (owner : LockVersion) :
    (s.releaseLocks owner).1 = (s.store.keysLockedBy owner).length := by
  have hlocks : (s.releaseLocks owner).2.store.locks =
      s.store.locks.filter fun entry => entry.2 != owner := s.store.locks_apply_unlock owner
  have hcount : (s.releaseLocks owner).1 =
      s.store.locks.length - (s.releaseLocks owner).2.store.locks.length := rfl
  have hsplit := List.length_eq_countP_add_countP
    (fun entry : Bytes × LockVersion => entry.2 == owner) (l := s.store.locks)
  rw [hcount, hlocks, Store.keysLockedBy, List.length_map, ← List.countP_eq_length_filter,
    ← List.countP_eq_length_filter]
  simp only [bne, Bool.not_eq_true, Bool.decide_eq_false] at hsplit ⊢
  omega

namespace Node

variable [HasTopology σ]

/-- An action other than finishing its owner leaves a key locked. -/
theorem lockOwner_perform {n : Node σ} (h : n.state.store.WellFormed) {key : Bytes}
    {owner : LockVersion} (howner : n.state.store.lockOwner key = some owner)
    {action : NodeAction σ} (haction : action ≠ .finish owner) :
    (n.perform action).state.store.lockOwner key = some owner := by
  cases action with
  | request req state =>
    simp only [perform, handleRequest_committed]
    cases hcommitted : n.committed req state with
    | none => exact howner
    | some batch =>
      obtain ⟨-, ctx, rows, staged, state', hstaged, rfl, -⟩ := committed_staged hcommitted
      exact lockOwner_foldl_permitted (n.state.stageRows_permitted hstaged) howner howner
  | finish lock =>
    have hother : owner ≠ lock := fun heq => haction (heq ▸ rfl)
    have hrelease := h.lockOwner_apply_unlock lock key
    rw [howner, Option.filter_some_pos (by simpa using hother)] at hrelease
    exact hrelease
  | vacuum horizon =>
    have hvacuum := n.state.store.lockOwner_apply_vacuum horizon key
    rw [howner] at hvacuum
    exact hvacuum

/-- A key stays locked until its owner is finished. -/
theorem lockOwner_performAll {n : Node σ} (h : n.state.store.WellFormed) {key : Bytes}
    {owner : LockVersion} (howner : n.state.store.lockOwner key = some owner)
    {actions : List (NodeAction σ)} (hactions : NodeAction.finish owner ∉ actions) :
    (n.performAll actions).state.store.lockOwner key = some owner := by
  induction actions generalizing n with
  | nil => exact howner
  | cons action rest ih =>
    have hfirst : action ≠ .finish owner := fun heq => hactions (heq ▸ List.mem_cons_self ..)
    have hrest : NodeAction.finish owner ∉ rest := fun hmem => hactions (List.mem_cons_of_mem _ hmem)
    exact ih (wellFormed_perform h action) (lockOwner_perform h howner hfirst) hrest

/-- A request leaves the versions of a key alone that another transaction has locked. -/
theorem versions_handleRequest {n : Node σ} (h : n.state.store.WellFormed) {key : Bytes}
    {owner : LockVersion} (howner : n.state.store.lockOwner key = some owner)
    {req : EnlistRequest σ} (hother : req.lock ≠ owner) (state : σ) :
    (n.handleRequest req state).2.1.state.store.versions key = n.state.store.versions key := by
  rw [handleRequest_committed]
  cases hcommitted : n.committed req state with
  | none => rfl
  | some batch =>
    obtain ⟨-, ctx, rows, staged, state', hstaged, rfl, hlock, -⟩ := committed_staged hcommitted
    refine versions_foldl_permitted (n.state.stageRows_permitted hstaged) (fun hfree => ?_) h
    rw [hlock] at hfree
    exact hother (Store.rival_eq_none_iff.mp hfree owner howner).symm

/-- Locks on rows are exclusive. On a node that started without rows, whatever it has been
asked so far, a locked key keeps its owner until this transaction is finished, and meanwhile no
request of another one changes the versions of the key. Finishing a transaction releases the
locks on exactly the keys it has locked, gives their number, and changes no other lock, no
version and nothing else of the node. -/
theorem locks_exclusive_until_finished {start n : Node σ} {actions : List (NodeAction σ)}
    (hstart : start.state = {}) (hn : start.performAll actions = n) :
    (∀ (key : Bytes) (owner : LockVersion) (later : List (NodeAction σ)),
      n.state.store.lockOwner key = some owner → NodeAction.finish owner ∉ later →
        (n.performAll later).state.store.lockOwner key = some owner ∧
        ∀ (req : EnlistRequest σ) (state : σ), req.lock ≠ owner →
          ((n.performAll later).handleRequest req state).2.1.state.store.versions key =
            (n.performAll later).state.store.versions key) ∧
      ∀ owner : LockVersion,
        (∀ key, (n.finishTransaction owner).2.state.store.lockOwner key =
          if n.state.store.lockOwner key = some owner then none
          else n.state.store.lockOwner key) ∧
        (n.finishTransaction owner).2 = { n with
          state.store.locks := (n.finishTransaction owner).2.state.store.locks } ∧
        ∃ keys : List Bytes, keys.Nodup ∧
          (∀ key, key ∈ keys ↔ n.state.store.lockOwner key = some owner) ∧
          (n.finishTransaction owner).1 = keys.length := by
  have hformed : n.state.store.WellFormed := hn ▸ wellFormed_performAll hstart actions
  refine ⟨fun key owner later howner hlater => ?_, fun owner => ⟨fun key => ?_, ?_, ?_⟩⟩
  · have hkept := lockOwner_performAll hformed howner hlater
    have hformed' : (n.performAll later).state.store.WellFormed :=
      performAll_invariant (P := fun m => m.state.store.WellFormed)
        (fun m action hm => wellFormed_perform hm action) hformed later
    exact ⟨hkept, fun req state hother => versions_handleRequest hformed' hkept hother state⟩
  · have hrelease : (n.finishTransaction owner).2.state.store.lockOwner key =
        (n.state.store.lockOwner key).filter fun held => held != owner :=
      hformed.lockOwner_apply_unlock owner key
    rw [hrelease]
    cases n.state.store.lockOwner key with
    | none => rfl
    | some held => by_cases hheld : held = owner <;> simp [hheld]
  · have hstore : n.state.store.apply (.unlock owner) =
        { n.state.store with locks := (n.state.store.apply (.unlock owner)).locks } := by
      dsimp only
      rw [← n.state.store.data_apply_unlock owner]
    show ({ n with state.store := n.state.store.apply (.unlock owner) } : Node σ) = _
    rw [hstore]
    rfl
  · exact ⟨n.state.store.keysLockedBy owner, hformed.nodup_keysLockedBy owner,
      fun key => hformed.mem_keysLockedBy, n.state.releaseLocks_count owner⟩

/-- A row that one transaction has locked keeps its version whatever the other one asks, and
finishing the other one releases nothing. Finishing the first one releases its lock. -/
theorem locks_exclusive_for_two_transactions :
    let view := TopologyView.ofNodes [1] 1
    let start : Node TopologyView :=
      { id := 1, config := {}, loader := .ofRegistrations [] [] [], context := .ofCache 1 1 }
    let key := Value.encode (.int 3)
    let upsert (lock : LockVersion) (value : Value) : EnlistRequest TopologyView :=
      { base := { cacheId := 1 }, topology := ⟨1, 0⟩, lock, op := some .upsert
        wire := some (.entries [.ofKey start.context (.int 3)] [(ValueObject.ofValue value).marshal]) }
    let n := start.performAll [.request (upsert ⟨1, 1, 1⟩ (.int 4)) view]
    let later : List (NodeAction TopologyView) :=
      [.request (upsert ⟨1, 2, 1⟩ (.int 5)) view, .finish ⟨1, 2, 1⟩]
    let busy := n.performAll later
    n.state.store.lockOwner key = some ⟨1, 1, 1⟩ ∧ (n.state.store.versions key).length = 1 ∧
      busy.state.store.lockOwner key = some ⟨1, 1, 1⟩ ∧
      (busy.handleRequest (upsert ⟨1, 2, 1⟩ (.int 5)) view).2.1.state.store.versions key =
        busy.state.store.versions key ∧
      (n.finishTransaction ⟨1, 1, 1⟩).2.state.store.lockOwner key = none := by
  intro view start key upsert n later busy
  have howner : n.state.store.lockOwner key = some ⟨1, 1, 1⟩ := by decide +kernel
  have hversions : (n.state.store.versions key).length = 1 := by decide +kernel
  have hstart : start.state = {} := rfl
  have hn : start.performAll [.request (upsert ⟨1, 1, 1⟩ (.int 4)) view] = n := rfl
  obtain ⟨hkept, hreleased⟩ := locks_exclusive_until_finished hstart hn
  have hlater : NodeAction.finish ⟨1, 1, 1⟩ ∉ later := by simp [later]
  obtain ⟨hbusy, hversions'⟩ := hkept key ⟨1, 1, 1⟩ later howner hlater
  have hafter : n.performAll later = busy := rfl
  rw [hafter] at hbusy hversions'
  have hother : (⟨1, 2, 1⟩ : LockVersion) ≠ ⟨1, 1, 1⟩ := by simp
  refine ⟨howner, hversions, hbusy, hversions' (upsert ⟨1, 2, 1⟩ (.int 5)) view hother, ?_⟩
  have hfinished := (hreleased ⟨1, 1, 1⟩).1 key
  rwa [if_pos howner] at hfinished

end Node

end Enlistment
