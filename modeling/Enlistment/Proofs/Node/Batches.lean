import Enlistment.Node
import Enlistment.Proofs.Node.Trying

/-!
# Staged batches

What is told about a batch is put together from the effects of its rows. The changes that are staged
lock and put keys that no other transaction has locked, under the stamp of the transaction. Made one
after the other, they give each key the value that the staging of later rows reads from what is
staged. Both are invariants of trying one more row.
-/

namespace Enlistment

variable {σ : Type}

/-! ## Row by row -/

/-- Staging rows is trying the first one and then staging the others. -/
theorem stageFrom_cons (store : Store) (ctx : ApplyContext σ) (index : Nat)
    (row : EnlistedRow σ) (rest : List (EnlistedRow σ)) (s : Staged) (state : σ) :
    stageFrom store ctx index (row :: rest) s state =
      match rowOutcome ctx index row (store.rival ctx.lock row.keyBytes)
        (currentValue store ctx s.batch row.keyBytes) state with
      | (.error e, state) => (.error e, state)
      | (.ok effect, state) =>
        stageFrom store ctx (index + 1) rest (s.add ctx index row.keyBytes effect) state := by
  rw [stageFrom, stageRow_eq]
  rcases rowOutcome ctx index row (store.rival ctx.lock row.keyBytes)
    (currentValue store ctx s.batch row.keyBytes) state with ⟨e | effect, state'⟩ <;> rfl

/-- If rows can be staged then the first one can be tried. -/
theorem stageFrom_cons_ok {store : Store} {ctx : ApplyContext σ} {index : Nat}
    {row : EnlistedRow σ} {rest : List (EnlistedRow σ)} {s s' : Staged} {state state' : σ}
    (h : stageFrom store ctx index (row :: rest) s state = (.ok s', state')) :
    ∃ effect next,
      rowOutcome ctx index row (store.rival ctx.lock row.keyBytes)
        (currentValue store ctx s.batch row.keyBytes) state = (.ok effect, next) ∧
      stageFrom store ctx (index + 1) rest (s.add ctx index row.keyBytes effect) next =
        (.ok s', state') := by
  rw [stageFrom_cons] at h
  rcases hrow : rowOutcome ctx index row (store.rival ctx.lock row.keyBytes)
    (currentValue store ctx s.batch row.keyBytes) state with ⟨e | effect, next⟩ <;> rw [hrow] at h
  · cases h
  · exact ⟨effect, next, rfl, h⟩

/-- What trying one row preserves, staging rows preserves. -/
theorem stageFrom_invariant {store : Store} {ctx : ApplyContext σ} {P : Nat → Staged → Prop}
    (hstep : ∀ index row s effect state state', P index s →
      rowOutcome ctx index row (store.rival ctx.lock row.keyBytes)
        (currentValue store ctx s.batch row.keyBytes) state = (.ok effect, state') →
      P (index + 1) (s.add ctx index row.keyBytes effect))
    {index : Nat} {rows : List (EnlistedRow σ)} {s s' : Staged} {state state' : σ}
    (h : stageFrom store ctx index rows s state = (.ok s', state')) (hs : P index s) :
    P (index + rows.length) s' := by
  induction rows generalizing index s state with
  | nil =>
    obtain rfl := Except.ok.inj (Prod.mk.inj h).1
    exact hs
  | cons row rest ih =>
    obtain ⟨effect, next, hrow, hrest⟩ := stageFrom_cons_ok h
    have hlater := ih hrest (hstep index row s effect state next hs hrow)
    rwa [Nat.add_assoc, Nat.add_comm 1] at hlater

/-- Rows that can be staged can be staged in two parts. -/
theorem stageFrom_append {store : Store} {ctx : ApplyContext σ} {index : Nat}
    {xs ys : List (EnlistedRow σ)} {s s' : Staged} {state state' : σ}
    (h : stageFrom store ctx index (xs ++ ys) s state = (.ok s', state')) :
    ∃ first next, stageFrom store ctx index xs s state = (.ok first, next) ∧
      stageFrom store ctx (index + xs.length) ys first next = (.ok s', state') := by
  induction xs generalizing index s state with
  | nil => exact ⟨s, state, rfl, h⟩
  | cons row rest ih =>
    obtain ⟨effect, next, hrow, hrest⟩ := stageFrom_cons_ok h
    obtain ⟨first, middle, hfirst, hsecond⟩ := ih hrest
    refine ⟨first, middle, ?_, ?_⟩
    · rw [stageFrom_cons, hrow]
      exact hfirst
    · rwa [List.length_cons, Nat.add_comm rest.length, ← Nat.add_assoc]

/-! ## Effects, row by row -/

/-- The effects of rows that are tried from a position on, up to the first one that cannot be
tried. -/
def effectsFrom (store : Store) (ctx : ApplyContext σ) :
    Nat → List (EnlistedRow σ) → Staged → σ → List RowEffect
  | _, [], _, _ => []
  | index, row :: rest, s, state =>
    match rowOutcome ctx index row (store.rival ctx.lock row.keyBytes)
      (currentValue store ctx s.batch row.keyBytes) state with
    | (.error _, _) => []
    | (.ok effect, state) =>
      effect :: effectsFrom store ctx (index + 1) rest (s.add ctx index row.keyBytes effect) state

/-- The effect at a position is that of the row there, tried on what the rows before it have staged.
The induction is on the rows, which are tried one by one. -/
theorem effectsFrom_getElem? {store : Store} {ctx : ApplyContext σ} {rows : List (EnlistedRow σ)}
    {index i : Nat} {s : Staged} {state : σ} {effect : RowEffect}
    (h : (effectsFrom store ctx index rows s state)[i]? = some effect) :
    ∃ row before now later, rows[i]? = some row ∧
      stageFrom store ctx index (rows.take i) s state = (.ok before, now) ∧
      rowOutcome ctx (index + i) row (store.rival ctx.lock row.keyBytes)
        (currentValue store ctx before.batch row.keyBytes) now = (.ok effect, later) := by
  induction rows generalizing index s state i with
  | nil => cases h
  | cons row rest ih =>
    unfold effectsFrom at h
    split at h
    · cases h
    · next first next hfirst =>
      cases i with
      | zero =>
        obtain rfl := Option.some.inj h
        exact ⟨row, s, state, next, rfl, rfl, hfirst⟩
      | succ i =>
        obtain ⟨found, before, now, later, hfound, hbefore, heffect⟩ := ih h
        rw [Nat.add_assoc, Nat.add_comm 1] at heffect
        refine ⟨found, before, now, later, hfound, ?_, heffect⟩
        rw [List.take_succ_cons, stageFrom_cons, hfirst]
        exact hbefore

/-- Every effect is one that a row may have. -/
theorem effectsFrom_possible {store : Store} {ctx : ApplyContext σ} {rows : List (EnlistedRow σ)}
    {index : Nat} {s : Staged} {state : σ} :
    ∀ effect ∈ effectsFrom store ctx index rows s state, effect.Possible := by
  intro effect hmem
  obtain ⟨i, hi⟩ := List.mem_iff_getElem?.mp hmem
  obtain ⟨row, before, now, later, -, -, houtcome⟩ := effectsFrom_getElem? hi
  exact rowOutcome_possible houtcome

/-- What is told about rows from a position on, given their effects. -/
structure Staged.Tells (ctx : ApplyContext σ) (index : Nat) (effects : List RowEffect)
    (s s' : Staged) : Prop where
  previous : s'.outcome.previous = s.outcome.previous ++
    if ctx.needResult then effects.map RowEffect.returned else []
  updated : s'.outcome.updated = s.outcome.updated +
    UInt64.ofNat (effects.countP fun effect => effect.written.isSome)
  failures : s'.outcome.failures = s.outcome.failures ++ (effects.zipIdx index).flatMap fun p =>
    (p.1.failure.map (RowFailure.ofIndex p.2)).toList

/-- What is told about rows is one more effect and what is told about the others. -/
theorem Staged.Tells.cons {ctx : ApplyContext σ} {index : Nat} {effect : RowEffect}
    {effects : List RowEffect} {s s' : Staged} {key : Bytes}
    (h : Staged.Tells ctx (index + 1) effects (s.add ctx index key effect) s') :
    Staged.Tells ctx index (effect :: effects) s s' := by
  obtain ⟨hprevious, hupdated, hfailures⟩ := h
  refine ⟨?_, ?_, ?_⟩
  · rw [hprevious]
    cases hwritten : effect.written <;> cases hneed : ctx.needResult <;>
      simp [add, hwritten, hneed]
  · rw [hupdated, List.countP_cons]
    cases hwritten : effect.written with
    | none => simp [add, hwritten]
    | some value =>
      simp only [add, hwritten, Option.isSome_some, if_true, UInt64.ofNat_add, UInt64.add_assoc]
      rw [UInt64.add_comm 1]
      rfl
  · rw [hfailures, List.zipIdx_cons, List.flatMap_cons, ← List.append_assoc]
    cases hwritten : effect.written <;> simp only [add, hwritten]

/-- Rows that are staged have one effect each, and what is told about them tells these effects. -/
theorem stageFrom_tells {store : Store} {ctx : ApplyContext σ} {index : Nat}
    {rows : List (EnlistedRow σ)} {s s' : Staged} {state state' : σ}
    (h : stageFrom store ctx index rows s state = (.ok s', state')) :
    (effectsFrom store ctx index rows s state).length = rows.length ∧
      Staged.Tells ctx index (effectsFrom store ctx index rows s state) s s' := by
  induction rows generalizing index s state with
  | nil =>
    obtain rfl := Except.ok.inj (Prod.mk.inj h).1
    refine ⟨rfl, ?_, ?_, ?_⟩ <;> simp [effectsFrom]
  | cons row rest ih =>
    obtain ⟨effect, next, heffect, hrest⟩ := stageFrom_cons_ok h
    obtain ⟨hlength, htells⟩ := ih hrest
    simp only [effectsFrom, heffect]
    exact ⟨congrArg Nat.succ hlength, htells.cons⟩

/-! ## Permitted changes -/

/-- A change that a transaction may stage: it locks a key or puts a value there, under the
stamp of its snapshot if it has one, and no other transaction has locked the key. -/
inductive StoreOp.Permitted (store : Store) (ctx : ApplyContext σ) : StoreOp → Prop
  | lock {key : Bytes} (hfree : store.rival ctx.lock key = none) :
      Permitted store ctx (.lock key ctx.lock)
  | put {key : Bytes} {version : EntryVersion} {value : Option Bytes}
      (hfree : store.rival ctx.lock key = none)
      (hstamp : ∀ s, ctx.snapshot = some s → version = s.version) :
      Permitted store ctx (.put key version value)

/-- Permitted changes of a store are staged. -/
def StagedBatch.Permitted (store : Store) (ctx : ApplyContext σ) (batch : StagedBatch) : Prop :=
  ∀ op ∈ batch.ops, op.Permitted store ctx

/-- Trying a row stages permitted changes. -/
theorem StagedBatch.Permitted.add {store : Store} {ctx : ApplyContext σ} {index : Nat}
    {row : EnlistedRow σ} {s : Staged} {effect : RowEffect}
    {current : Except EnlistError (Option Value)} {state state' : σ}
    (h : s.batch.Permitted store ctx)
    (hrow : rowOutcome ctx index row (store.rival ctx.lock row.keyBytes) current state =
      (.ok effect, state')) :
    (s.add ctx index row.keyBytes effect).batch.Permitted store ctx := by
  have hlocked : ∀ op ∈ if effect.locks = true then [StoreOp.lock row.keyBytes ctx.lock] else [],
      op.Permitted store ctx := by
    intro op hop
    split at hop
    · next hlocks =>
      rw [List.mem_singleton.mp hop]
      exact .lock (rowOutcome_rival hrow hlocks)
    · cases hop
  have hstamp : ∀ snapshot, ctx.snapshot = some snapshot →
      ctx.mvccVersion.getD ⟨0, s.batch.writeSeq + 1⟩ = snapshot.version := by
    intro snapshot hsome
    rw [ApplyContext.mvccVersion, hsome]
    rfl
  intro op hop
  unfold Staged.add at hop
  cases hwritten : effect.written with
  | none =>
    simp only [hwritten, List.mem_append] at hop
    rcases hop with hop | hop
    · exact h op hop
    · exact hlocked op hop
  | some value =>
    simp only [hwritten, List.mem_append, List.mem_singleton] at hop
    rcases hop with (hop | hop) | rfl
    · exact h op hop
    · exact hlocked op hop
    · have hlocks := (rowOutcome_locksIfWrites hrow).locks (by rw [hwritten]; rfl)
      exact .put (rowOutcome_rival hrow hlocks) hstamp

/-- Staged rows stage permitted changes. -/
theorem NodeState.stageRows_permitted {s : NodeState} {ctx : ApplyContext σ}
    {rows : List (EnlistedRow σ)} {staged : Staged} {state state' : σ}
    (h : s.stageRows ctx rows state = (.ok staged, state')) :
    staged.batch.Permitted s.store ctx := by
  refine stageFrom_invariant (P := fun _ staged => staged.batch.Permitted s.store ctx)
    (fun index row staged effect state state' hstaged hrow => hstaged.add hrow) h ?_
  intro op hop
  cases hop

section

variable {store : Store} {ctx : ApplyContext σ} {ops : List StoreOp} {t : Store} {key : Bytes}

/-- Permitted changes leave a locked key locked by its owner. -/
theorem lockOwner_foldl_permitted (h : ∀ op ∈ ops, op.Permitted store ctx) {owner : LockVersion}
    (howner : store.lockOwner key = some owner) (ht : t.lockOwner key = some owner) :
    (ops.foldl Store.apply t).lockOwner key = some owner := by
  induction ops generalizing t with
  | nil => exact ht
  | cons op rest ih =>
    obtain ⟨hop, hrest⟩ := List.forall_mem_cons.mp h
    refine ih hrest ?_
    cases hop with
    | @lock k hfree =>
      rw [Store.lockOwner_apply_lock]
      split
      · next hk =>
        subst hk
        rw [Store.rival_eq_none_iff.mp hfree owner howner]
      · exact ht
    | put hfree hstamp => rw [Store.lockOwner_apply_put, ht]

/-- Permitted changes leave the versions of a key alone that another transaction has locked. -/
theorem versions_foldl_permitted (h : ∀ op ∈ ops, op.Permitted store ctx)
    (hrival : store.rival ctx.lock key ≠ none) (ht : t.WellFormed) :
    (ops.foldl Store.apply t).versions key = t.versions key := by
  induction ops generalizing t with
  | nil => rfl
  | cons op rest ih =>
    obtain ⟨hop, hrest⟩ := List.forall_mem_cons.mp h
    rw [List.foldl_cons, ih hrest (ht.apply op)]
    cases hop with
    | lock hfree => exact Store.versions_apply_lock t _ _ key
    | @put k version value hfree hstamp =>
      rw [ht.versions_apply_put]
      split
      · next hk =>
        subst hk
        exact absurd hfree hrival
      · rfl

/-- Permitted changes change no lock of another transaction. -/
theorem rival_foldl_permitted (h : ∀ op ∈ ops, op.Permitted store ctx)
    (ht : t.rival ctx.lock key = store.rival ctx.lock key) :
    (ops.foldl Store.apply t).rival ctx.lock key = store.rival ctx.lock key := by
  induction ops generalizing t with
  | nil => exact ht
  | cons op rest ih =>
    obtain ⟨hop, hrest⟩ := List.forall_mem_cons.mp h
    refine ih hrest ?_
    cases hop with
    | @lock k hfree =>
      rw [Store.rival, Store.lockOwner_apply_lock]
      split
      · next hk =>
        subst hk
        rw [hfree, Option.filter_eq_none_iff]
        intro owner howner
        simp [Option.some.inj howner]
      · exact ht
    | put hfree hstamp =>
      rw [Store.rival, Store.lockOwner_apply_put]
      exact ht

/-- Permitted changes under a stamp that a reader cannot see make no difference to it. -/
theorem visible_foldl_permitted (h : ∀ op ∈ ops, op.Permitted store ctx) {s : Snapshot}
    (hsnapshot : ctx.snapshot = some s) {reader : Option Snapshot}
    (hunseen : Snapshot.readable reader s.version = false) (ht : t.WellFormed) :
    (ops.foldl Store.apply t).visible key reader = t.visible key reader := by
  induction ops generalizing t with
  | nil => rfl
  | cons op rest ih =>
    obtain ⟨hop, hrest⟩ := List.forall_mem_cons.mp h
    rw [List.foldl_cons, ih hrest (ht.apply op)]
    cases hop with
    | lock hfree => exact Store.visible_congr (Store.versions_apply_lock t _ _ key) reader
    | put hfree hstamp =>
      obtain rfl := hstamp s hsnapshot
      exact ht.visible_apply_put_of_not hunseen _ _ key

end

/-! ## Reading back what is staged -/

/-- No version of a store is above the number of the last write without a snapshot. -/
def Store.Bounded (s : Store) (seq : Int64) : Prop :=
  ∀ key, ∀ v ∈ s.versions key, ¬ (⟨0, seq⟩ : EntryVersion) < v.version

/-- The number of the next write is above all versions of a bounded store. -/
theorem Store.Bounded.not_lt_next {s : Store} {seq : Int64} (h : s.Bounded seq)
    (hroom : seq.toInt + 1 < 2 ^ 63) {key : Bytes} {v : VersionedValue} (hv : v ∈ s.versions key) :
    ¬ (⟨0, seq + 1⟩ : EntryVersion) < v.version := by
  intro habove
  have hnext : (⟨0, seq⟩ : EntryVersion) < ⟨0, seq + 1⟩ := by
    have hcount : seq < seq + 1 := by
      rw [Int64.lt_iff_toInt_lt, toInt_add_one hroom]
      omega
    exact EntryVersion.lt_iff.mpr (.inr ⟨rfl, hcount⟩)
  exact h key v hv (EntryVersion.lt_trans hnext habove)

/-- A put under the number of the next write keeps a store bounded. -/
theorem Store.Bounded.apply_put {s : Store} {seq : Int64} (h : s.Bounded seq)
    (hs : s.WellFormed) (hroom : seq.toInt + 1 < 2 ^ 63) (k : Bytes) (value : Option Bytes) :
    (s.apply (.put k ⟨0, seq + 1⟩ value)).Bounded (seq + 1) := by
  intro key v hv
  rw [hs.versions_apply_put] at hv
  split at hv
  · rcases Store.mem_putVersion hv with rfl | hv
    · exact EntryVersion.lt_irrefl
    · exact h.not_lt_next hroom hv
  · exact h.not_lt_next hroom hv

/-- A transaction can read what it puts, and nothing it can read is above that. -/
theorem ApplyContext.stamp_top {ctx : ApplyContext σ} {s : Store} {seq : Int64}
    (hbounded : ctx.snapshot = none → s.Bounded seq)
    (hroom : ctx.snapshot = none → seq.toInt + 1 < 2 ^ 63) :
    Snapshot.readable ctx.snapshot (ctx.mvccVersion.getD ⟨0, seq + 1⟩) = true ∧
      ∀ key, ∀ v ∈ s.versions key, Snapshot.readable ctx.snapshot v.version = true →
        ¬ ctx.mvccVersion.getD ⟨0, seq + 1⟩ < v.version := by
  unfold mvccVersion
  cases hsnapshot : ctx.snapshot with
  | none => exact ⟨rfl, fun key v hv _ => (hbounded hsnapshot).not_lt_next (hroom hsnapshot) hv⟩
  | some snapshot => exact ⟨snapshot.sees_version, fun key v hv => Snapshot.not_lt_of_sees⟩

/-- The value that is staged for a key after one more effect. -/
theorem Staged.get?_writes_add (s : Staged) (ctx : ApplyContext σ) (index : Nat) (key : Bytes)
    (effect : RowEffect) (key' : Bytes) :
    (s.add ctx index key effect).batch.writes.get? key' =
      if key = key' then effect.written.or (s.batch.writes.get? key')
      else s.batch.writes.get? key' := by
  unfold Staged.add
  cases effect.written with
  | none => simp only [Option.none_or, ite_self]
  | some value => rw [Table.get?_set, Option.some_or]

/-- The changes that are staged give each key the value that is read from what is staged. -/
structure Staged.ReadsBack (store : Store) (ctx : ApplyContext σ) (s : Staged) : Prop where
  visible : ∀ key, (s.batch.ops.foldl Store.apply store).visible key ctx.snapshot =
    (s.batch.writes.get? key).getD (store.visible key ctx.snapshot)
  bounded : ctx.snapshot = none →
    (s.batch.ops.foldl Store.apply store).Bounded s.batch.writeSeq

/-- Locking the key of a row leaves all versions alone. -/
theorem Store.versions_foldl_locked (t : Store) (locks : Bool) (k : Bytes) (owner : LockVersion)
    (key : Bytes) :
    ((if locks = true then [StoreOp.lock k owner] else []).foldl Store.apply t).versions key =
      t.versions key := by
  split
  · exact Store.versions_apply_lock t k owner key
  · rfl

/-- A row that is tried can be read back, unless the numbers of writes are used up. -/
theorem Staged.ReadsBack.add {store : Store} {ctx : ApplyContext σ} {s : Staged}
    (h : s.ReadsBack store ctx) (hstore : store.WellFormed)
    (hroom : ctx.snapshot = none → s.batch.writeSeq.toInt + 1 < 2 ^ 63) (index : Nat)
    (key : Bytes) (effect : RowEffect) : (s.add ctx index key effect).ReadsBack store ctx := by
  obtain ⟨hvisible, hbounded⟩ := h
  have hformed : (s.batch.ops.foldl Store.apply store).WellFormed := hstore.foldl_apply _
  generalize hbefore : s.batch.ops.foldl Store.apply store = before at hvisible hbounded hformed
  have hlocked := before.versions_foldl_locked effect.locks key ctx.lock
  have hformed' := hformed.foldl_apply (if effect.locks = true then [.lock key ctx.lock] else [])
  generalize hafter : (if effect.locks = true then [StoreOp.lock key ctx.lock] else []).foldl
    Store.apply before = after at hlocked hformed'
  have hbounded' : ctx.snapshot = none → after.Bounded s.batch.writeSeq := by
    intro hnone key' v hv
    rw [hlocked] at hv
    exact hbounded hnone key' v hv
  obtain ⟨hreadable, htop⟩ := ApplyContext.stamp_top hbounded' hroom
  cases hwritten : effect.written with
  | none =>
    constructor
    · intro key'
      simp only [Staged.add, hwritten, List.foldl_append, hbefore, hafter]
      rw [Store.visible_congr (hlocked key'), hvisible]
    · simpa only [Staged.add, hwritten, List.foldl_append, hbefore, hafter] using hbounded'
  | some value =>
    constructor
    · intro key'
      simp only [Staged.add, hwritten, List.foldl_append, hbefore, hafter, List.foldl_cons,
        List.foldl_nil, Table.get?_set]
      rw [hformed'.visible_apply_put hreadable (htop key), Store.visible_congr (hlocked key')]
      split
      · rfl
      · exact hvisible key'
    · intro hnone
      have hstamp : ctx.mvccVersion = none := by rw [ApplyContext.mvccVersion, hnone]; rfl
      simp only [Staged.add, hwritten, List.foldl_append, hbefore, hafter, List.foldl_cons,
        List.foldl_nil, hstamp, Option.getD_none, Option.isNone_none, if_true]
      exact (hbounded' hnone).apply_put hformed' (hroom hnone) key value

/-- The number of the last write that is staged is at most the number of rows above the one
before the batch. -/
theorem Staged.add_writeSeq_le {ctx : ApplyContext σ} {s : Staged} {bound : Int} (index : Nat)
    (key : Bytes) (effect : RowEffect) (h : s.batch.writeSeq.toInt ≤ bound)
    (hroom : ctx.snapshot = none → bound + 1 < 2 ^ 63) :
    (s.add ctx index key effect).batch.writeSeq.toInt ≤ bound + 1 := by
  unfold Staged.add
  cases effect.written with
  | none =>
    show s.batch.writeSeq.toInt ≤ bound + 1
    omega
  | some value =>
    dsimp only
    split
    · next hnone =>
      have hsnapshot : ctx.snapshot = none := by
        simpa [ApplyContext.mvccVersion] using hnone
      have hbound := hroom hsnapshot
      rw [toInt_add_one (by omega)]
      omega
    · omega

/-- What is staged can be read back, as long as there are numbers for all writes. -/
theorem NodeState.stageRows_readsBack {s : NodeState} {ctx : ApplyContext σ}
    {rows : List (EnlistedRow σ)} {staged : Staged} {state state' : σ}
    (h : s.stageRows ctx rows state = (.ok staged, state')) (hstore : s.store.WellFormed)
    (hbounded : ctx.snapshot = none → s.store.Bounded s.writeSeq)
    (hroom : ctx.snapshot = none → s.writeSeq.toInt + rows.length < 2 ^ 63) :
    staged.ReadsBack s.store ctx ∧
      staged.batch.writeSeq.toInt ≤ s.writeSeq.toInt + rows.length := by
  have hinv := stageFrom_invariant (P := fun tried staged =>
    (ctx.snapshot = none → s.writeSeq.toInt + tried < 2 ^ 63) →
      staged.ReadsBack s.store ctx ∧ staged.batch.writeSeq.toInt ≤ s.writeSeq.toInt + tried)
    (fun index row staged effect state state' hstaged _ hroom => ?_) h fun _ => ?_
  · rw [Nat.zero_add] at hinv
    exact hinv hroom
  · obtain ⟨hreads, hseq⟩ := hstaged fun hnone => by
      have hbound := hroom hnone
      omega
    have hnext : ctx.snapshot = none → s.writeSeq.toInt + index + 1 < 2 ^ 63 := fun hnone => by
      have hbound := hroom hnone
      omega
    refine ⟨hreads.add hstore (fun hnone => ?_) index _ effect, ?_⟩
    · have hbound := hnext hnone
      omega
    · have hbound := Staged.add_writeSeq_le index row.keyBytes effect hseq hnext
      omega
  · exact ⟨⟨fun key => rfl, hbounded⟩, by simp⟩

end Enlistment
