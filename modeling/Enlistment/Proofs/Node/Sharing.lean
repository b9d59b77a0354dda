import Enlistment.Proofs.Node.PureCode
import Enlistment.Proofs.Node.Splitting

/-!
# Sharing a batch between nodes

A row reads and changes nothing but the lock and the value of its own key. So a node that gets only
the rows of some keys of a batch, in the order of the batch, does to these keys what a node does
that gets them all, and the rows have the same effects. The numbers of the writes without a snapshot
differ; they show in no value that is read.
-/

namespace Enlistment

variable {σ : Type}

/-! ## One more effect -/

namespace Staged

/-- The owner of the lock on a key after one more effect. -/
theorem lockOwner_add (s : Staged) (ctx : ApplyContext σ) (index : Nat) (key : Bytes)
    (effect : RowEffect) (store : Store) (key' : Bytes) :
    ((s.add ctx index key effect).batch.ops.foldl Store.apply store).lockOwner key' =
      if key = key' ∧ effect.locks = true then some ctx.lock
      else (s.batch.ops.foldl Store.apply store).lockOwner key' := by
  have hlocked : ∀ before : Store,
      ((if effect.locks then [StoreOp.lock key ctx.lock] else []).foldl Store.apply
        before).lockOwner key' =
      if key = key' ∧ effect.locks = true then some ctx.lock else before.lockOwner key' := by
    intro before
    by_cases hlocks : effect.locks = true
    · simp only [hlocks, if_true, and_true, List.foldl_cons, List.foldl_nil,
        Store.lockOwner_apply_lock]
    · simp only [hlocks, and_false, if_false, List.foldl_nil, Bool.false_eq_true]
  unfold add
  cases effect.written with
  | none => simp only [List.foldl_append, hlocked]
  | some value =>
    simp only [List.foldl_append, List.foldl_cons, List.foldl_nil, Store.lockOwner_apply_put,
      hlocked]

end Staged

/-! ## The rows of some keys -/

/-- What is staged on two stores agrees on the keys that one of them owns. -/
structure Staged.AgreeOn (own : Bytes → Bool) (a b : Store) (s t : Staged) : Prop where
  writes : ∀ key, own key = true → t.batch.writes.get? key = s.batch.writes.get? key
  lockOwner : ∀ key, own key = true →
    (t.batch.ops.foldl Store.apply b).lockOwner key =
      (s.batch.ops.foldl Store.apply a).lockOwner key

namespace Staged.AgreeOn

variable {own : Bytes → Bool} {a b : Store} {s t : Staged}

/-- A row of an owned key that has the same effect on both stores keeps the agreement. -/
theorem add (h : s.AgreeOn own a b t) (ctx : ApplyContext σ) (i j : Nat) (key : Bytes)
    {effect effect' : RowEffect} (heffect : effect.Agrees effect') :
    (s.add ctx i key effect).AgreeOn own a b (t.add ctx j key effect') := by
  constructor
  · intro key' hkey'
    rw [get?_writes_add, get?_writes_add, h.writes key' hkey', heffect.written]
  · intro key' hkey'
    rw [lockOwner_add, lockOwner_add, h.lockOwner key' hkey', heffect.locks]

/-- A row of another key keeps the agreement. -/
theorem add_other (h : s.AgreeOn own a b t) (ctx : ApplyContext σ) (i : Nat) {key : Bytes}
    (hkey : own key = false) (effect : RowEffect) : (s.add ctx i key effect).AgreeOn own a b t := by
  have hne : ∀ key', own key' = true → key ≠ key' := by
    rintro key' hkey' rfl
    cases hkey.symm.trans hkey'
  constructor
  · intro key' hkey'
    rw [get?_writes_add, if_neg (hne key' hkey'), h.writes key' hkey']
  · intro key' hkey'
    rw [lockOwner_add, if_neg fun hlocked => hne key' hkey' hlocked.1, h.lockOwner key' hkey']

end Staged.AgreeOn

section

variable {ctx : ApplyContext σ} {own : Bytes → Bool} {a b : Store}

/-- A batch on one store and its rows of owned keys on another one have the same effects, if the
stores agree on these keys. The induction is on the batch; what is staged agrees on the owned keys
after each row. -/
theorem stageFrom_owned (hctx : ctx.IsPure)
    (hlocks : ∀ key, own key = true → b.lockOwner key = a.lockOwner key)
    (hvisible : ∀ key, own key = true → b.visible key ctx.snapshot = a.visible key ctx.snapshot)
    {rows : List (EnlistedRow σ)} (hrows : ∀ row ∈ rows, row.IsPure) {i j : Nat}
    {s s' t t' : Staged} {state₁ state₁' state₂ state₂' : σ}
    (hs : stageFrom a ctx i rows s state₁ = (.ok s', state₁'))
    (ht : stageFrom b ctx j (rows.filter fun row => own row.keyBytes) t state₂ =
      (.ok t', state₂'))
    (h : s.AgreeOn own a b t) :
    List.Forall₂ RowEffect.Agrees
        (((rows.zip (effectsFrom a ctx i rows s state₁)).filter fun p => own p.1.keyBytes).map
          Prod.snd)
        (effectsFrom b ctx j (rows.filter fun row => own row.keyBytes) t state₂) ∧
      s'.AgreeOn own a b t' := by
  induction rows generalizing i j s t state₁ state₂ with
  | nil =>
    obtain rfl := Except.ok.inj (Prod.mk.inj hs).1
    obtain rfl := Except.ok.inj (Prod.mk.inj ht).1
    exact ⟨.nil, h⟩
  | cons row rest ih =>
    obtain ⟨hrow, hrest⟩ := List.forall_mem_cons.mp hrows
    obtain ⟨effect, next, heffect, hs'⟩ := stageFrom_cons_ok hs
    simp only [effectsFrom, heffect, List.zip_cons_cons]
    by_cases howned : own row.keyBytes = true
    · have hfilter : (row :: rest).filter (fun row => own row.keyBytes) =
          row :: rest.filter fun row => own row.keyBytes := List.filter_cons_of_pos howned
      rw [hfilter] at ht ⊢
      obtain ⟨effect', next', heffect', ht'⟩ := stageFrom_cons_ok ht
      have hrival : b.rival ctx.lock row.keyBytes = a.rival ctx.lock row.keyBytes := by
        rw [Store.rival, hlocks _ howned, Store.rival]
      have hcurrent : currentValue b ctx t.batch row.keyBytes =
          currentValue a ctx s.batch row.keyBytes := by
        rw [currentValue_eq, currentValue_eq, h.writes _ howned, hvisible _ howned]
      rw [hrival, hcurrent] at heffect'
      -- neither the state of the user code nor the position makes a difference
      obtain ⟨outcome, houtcome⟩ := rowOutcome_isPure hctx hrow i
        (a.rival ctx.lock row.keyBytes) (currentValue a ctx s.batch row.keyBytes)
      have hmoved : rowOutcome ctx i row (a.rival ctx.lock row.keyBytes)
          (currentValue a ctx s.batch row.keyBytes) state₂ = (.ok effect, state₂) := by
        rw [houtcome] at heffect ⊢
        rw [(Prod.mk.inj heffect).1]
      obtain ⟨effect'', heffect'', hagrees⟩ := rowOutcome_agrees hmoved j
      obtain rfl : effect'' = effect' :=
        Except.ok.inj (Prod.mk.inj (heffect''.symm.trans heffect')).1
      obtain ⟨hall, hagree⟩ := ih hrest hs' ht' (h.add ctx i j row.keyBytes hagrees)
      refine ⟨?_, hagree⟩
      rw [List.filter_cons, if_pos howned, List.map_cons]
      simp only [effectsFrom, hrival, hcurrent, heffect']
      exact .cons hagrees hall
    · have hother : own row.keyBytes = false := eq_false_of_ne_true howned
      have hfilter : (row :: rest).filter (fun row => own row.keyBytes) =
          rest.filter fun row => own row.keyBytes := List.filter_cons_of_neg howned
      rw [hfilter] at ht ⊢
      obtain ⟨hall, hagree⟩ := ih hrest hs' ht (h.add_other ctx i hother effect)
      refine ⟨?_, hagree⟩
      rw [List.filter_cons, if_neg howned]
      exact hall

end

/-! ## The stores after a batch -/

/-- Two stores agree on a key: on its lock, on its newest value and, if they keep versions for
snapshots, on all its versions. -/
structure Store.AgreeAt (mvcc : Bool) (a b : Store) (key : Bytes) : Prop where
  lockOwner : b.lockOwner key = a.lockOwner key
  newest : b.visible key none = a.visible key none
  versions : mvcc = true → b.versions key = a.versions key

/-- Stores that agree on a key show it in the same way to the transactions of their mode. -/
theorem Store.AgreeAt.visible {a b : Store} {key : Bytes} {snapshot : Option Snapshot}
    (h : a.AgreeAt snapshot.isSome b key) : b.visible key snapshot = a.visible key snapshot := by
  cases snapshot with
  | none => exact h.newest
  | some s => exact Store.visible_congr (h.versions rfl) _

/-- Agreement at a key is mutual. -/
theorem Store.AgreeAt.symm {mvcc : Bool} {a b : Store} {key : Bytes} (h : a.AgreeAt mvcc b key) :
    b.AgreeAt mvcc a key :=
  ⟨h.lockOwner.symm, h.newest.symm, fun hmvcc => (h.versions hmvcc).symm⟩

/-- Agreement at a key carries over. -/
theorem Store.AgreeAt.trans {mvcc : Bool} {a b c : Store} {key : Bytes} (h : a.AgreeAt mvcc b key)
    (h' : b.AgreeAt mvcc c key) : a.AgreeAt mvcc c key :=
  ⟨h'.lockOwner.trans h.lockOwner, h'.newest.trans h.newest,
    fun hmvcc => (h'.versions hmvcc).trans (h.versions hmvcc)⟩

/-- Putting a version twice leaves the second value. -/
theorem Store.putVersion_putVersion (version : EntryVersion) (first second : Option Bytes)
    (versions : List VersionedValue) :
    putVersion version second (putVersion version first versions) =
      putVersion version second versions := by
  have hsame : Ord.compare version version = .eq := EntryVersion.compare_eq_eq.mpr rfl
  induction versions with
  | nil => simp only [putVersion, hsame]
  | cons v rest ih =>
    cases hcompare : Ord.compare v.version version with
    | lt => simp only [putVersion, hcompare, ih]
    | eq => simp only [putVersion, hcompare, hsame]
    | gt => simp only [putVersion, hcompare, hsame]

/-- The versions of a key after a value, if there is one, was put under the stamp of a snapshot. -/
def Store.stamped (store : Store) (snapshot : Snapshot) (key : Bytes) :
    Option (Option Bytes) → List VersionedValue
  | none => store.versions key
  | some value => Store.putVersion snapshot.version value (store.versions key)

/-- The changes that a transaction with a snapshot stages put the newest staged value of each key
under its stamp, and no other version. -/
def Staged.IsStamped (store : Store) (snapshot : Snapshot) (s : Staged) : Prop :=
  ∀ key, (s.batch.ops.foldl Store.apply store).versions key =
    store.stamped snapshot key (s.batch.writes.get? key)

/-- A row that is tried puts its value under the stamp. -/
theorem Staged.IsStamped.add {store : Store} {snapshot : Snapshot} {s : Staged}
    (h : s.IsStamped store snapshot) (hstore : store.WellFormed) {ctx : ApplyContext σ}
    (hsnapshot : ctx.snapshot = some snapshot) (index : Nat) (key : Bytes) (effect : RowEffect) :
    (s.add ctx index key effect).IsStamped store snapshot := by
  intro key'
  have hformed : (s.batch.ops.foldl Store.apply store).WellFormed := hstore.foldl_apply _
  have hkey := h key
  have hkey' := h key'
  rw [get?_writes_add]
  generalize hbefore : s.batch.ops.foldl Store.apply store = before at hformed hkey hkey'
  have hlocked := before.versions_foldl_locked effect.locks key ctx.lock
  have hformed' := hformed.foldl_apply (if effect.locks = true then [.lock key ctx.lock] else [])
  generalize hafter : (if effect.locks = true then [StoreOp.lock key ctx.lock] else []).foldl
    Store.apply before = after at hlocked hformed'
  cases hwritten : effect.written with
  | none =>
    simp only [Staged.add, hwritten, List.foldl_append, hbefore, hafter, hlocked, hkey',
      Option.none_or, ite_self]
  | some value =>
    have hstamp : ctx.mvccVersion = some snapshot.version := by
      rw [ApplyContext.mvccVersion, hsnapshot]
      rfl
    simp only [Staged.add, hwritten, hstamp, Option.getD_some, List.foldl_append, hbefore, hafter,
      List.foldl_cons, List.foldl_nil, hformed'.versions_apply_put, hlocked, Option.some_or]
    split
    · next hsame =>
      subst hsame
      rw [hkey]
      cases s.batch.writes.get? key with
      | none => rfl
      | some earlier => exact Store.putVersion_putVersion _ _ _ _
    · exact hkey'

/-- Staged rows put their values under the stamp of their snapshot. -/
theorem NodeState.stageRows_isStamped {s : NodeState} {ctx : ApplyContext σ}
    {rows : List (EnlistedRow σ)} {staged : Staged} {state state' : σ}
    (h : s.stageRows ctx rows state = (.ok staged, state')) (hstore : s.store.WellFormed)
    {snapshot : Snapshot} (hsnapshot : ctx.snapshot = some snapshot) :
    staged.IsStamped s.store snapshot :=
  stageFrom_invariant (P := fun _ staged => staged.IsStamped s.store snapshot)
    (fun index row _ effect _ _ hstaged _ => hstaged.add hstore hsnapshot index row.keyBytes effect)
    h fun _ => rfl

/-! ## The states of nodes -/

/-- A state of a node after a number of rows without snapshots. The store is well formed, and if the
node does not keep versions for snapshots, then the number of the last write bounds the versions
and is at most the number of these rows. -/
structure NodeState.Ordered (mvcc : Bool) (rows : Nat) (s : NodeState) : Prop where
  store : s.store.WellFormed
  bounded : mvcc = false → s.store.Bounded s.writeSeq
  writeSeq_le : mvcc = false → s.writeSeq.toInt ≤ rows

/-- Two states agree on the keys that one of them owns. -/
def NodeState.AgreeOn (own : Bytes → Bool) (mvcc : Bool) (a b : NodeState) : Prop :=
  ∀ key, own key = true → a.store.AgreeAt mvcc b.store key

namespace NodeState

variable {own : Bytes → Bool} {mvcc : Bool} {count : Nat} {a b s : NodeState}

/-- The state in which a node starts. -/
theorem Ordered.empty (mvcc : Bool) (count : Nat) : ({} : NodeState).Ordered mvcc count := by
  refine ⟨Store.WellFormed.empty, fun _ key v hv => ?_, fun _ => Int.natCast_nonneg count⟩
  cases hv

/-- Only the store and the number of the last write count. -/
theorem Ordered.congr (h : s.Ordered mvcc count) {s' : NodeState} (hstore : s'.store = s.store)
    (hseq : s'.writeSeq = s.writeSeq) : s'.Ordered mvcc count := by
  obtain ⟨hformed, hbounded, hle⟩ := h
  rw [← hstore] at hformed hbounded
  rw [← hseq] at hbounded hle
  exact ⟨hformed, hbounded, hle⟩

/-- A count of writes may be too high. -/
theorem Ordered.recount (h : s.Ordered mvcc count) {more : Nat}
    (hle : mvcc = false → count ≤ more) : s.Ordered mvcc more := by
  refine ⟨h.store, h.bounded, fun hplain => ?_⟩
  have hseq := h.writeSeq_le hplain
  have hmore := hle hplain
  omega

section

variable {ctx : ApplyContext σ} {rows : List (EnlistedRow σ)} {staged : Staged} {state state' : σ}

/-- What is staged on a state can be read back, as long as there are numbers for all writes. -/
theorem Ordered.readsBack (h : s.Ordered mvcc count) (hmode : ctx.snapshot.isSome = mvcc)
    (hroom : mvcc = false → count + rows.length < 2 ^ 63)
    (hs : s.stageRows ctx rows state = (.ok staged, state')) :
    staged.ReadsBack s.store ctx ∧
      staged.batch.writeSeq.toInt ≤ s.writeSeq.toInt + rows.length := by
  have hplain : ctx.snapshot = none → mvcc = false := fun hnone => by rw [← hmode, hnone]; rfl
  refine s.stageRows_readsBack hs h.store (fun hnone => h.bounded (hplain hnone)) fun hnone => ?_
  have hseq := h.writeSeq_le (hplain hnone)
  have hbound := hroom (hplain hnone)
  omega

/-- A batch that is committed keeps a state ordered, as long as there are numbers for all
writes. -/
theorem Ordered.commit (h : s.Ordered mvcc count) (hmode : ctx.snapshot.isSome = mvcc)
    (hroom : mvcc = false → count + rows.length < 2 ^ 63)
    (hs : s.stageRows ctx rows state = (.ok staged, state')) :
    (s.commit staged.batch).Ordered mvcc (count + rows.length) := by
  obtain ⟨hreads, hseq⟩ := h.readsBack hmode hroom hs
  refine ⟨h.store.foldl_apply _, fun hplain => ?_, fun hplain => ?_⟩
  · refine hreads.bounded ?_
    rw [hplain] at hmode
    exact Option.not_isSome_iff_eq_none.mp (Bool.eq_false_iff.mp hmode)
  · show staged.batch.writeSeq.toInt ≤ _
    have hseq' := h.writeSeq_le hplain
    omega

end

/-- Locks that are released leave a state ordered. -/
theorem Ordered.releaseLocks (h : s.Ordered mvcc count) (owner : LockVersion) :
    (s.releaseLocks owner).2.Ordered mvcc count :=
  ⟨h.store.apply (.unlock owner),
    fun hplain key v hv => h.bounded hplain key v (s.store.versions_apply_unlock owner key ▸ hv),
    h.writeSeq_le⟩

/-- Batches that are staged on two states leave states that agree on the owned keys, if the states
did before and what is staged does. -/
theorem AgreeOn.commit_staged (h : a.AgreeOn own mvcc b) {countA countB : Nat}
    (ha : a.Ordered mvcc countA) (hb : b.Ordered mvcc countB) {ctx : ApplyContext σ}
    (hmode : ctx.snapshot.isSome = mvcc) {rowsA rowsB : List (EnlistedRow σ)}
    (hroomA : mvcc = false → countA + rowsA.length < 2 ^ 63)
    (hroomB : mvcc = false → countB + rowsB.length < 2 ^ 63)
    {s t : Staged} {state₁ state₁' state₂ state₂' : σ}
    (hs : a.stageRows ctx rowsA state₁ = (.ok s, state₁'))
    (ht : b.stageRows ctx rowsB state₂ = (.ok t, state₂'))
    (hstaged : s.AgreeOn own a.store b.store t) :
    (a.commit s.batch).AgreeOn own mvcc (b.commit t.batch) := by
  subst hmode
  intro key hkey
  have hwrites := hstaged.writes key hkey
  cases hsnapshot : ctx.snapshot with
  | none =>
    -- the numbers of the writes differ, so only what is read back can agree
    have hvisible := (ha.readsBack rfl hroomA hs).1.visible key
    have hvisible' := (hb.readsBack rfl hroomB ht).1.visible key
    rw [hsnapshot] at hvisible hvisible'
    refine ⟨hstaged.lockOwner key hkey, ?_, fun h => by cases h⟩
    refine hvisible'.trans (Eq.trans ?_ hvisible.symm)
    rw [hwrites, (h key hkey).newest]
  | some snapshot =>
    -- both put their values under the stamp of the snapshot
    have hversions : (b.commit t.batch).store.versions key =
        (a.commit s.batch).store.versions key := by
      have hstamped := a.stageRows_isStamped hs ha.store hsnapshot key
      have hstamped' := b.stageRows_isStamped ht hb.store hsnapshot key
      refine hstamped'.trans (Eq.trans ?_ hstamped.symm)
      have hsame := (h key hkey).versions (by rw [hsnapshot]; rfl)
      rw [hwrites]
      cases s.batch.writes.get? key <;> simp only [Store.stamped, hsame]
    exact ⟨hstaged.lockOwner key hkey, Store.visible_congr hversions none, fun _ => hversions⟩

/-- A batch on one state and its rows of owned keys on another one have the same effects and leave
states that agree on these keys, if the states did before. -/
theorem AgreeOn.commit (h : a.AgreeOn own mvcc b) (ha : a.Ordered mvcc count)
    (hb : b.Ordered mvcc count) {ctx : ApplyContext σ} (hctx : ctx.IsPure)
    (hmode : ctx.snapshot.isSome = mvcc) {rows : List (EnlistedRow σ)}
    (hrows : ∀ row ∈ rows, row.IsPure) (hroom : mvcc = false → count + rows.length < 2 ^ 63)
    {s t : Staged} {state₁ state₁' state₂ state₂' : σ}
    (hs : a.stageRows ctx rows state₁ = (.ok s, state₁'))
    (ht : b.stageRows ctx (rows.filter fun row => own row.keyBytes) state₂ = (.ok t, state₂')) :
    List.Forall₂ RowEffect.Agrees
        (((rows.zip (effectsFrom a.store ctx 0 rows { batch := { writeSeq := a.writeSeq } }
          state₁)).filter fun p => own p.1.keyBytes).map Prod.snd)
        (effectsFrom b.store ctx 0 (rows.filter fun row => own row.keyBytes)
          { batch := { writeSeq := b.writeSeq } } state₂) ∧
      (a.commit s.batch).AgreeOn own mvcc (b.commit t.batch) := by
  subst hmode
  have hroom' : ctx.snapshot.isSome = false →
      count + (rows.filter fun row => own row.keyBytes).length < 2 ^ 63 := fun hplain =>
    Nat.lt_of_le_of_lt (Nat.add_le_add_left (List.length_filter_le _ _) _) (hroom hplain)
  obtain ⟨heffects, hstaged⟩ := stageFrom_owned hctx (fun key hkey => (h key hkey).lockOwner)
    (fun key hkey => (h key hkey).visible) hrows hs ht
    ⟨fun _ _ => rfl, fun key hkey => (h key hkey).lockOwner⟩
  exact ⟨heffects, h.commit_staged ha hb rfl hroom hroom' hs ht hstaged⟩

/-- States that agree on keys still do after the locks of a transaction were released on both. -/
theorem AgreeOn.releaseLocks (h : a.AgreeOn own mvcc b) (ha : a.store.WellFormed)
    (hb : b.store.WellFormed) (owner : LockVersion) :
    (a.releaseLocks owner).2.AgreeOn own mvcc (b.releaseLocks owner).2 := by
  intro key hkey
  have hagree := h key hkey
  have hversions : ∀ s : NodeState, (s.releaseLocks owner).2.store.versions key =
      s.store.versions key := fun s => s.store.versions_apply_unlock owner key
  refine ⟨?_, ?_, fun hmvcc => ?_⟩
  · show (b.store.apply (.unlock owner)).lockOwner key =
      (a.store.apply (.unlock owner)).lockOwner key
    rw [ha.lockOwner_apply_unlock, hb.lockOwner_apply_unlock, hagree.lockOwner]
  · rw [Store.visible_congr (hversions b), Store.visible_congr (hversions a), hagree.newest]
  · rw [hversions, hversions, hagree.versions hmvcc]

end NodeState

end Enlistment
