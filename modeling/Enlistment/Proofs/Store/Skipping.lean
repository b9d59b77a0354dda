import Enlistment.Node
import Enlistment.Proofs.Store.Vacuum

/-!
# Changes that are skipped

A change that is taken to have no effect is skipped. For puts and locks this is the same as
making it. A vacuum is judged by the versions at or below its horizon alone: it may be skipped
where it would still have dropped the keys that have a lone tombstone left.
-/

namespace Enlistment

/-- Whether a change drops versions. -/
def StoreOp.isVacuum : StoreOp → Bool
  | .vacuum _ => true
  | _ => false

/-- A change that drops versions is a vacuum. -/
theorem StoreOp.exists_of_isVacuum {op : StoreOp} (h : op.isVacuum = true) :
    ∃ horizon, op = .vacuum horizon := by
  cases op with
  | vacuum horizon => exact ⟨horizon, rfl⟩
  | put k version value => cases h
  | lock k owner => cases h
  | unlock owner => cases h

namespace Store

/-- Whether the only version of some key is a tombstone. -/
def hasLoneTombstone (s : Store) : Bool := s.data.any fun entry => isLoneTombstone entry.2

/-- Whether no vacuum of a run is skipped while the store has a lone tombstone. -/
def collectsTombstones : Store → List StoreOp → Bool
  | _, [] => true
  | s, op :: rest =>
    !(op.isVacuum && s.isNoop op && s.hasLoneTombstone) && collectsTombstones (s.apply op) rest

section

variable {s t : Store} {op : StoreOp} {horizon : EntryVersion}

/-! ## Vacuums that are taken to have no effect -/

/-- A vacuum that is taken to have no effect finds at most one version of each key at or below
its horizon. -/
theorem countBelow_of_isNoop (hnoop : s.isNoop (.vacuum horizon) = true)
    (h : s.WellFormed) (key : Bytes) : countBelow horizon (s.versions key) ≤ 1 := by
  unfold Store.versions
  cases hget : s.data.get? key with
  | none => exact Nat.zero_le 1
  | some found =>
    have hmem : (key, found) ∈ s.data := h.data.get?_eq_some_iff.mp hget
    exact of_decide_eq_true (List.all_eq_true.mp hnoop _ hmem)

/-- A store has a lone tombstone if the versions of some key are one. -/
theorem WellFormed.hasLoneTombstone_iff (h : s.WellFormed) :
    s.hasLoneTombstone = true ↔ ∃ key, isLoneTombstone (s.versions key) = true := by
  rw [hasLoneTombstone, List.any_eq_true]
  constructor
  · rintro ⟨⟨key, found⟩, hmem, hlone⟩
    refine ⟨key, ?_⟩
    rwa [Store.versions, h.data.get?_eq_some_iff.mpr hmem]
  · rintro ⟨key, hlone⟩
    unfold Store.versions at hlone
    cases hget : s.data.get? key with
    | none => rw [hget] at hlone; cases hlone
    | some found =>
      rw [hget] at hlone
      exact ⟨(key, found), h.data.get?_eq_some_iff.mp hget, hlone⟩

/-! ## Changes that are taken to have no effect -/

/-- Locks change by themselves, whatever the versions are. -/
theorem locks_execute_congr (h : s.locks = t.locks) (op : StoreOp) :
    (s.execute op).locks = (t.execute op).locks := by
  cases op with
  | put k version value => exact h
  | lock k owner => exact congrArg (Table.set k owner) h
  | unlock owner => exact congrArg (List.filter fun entry => entry.2 != owner) h
  | vacuum horizon => exact h

/-- A put or a change of locks can be skipped if it is taken to have no effect. -/
theorem WellFormed.apply_eq_execute (h : s.WellFormed) (hs : s.Occupied)
    (hop : op.isVacuum = false) : s.apply op = s.execute op := by
  refine (h.apply op).ext (h.execute op) (hs.apply op) (hs.execute op) (fun key => ?_)
    fun key => ?_
  · cases op with
    | put k version value => rw [h.versions_apply_put, versions_execute_put]
    | lock k owner => exact versions_apply_lock s k owner key
    | unlock owner => exact versions_apply_unlock s owner key
    | vacuum horizon => cases hop
  · cases op with
    | put k version value => exact lockOwner_apply_put s k version value key
    | lock k owner => rw [lockOwner_apply_lock]; exact (Table.get?_set s.locks k key owner).symm
    | unlock owner => rw [lockOwner, locks_apply_unlock]; rfl
    | vacuum horizon => cases hop

/-- Of a change that is taken to have no effect, making it can only take a lone tombstone away,
and only a vacuum does. -/
theorem WellFormed.versions_execute_of_isNoop (h : s.WellFormed) (hs : s.Occupied)
    (hnoop : s.isNoop op = true) (key : Bytes) : (s.execute op).versions key =
      if op.isVacuum && isLoneTombstone (s.versions key) then [] else s.versions key := by
  cases hop : op.isVacuum with
  | false =>
    rw [← h.apply_eq_execute hs hop, Store.apply, if_pos hnoop]
    rfl
  | true =>
    obtain ⟨horizon, rfl⟩ := StoreOp.exists_of_isVacuum hop
    have hcount := countBelow_of_isNoop hnoop h key
    rw [h.versions_execute_vacuum_eq, (h.sorted key).dropSuperseded_of_countBelow hcount,
      Bool.true_and]

/-- Making a change that is taken to have no effect leaves all locks alone. -/
theorem WellFormed.locks_execute_of_isNoop (h : s.WellFormed) (hs : s.Occupied)
    (hnoop : s.isNoop op = true) : (s.execute op).locks = s.locks := by
  cases hop : op.isVacuum with
  | false => rw [← h.apply_eq_execute hs hop, Store.apply, if_pos hnoop]
  | true =>
    obtain ⟨horizon, rfl⟩ := StoreOp.exists_of_isVacuum hop
    rfl

/-- Making a change that is taken to have no effect does so, unless it is a vacuum and the store
has a lone tombstone. -/
theorem WellFormed.execute_eq_self_iff (h : s.WellFormed) (hs : s.Occupied)
    (hnoop : s.isNoop op = true) :
    s.execute op = s ↔ (op.isVacuum && s.hasLoneTombstone) = false := by
  rw [← Bool.not_eq_true, Bool.and_eq_true, h.hasLoneTombstone_iff]
  constructor
  · rintro hself ⟨hop, key, hlone⟩
    have hversions := h.versions_execute_of_isNoop hs hnoop key
    rw [hself, hop, hlone] at hversions
    rw [show s.versions key = [] from hversions] at hlone
    cases hlone
  · intro hnone
    refine (h.execute op).ext h (hs.execute op) hs (fun key => ?_) fun key => ?_
    · rw [h.versions_execute_of_isNoop hs hnoop, if_neg]
      intro hboth
      obtain ⟨hop, hlone⟩ := Bool.and_eq_true_iff.mp hboth
      exact hnone ⟨hop, key, hlone⟩
    · rw [lockOwner, h.locks_execute_of_isNoop hs hnoop, lockOwner]

/-- What is read stays the same when a change is made that is taken to have no effect. -/
theorem WellFormed.visible_execute_of_isNoop (h : s.WellFormed) (hs : s.Occupied)
    (hnoop : s.isNoop op = true) (key : Bytes) (snapshot : Option Snapshot) :
    (s.execute op).visible key snapshot = s.visible key snapshot := by
  rw [visible, h.versions_execute_of_isNoop hs hnoop]
  exact visibleVersion_forget (fun hboth => (Bool.and_eq_true_iff.mp hboth).2) snapshot

/-! ## Runs -/

/-- Skipping changes that are taken to have no effect leads to the same locks. -/
theorem WellFormed.locks_foldl_apply (h : s.WellFormed) (hs : s.Occupied)
    (hlocks : s.locks = t.locks) (ops : List StoreOp) :
    (ops.foldl Store.apply s).locks = (ops.foldl Store.execute t).locks := by
  induction ops generalizing s t with
  | nil => exact hlocks
  | cons op rest ih =>
    refine ih (h.apply op) (hs.apply op) ?_
    rw [← locks_execute_congr hlocks]
    unfold Store.apply
    split
    · next hnoop => exact (h.locks_execute_of_isNoop hs hnoop).symm
    · rfl

/-- Skipping changes leads to the same store if no vacuum is skipped while the store has a lone
tombstone. -/
theorem WellFormed.foldl_apply_eq (h : s.WellFormed) (hs : s.Occupied) {ops : List StoreOp}
    (hcollects : s.collectsTombstones ops = true) :
    ops.foldl Store.apply s = ops.foldl Store.execute s := by
  induction ops generalizing s with
  | nil => rfl
  | cons op rest ih =>
    rw [collectsTombstones, Bool.and_eq_true, Bool.not_eq_true'] at hcollects
    have hstep : s.apply op = s.execute op := by
      unfold Store.apply
      split
      · next hnoop =>
        rw [hnoop, Bool.and_true] at hcollects
        exact ((h.execute_eq_self_iff hs hnoop).mpr hcollects.1).symm
      · rfl
    rw [List.foldl_cons, List.foldl_cons, ← hstep]
    exact ih (h.apply op) (hs.apply op) hcollects.2

end

/-- What skipping leaves out. In a store with any history a change that is taken to have no
effect leaves all locks and whatever is read alone, and it leaves the versions of each key alone
but for one case: a vacuum that is taken to have no effect would still have dropped the lone
tombstones. A node that skips such changes ends with the locks it would have had, and with the
same store if it skips no vacuum while a lone tombstone is stored. -/
theorem skipped_but_lone_tombstones {history : List StoreOp} {n : NodeState}
    (hn : n.store = history.foldl Store.execute {}) (ops : List StoreOp) :
    (∀ op, n.store.isNoop op = true →
      (n.store.execute op).locks = n.store.locks ∧
      (∀ key, (n.store.execute op).versions key =
        if op.isVacuum && isLoneTombstone (n.store.versions key) then []
        else n.store.versions key) ∧
      (∀ key snapshot,
        (n.store.execute op).visible key snapshot = n.store.visible key snapshot) ∧
      (n.store.execute op = n.store ↔ (op.isVacuum && n.store.hasLoneTombstone) = false)) ∧
    (n.applyAll ops).store.locks = (ops.foldl Store.execute n.store).locks ∧
    (n.store.collectsTombstones ops = true →
      (n.applyAll ops).store = ops.foldl Store.execute n.store) := by
  have h : n.store.WellFormed := hn ▸ WellFormed.empty.foldl_execute history
  have hs : n.store.Occupied := hn ▸ Occupied.empty.foldl_execute history
  refine ⟨fun op hnoop => ?_, h.locks_foldl_apply hs rfl ops, h.foldl_apply_eq hs⟩
  exact ⟨h.locks_execute_of_isNoop hs hnoop, h.versions_execute_of_isNoop hs hnoop,
    h.visible_execute_of_isNoop hs hnoop, h.execute_eq_self_iff hs hnoop⟩

/-- A node skips a put, a lock and two vacuums, one before there is a tombstone and one after
a vacuum has dropped it. -/
theorem skipped_without_tombstones :
    let owner : LockVersion := ⟨1, 1, 100⟩
    let history : List StoreOp := [.put [7] ⟨1, 1⟩ (some [10]), .lock [7] owner]
    let ops : List StoreOp :=
      [.put [7] ⟨1, 1⟩ (some [10]), .lock [7] owner, .vacuum ⟨1, 4⟩, .put [7] ⟨1, 2⟩ none,
        .vacuum ⟨1, 4⟩, .vacuum ⟨1, 5⟩, .unlock owner]
    let n : NodeState := { store := history.foldl Store.execute {} }
    n.store.collectsTombstones ops = true ∧ n.store.isNoop (.vacuum ⟨1, 4⟩) = true ∧
      n.store.execute (.vacuum ⟨1, 4⟩) = n.store ∧
      (n.applyAll ops).store = ops.foldl Store.execute n.store ∧
      (n.applyAll ops).store = {} := by
  intro owner history ops n
  have hn : n.store = history.foldl Store.execute {} := rfl
  have hcollects : n.store.collectsTombstones ops = true := by decide +kernel
  have hnoop : n.store.isNoop (.vacuum ⟨1, 4⟩) = true := by decide +kernel
  obtain ⟨hskipped, -, hrun⟩ := skipped_but_lone_tombstones hn ops
  refine ⟨hcollects, hnoop, (hskipped _ hnoop).2.2.2.mpr ?_, hrun hcollects, ?_⟩
  · decide +kernel
  · decide +kernel

/-- A vacuum is taken to have no effect on a store with a lone tombstone, and it has one. A node
that skips it reads no value where there would be one after the next put. -/
theorem lone_tombstone_kept :
    let s : Store := [.put [7] ⟨1, 5⟩ none].foldl Store.execute {}
    let vacuum : StoreOp := .vacuum ⟨1, 6⟩
    let ops : List StoreOp := [vacuum, .put [7] ⟨1, 3⟩ (some [10])]
    let n : NodeState := { store := s }
    s.isNoop vacuum = true ∧ s.execute vacuum ≠ s ∧
      (s.execute vacuum).versions [7] = [] ∧ s.versions [7] = [⟨⟨1, 5⟩, none⟩] ∧
      (n.applyAll [vacuum]).store ≠ [vacuum].foldl Store.execute s ∧
      (n.applyAll ops).store ≠ ops.foldl Store.execute s ∧
      (n.applyAll ops).store.visible [7] none = none ∧
      (ops.foldl Store.execute s).visible [7] none = some [10] := by
  decide +kernel

end Store

end Enlistment
